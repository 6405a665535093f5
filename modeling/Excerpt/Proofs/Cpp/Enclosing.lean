import Excerpt.Proofs.Cpp.Visit
import Excerpt.Proofs.Tree.Form

/-!
# The scopes around a declaration

`Within src n place m around` says where the node `m` really stands below `n`: at
`place`, within the scopes `around`. The scope that a visit carries may be shorter,
since a body is passed over a second time without the names it opens. But the
search never comes to such a visit first: it has looked at the same declaration
with all scopes around it before (`leads_visits`).
-/

namespace Excerpt.Cpp

open Node List Option

variable {src : Bytes} {n m c t : Node} {place p q : Place} {around scope names : List String} {i : Nat}
  {v : Visit} {pass : Nat → Node → Entry} {ns : List Node} {step : Step} {entry : Entry} {steps : List Step}

/-- The node `m` stands at `place` below `n`, and the nodes on the way open the
scopes `around`. -/
inductive Within (src : Bytes) : Node → Place → Node → List String → Prop where
  | here (n : Node) : Within src n [] n []
  | child {n c m : Node} {i : Nat} {place : Place} {names around : List String}
      (hchild : n.children[i]? = some c) (hnames : opened src n = .ok names)
      (h : Within src c place m around) : Within src n (i :: place) m (names ++ around)

theorem Within.unique {m' : Node} {around' : List String} (h : Within src n place m around)
    (h' : Within src n place m' around') : m = m' ∧ around = around' := by
  induction h generalizing around' with
  | here n =>
    cases h' with
    | here => exact ⟨rfl, rfl⟩
  | child hc hn _ ih =>
    cases h' with
    | child hc' hn' h' =>
      cases hc.symm.trans hc'
      cases hn.symm.trans hn'
      obtain ⟨hm, ha⟩ := ih h'
      exact ⟨hm, by rw [ha]⟩

theorem Within.wellFormed (h : Within src n place m around) (hwf : n.WellFormed src) : m.WellFormed src := by
  induction h with
  | here n => exact hwf
  | child hc _ _ ih => exact ih (hwf.child _ (mem_of_getElem? hc))

theorem Within.trans {inner : List String} (h : Within src n p c around)
    (h' : Within src c q m inner) : Within src n (p ++ q) m (around ++ inner) := by
  induction h with
  | here n => exact h'
  | child hc hn _ ih =>
    rw [append_assoc]
    exact .child hc hn (ih h')

/-- The node at a place, with the scopes around it. -/
def standing (src : Bytes) : Node → Place → Option (Node × List String)
  | n, [] => some (n, [])
  | n, i :: place => do
    let c ← n.children[i]?
    let names ← (opened src n).toOption
    let (m, around) ← standing src c place
    return (m, names ++ around)

theorem within_of_standing (h : standing src n place = some (m, around)) : Within src n place m around := by
  induction place generalizing n m around with
  | nil =>
    cases h
    exact .here n
  | cons i place ih =>
    rw [standing] at h
    obtain ⟨c, hc, h⟩ := bind_eq_some_iff.1 h
    obtain ⟨names, hn, h⟩ := bind_eq_some_iff.1 h
    obtain ⟨⟨m', inner⟩, hin, h⟩ := bind_eq_some_iff.1 h
    cases h
    exact .child hc (Outcome.toOption_eq_some.1 hn) (ih hin)

theorem mem_visitsAmong :
    step ∈ visitsAmong src pass scope place i ns ↔ ∃ j c, ns[j]? = some c ∧
        step ∈ (pass (i + j) c).steps (visits src scope (place ++ [i + j]) c) := by
  induction ns generalizing i with
  | nil => simp [visitsAmong]
  | cons n ns ih =>
    rw [visitsAmong, mem_append, ih]
    constructor
    · rintro (hh | ⟨j, c, hc, hs⟩)
      · exact ⟨0, n, rfl, hh⟩
      · refine ⟨j + 1, c, hc, ?_⟩
        rw [Nat.add_right_comm] at hs
        exact hs
    · rintro ⟨j, c, hc, hs⟩
      cases j with
      | zero =>
        cases hc
        exact .inl hs
      | succ j =>
        refine .inr ⟨j, c, hc, ?_⟩
        rw [Nat.add_right_comm]
        exact hs

/-- A pass that enters a child keeps what is looked at, where and in which scope. -/
theorem exists_of_mem_steps (h : .ok v ∈ entry.steps steps) :
    ∃ u, .ok u ∈ steps ∧ u.node = v.node ∧ u.place = v.place ∧ u.scope = v.scope ∧
      (u.template = v.template ∨ ∃ t p, entry = .within t p ∧ v.template = some (t, p)) := by
  cases entry with
  | skip => cases h
  | plain => exact ⟨v, h, rfl, rfl, rfl, .inl rfl⟩
  | within t p =>
    obtain ⟨step, hs, heq⟩ := List.mem_map.1 h
    cases step with
    | error e => cases heq
    | ok u =>
      cases heq
      exact ⟨u, hs, rfl, rfl, rfl, .inr ⟨t, p, rfl, rfl⟩⟩

/-- A step of a node is a look at itself, or a step of one of its children in one of the passes. -/
theorem mem_visits_cases (ho : opened src n = .ok names) (h : .ok v ∈ visits src scope place n) :
    (v = ⟨n, place, scope, none⟩ ∧ n.kind ∈ declaringKinds) ∨ ∃ i c, n.children[i]? = some c ∧
        ((.ok v ∈ (firstPass names n place i c).steps (visits src (scope ++ names) (place ++ [i]) c)) ∨
          .ok v ∈ visits src scope (place ++ [i]) c) := by
  rw [visits_of_opened ho, mem_append, mem_append, mem_visitsAmong, mem_visitsAmong] at h
  rcases h with (hh | ⟨i, c, hc, hs⟩) | ⟨i, c, hc, hs⟩
  · left
    split at hh
    · next hd =>
        cases mem_singleton.1 hh
        exact ⟨rfl, contains_iff_mem.1 hd⟩
    · cases hh
  · rw [Nat.zero_add] at hs
    exact .inr ⟨i, c, hc, .inl hs⟩
  · rw [Nat.zero_add] at hs
    exact .inr ⟨i, c, hc, .inr hs⟩

/-- Nothing is looked at below a node whose name cannot be read. -/
theorem exists_opened (h : .ok v ∈ visits src scope place n) : ∃ names, opened src n = .ok names := by
  cases ho : opened src n with
  | ok names => exact ⟨names, rfl⟩
  | error e =>
    rw [visits_of_error ho, mem_singleton] at h
    cases h

/-- A visit is one of a declaration that stands where the visit says. The scope it
carries has no name that does not enclose the declaration. -/
theorem within_of_mem_visits (n : Node) (h : .ok v ∈ visits src scope place n) :
    ∃ q around, v.place = place ++ q ∧ Within src n q v.node around ∧
      v.node.kind ∈ declaringKinds ∧ v.scope.Sublist (scope ++ around) := by
  induction n using Node.induction generalizing scope place v with
  | h n ih =>
    obtain ⟨names, ho⟩ := exists_opened h
    rcases mem_visits_cases ho h with ⟨rfl, hk⟩ | ⟨i, c, hc, hs⟩
    · exact ⟨[], [], (append_nil place).symm, .here n, hk, sublist_append_left _ _⟩
    · have hb : ∃ scope' u, .ok u ∈ visits src scope' (place ++ [i]) c ∧
          u.node = v.node ∧ u.place = v.place ∧ u.scope = v.scope ∧
          scope'.Sublist (scope ++ names) := by
        rcases hs with hs | hs
        · obtain ⟨u, hu, hn, hp, hsc, -⟩ := exists_of_mem_steps hs
          exact ⟨_, u, hu, hn, hp, hsc, .refl _⟩
        · exact ⟨_, v, hs, rfl, rfl, rfl, sublist_append_left _ _⟩
      obtain ⟨scope', u, hu, hn, hp, hsc, hsub⟩ := hb
      obtain ⟨q, around, hq, hw, hk, hca⟩ := ih c (mem_of_getElem? hc) hu
      rw [hn] at hw hk
      refine ⟨i :: q, names ++ around, ?_, .child hc ho hw, hk, ?_⟩
      · rw [← hp, hq, append_assoc, singleton_append]
      · rw [← hsc, ← append_assoc]
        exact hca.trans (hsub.append_right around)

theorem firstPass_eq_within (h : firstPass names n place i c = .within t p) :
    t = n ∧ p = place ∧ n.kind = "template_declaration" ∧ c.kind = "function_definition" := by
  unfold firstPass at h
  split at h
  · split at h
    · cases h
    · cases h
  split at h
  · split at h
    · cases h
    · cases h
  split at h
  · next hk =>
      split at h
      · next hf =>
          cases h
          exact ⟨rfl, rfl, beq_iff_eq.1 hk, beq_iff_eq.1 hf⟩
      split at h
      · cases h
      · cases h
  · cases h

/-- A visit on behalf of a template is one in the function of the template. -/
theorem template_of_mem_visits (n : Node)
    (h : .ok v ∈ visits src scope place n) (ht : v.template = some (t, p)) :
    ∃ q around i c r inner, p = place ++ q ∧ Within src n q t around ∧
      t.kind = "template_declaration" ∧ t.children[i]? = some c ∧
      c.kind = "function_definition" ∧ v.place = p ++ i :: r ∧ Within src c r v.node inner := by
  induction n using Node.induction generalizing scope place v with
  | h n ih =>
    obtain ⟨names, ho⟩ := exists_opened h
    rcases mem_visits_cases ho h with ⟨rfl, -⟩ | ⟨i, c, hc, hs⟩
    · cases ht
    have hb : ∀ scope' u, .ok u ∈ visits src scope' (place ++ [i]) c → u.node = v.node →
        u.place = v.place → u.template = v.template →
        ∃ q around i c r inner, p = place ++ q ∧ Within src n q t around ∧
          t.kind = "template_declaration" ∧ t.children[i]? = some c ∧
          c.kind = "function_definition" ∧ v.place = p ++ i :: r ∧
          Within src c r v.node inner := by
      intro scope' u hu hn hpl hte
      obtain ⟨q, around, j, d, r, inner, hp, hw, hk, hd, hf, hr, hin⟩ :=
        ih c (mem_of_getElem? hc) hu (hte.trans ht)
      rw [hn] at hin
      rw [hpl] at hr
      refine ⟨i :: q, names ++ around, j, d, r, inner, ?_, .child hc ho hw, hk, hd,
        hf, hr, hin⟩
      rw [hp, append_assoc, singleton_append]
    rcases hs with hs | hs
    · obtain ⟨u, hu, hn, hpl, -, hte | ⟨t', p', hen, ht'⟩⟩ := exists_of_mem_steps hs
      · exact hb _ u hu hn hpl hte
      · obtain ⟨rfl, rfl, hk, hf⟩ := firstPass_eq_within hen
        cases ht'.symm.trans ht
        obtain ⟨r, inner, hr, hin, -⟩ := within_of_mem_visits c hu
        rw [hn] at hin
        refine ⟨[], [], i, c, r, inner, (append_nil _).symm, .here _, hk, hc, hf, ?_, hin⟩
        rw [← hpl, hr, append_assoc, singleton_append]
    · exact hb _ v hs rfl rfl rfl

/-- The first pass over a node that opens scopes enters all that has something inside. -/
theorem firstPass_eq_plain (hfo : n.Form src) (ho : opened src n = .ok names)
    (hna : names ≠ []) (hc : n.children[i]? = some c) (hk : c.kind ∉ flatKinds)
    (place : Place) : firstPass names n place i c = .plain := by
  by_cases hs : n.kind = "namespace_definition"
  · rw [firstPass_space hs]
    rcases hfo.space_cases hs with ⟨body, hch, hf, hb⟩ |
      ⟨name, body, hch, hf, hb, hn⟩
    · rw [hch] at hc
      cases i with
      | zero =>
        cases hc
        rw [hf, hb]
        rfl
      | succ i => cases hc
    · rw [hch] at hc
      match i with
      | 0 =>
        cases hc
        rcases hn with hn | hn
        · exact absurd (by rw [hn]; decide) hk
        · exact absurd (by rw [hn]; decide) hk
      | 1 =>
        cases hc
        rw [hf, hb]
        rfl
  cases hr : recordKinds.contains n.kind with
  | true =>
    obtain ⟨name, body, hch, hn, -, hb⟩ := hfo.record_cases (contains_iff_mem.1 hr)
    have hmem := mem_of_getElem? hc
    rw [hch, mem_append, mem_toList, mem_toList] at hmem
    rcases hmem with hmem | hmem
    · exact absurd (by rw [hn c hmem]; decide) hk
    · have hne : names.isEmpty = false := by simpa using hna
      rw [firstPass_record hr, hb c hmem, hne]
      rfl
  | false =>
    rw [opened_other hs hr] at ho
    cases ho
    exact absurd rfl hna

/-- A step below a child, taken with the scopes that the node opens, is one of the node. -/
theorem mem_visits_of_child (hf : n.Form src) (ho : opened src n = .ok names)
    (hc : n.children[i]? = some c) (hk : c.kind ∉ flatKinds)
    (h : step ∈ visits src (scope ++ names) (place ++ [i]) c) : step ∈ visits src scope place n := by
  rw [visits_of_opened ho, mem_append, mem_append, mem_visitsAmong, mem_visitsAmong]
  by_cases hn : names = []
  · rw [hn, append_nil] at h
    exact .inr ⟨i, c, hc, by rw [Nat.zero_add]; exact h⟩
  · refine .inl (.inr ⟨i, c, hc, ?_⟩)
    rw [Nat.zero_add, firstPass_eq_plain hf ho hn hc hk]
    exact h

/-- What has nothing inside holds no declaration. -/
theorem not_declaring_of_flat (hf : n.Form src) (hk : n.kind ∈ flatKinds)
    (h : Within src n q m around) : m.kind ∉ declaringKinds := by
  have hn : ∀ k ∈ flatKinds, k ∉ declaringKinds := by decide
  cases h with
  | here => exact hn _ hk
  | child hc hna h =>
    rw [hf.children_of_flat hk] at hc
    cases hc

/-- A search that fails nowhere looks at every declaration with all scopes around it. -/
theorem exists_full_visit (hwf : n.WellFormed src) (h : Within src n q m around)
    (hm : m.kind ∈ declaringKinds) (hok : ∀ e, .error e ∉ visits src scope place n) :
    ∃ v, .ok v ∈ visits src scope place n ∧ v.node = m ∧ v.place = place ++ q ∧
      v.scope = scope ++ around := by
  induction h generalizing scope place with
  | here n =>
    cases ho : opened src n with
    | error e =>
      rw [visits_of_error ho] at hok
      exact absurd mem_cons_self (hok e)
    | ok names =>
      refine ⟨⟨n, place, scope, none⟩, ?_, rfl, (append_nil _).symm, (append_nil _).symm⟩
      rw [visits_of_opened ho, if_pos (contains_iff_mem.2 hm), append_assoc]
      exact mem_cons_self
  | @child n c m i q names around hc ho hb ih =>
    have hcwf := hwf.child c (mem_of_getElem? hc)
    have hk : c.kind ∉ flatKinds := fun hf =>
      not_declaring_of_flat hcwf.form hf hb hm
    obtain ⟨v, hv, hn, hp, hs⟩ := ih hcwf hm
      (fun e he => hok e (mem_visits_of_child hwf.form ho hc hk he))
    refine ⟨v, mem_visits_of_child hwf.form ho hc hk hv, hn, ?_, ?_⟩
    · rw [hp, append_assoc, singleton_append]
    · rw [hs, append_assoc]

/-- Every visit that the steps come to without a failure is led by one that is
related to it: an earlier one, or the visit itself. -/
def Leads (R : Visit → Visit → Prop) (steps : List Step) : Prop :=
  ∀ pre v post, steps = pre ++ .ok v :: post → (∀ e, .error e ∉ pre) →
    ∃ u, .ok u ∈ pre ++ [.ok v] ∧ R u v

namespace Leads

variable {R R' : Visit → Visit → Prop} {steps more : List Step}

theorem of_self (h : ∀ v, .ok v ∈ steps → R v v) : Leads R steps := by
  intro pre v post hs _
  exact ⟨v, mem_append_right _ mem_cons_self, h v (by rw [hs]; simp)⟩

theorem nil : Leads R [] :=
  of_self nofun

theorem mono (h : Leads R steps) (hR : ∀ u v, R u v → R' u v) : Leads R' steps := by
  intro pre v post hs hok
  obtain ⟨u, hu, huv⟩ := h pre v post hs hok
  exact ⟨u, hu, hR u v huv⟩

/-- A step of a list made of two parts is in the first part, or comes after all of it. -/
theorem split_append {pre post : List Step} {step : Step} (h : steps ++ more = pre ++ step :: post) :
    (∃ later, steps = pre ++ step :: later) ∨
      ∃ before, pre = steps ++ before ∧ more = before ++ step :: post := by
  rcases append_eq_append_iff.1 h with ⟨before, hpre, hm⟩ | ⟨later, hs, hl⟩
  · exact .inr ⟨before, hpre, hm⟩
  · cases later with
    | nil =>
      rw [append_nil] at hs
      exact .inr ⟨[], by rw [hs, append_nil], hl.symm⟩
    | cons x later =>
      rw [cons_append, cons.injEq] at hl
      exact .inl ⟨later, by rw [hs, hl.1]⟩

theorem append (h : Leads R steps) (hm : Leads R more) : Leads R (steps ++ more) := by
  intro pre v post hs hok
  rcases split_append hs with ⟨later, hl⟩ | ⟨before, rfl, hb⟩
  · exact h pre v later hl hok
  · obtain ⟨u, hu, huv⟩ := hm before v post hb fun e he => hok e (mem_append_right _ he)
    exact ⟨u, by rw [append_assoc]; exact mem_append_right _ hu, huv⟩

/-- Steps that are led from an earlier part need no lead of their own. -/
theorem append_of_led (h : Leads R steps)
    (hm : (∀ e, .error e ∉ steps) → ∀ v, .ok v ∈ more → ∃ u, .ok u ∈ steps ∧ R u v) :
    Leads R (steps ++ more) := by
  intro pre v post hs hok
  rcases split_append hs with ⟨later, hl⟩ | ⟨before, rfl, hb⟩
  · exact h pre v later hl hok
  · obtain ⟨u, hu, huv⟩ := hm (fun e he => hok e (mem_append_left _ he)) v (by rw [hb]; simp)
    exact ⟨u, mem_append_left _ (mem_append_left _ hu), huv⟩

theorem map_inTemplate {t : Node} {p : Place} (h : Leads R steps)
    (hR : ∀ u v, R u v → R' (u.inTemplate t p) (v.inTemplate t p)) :
    Leads R' (steps.map (Except.map (Visit.inTemplate t p))) := by
  intro pre v post hst hok
  obtain ⟨pre', rest, rfl, rfl, hr⟩ := map_eq_append_iff.1 hst
  obtain ⟨step, post', rfl, hs, rfl⟩ := map_eq_cons_iff.1 hr
  cases step with
  | error e => cases hs
  | ok v' =>
    cases hs
    obtain ⟨u, hu, huv⟩ := h pre' v' post' rfl fun e he => hok e (List.mem_map.2 ⟨.error e, he, rfl⟩)
    refine ⟨u.inTemplate t p, ?_, hR u v' huv⟩
    rw [mem_append] at hu ⊢
    rcases hu with hu | hu
    · exact .inl (List.mem_map.2 ⟨.ok u, hu, rfl⟩)
    · cases mem_singleton.1 hu
      exact .inr mem_cons_self

end Leads

theorem leads_visitsAmong {R : Visit → Visit → Prop}
    (h : ∀ j c, ns[j]? = some c → Leads R ((pass (i + j) c).steps (visits src scope (place ++ [i + j]) c))) :
    Leads R (visitsAmong src pass scope place i ns) := by
  induction ns generalizing i with
  | nil =>
    rw [visitsAmong]
    exact .nil
  | cons n ns ih =>
    rw [visitsAmong]
    refine (h 0 n rfl).append (ih ?_)
    intro j c hc
    rw [Nat.add_right_comm]
    exact h (j + 1) c hc

/-- The visit `u` is one of the same declaration as `v`, with all scopes around it:
those that the search started with and those that are opened below `n`. -/
def FullFor (src : Bytes) (n : Node) (scope : List String) (place : Place) (u v : Visit) : Prop :=
  u.node = v.node ∧ u.place = v.place ∧
    ∃ q around, v.place = place ++ q ∧ Within src n q v.node around ∧ u.scope = scope ++ around

theorem FullFor.of_child {u : Visit} (ho : opened src n = .ok names)
    (hc : n.children[i]? = some c) (h : FullFor src c (scope ++ names) (place ++ [i]) u v) :
    FullFor src n scope place u v := by
  obtain ⟨hn, hp, q, around, hq, hw, hs⟩ := h
  refine ⟨hn, hp, i :: q, names ++ around, ?_, .child hc ho hw, ?_⟩
  · rw [hq, append_assoc, singleton_append]
  · rw [hs, append_assoc]

theorem leads_steps (h : Leads (FullFor src n scope place) steps) :
    Leads (FullFor src n scope place) (entry.steps steps) := by
  cases entry with
  | skip => exact .nil
  | plain => exact h
  | within t p => exact h.map_inTemplate fun u v huv => huv

/-- What is seen again in the second pass over a node that opens scopes has been
seen with these scopes in the first one. -/
theorem led_secondPass (hwf : n.WellFormed src) (ho : opened src n = .ok names)
    (hn : names ≠ []) (hok : ∀ e, .error e ∉
      visitsAmong src (firstPass names n place) (scope ++ names) place 0 n.children)
    (hv : .ok v ∈ visitsAmong src secondPass scope place 0 n.children) :
    ∃ u, .ok u ∈ visitsAmong src (firstPass names n place) (scope ++ names) place 0 n.children ∧
      FullFor src n scope place u v := by
  obtain ⟨i, c, hc, hs⟩ := mem_visitsAmong.1 hv
  rw [Nat.zero_add] at hs
  obtain ⟨q, around, hq, hw, hk, -⟩ := within_of_mem_visits c hs
  have hcwf := hwf.child c (mem_of_getElem? hc)
  have hin : c.kind ∉ flatKinds := fun hfl =>
    not_declaring_of_flat hcwf.form hfl hw hk
  have hf : ∀ step ∈ visits src (scope ++ names) (place ++ [i]) c,
      step ∈ visitsAmong src (firstPass names n place) (scope ++ names) place 0 n.children := by
    intro step hs
    refine mem_visitsAmong.2 ⟨i, c, hc, ?_⟩
    rw [Nat.zero_add, firstPass_eq_plain hwf.form ho hn hc hin]
    exact hs
  obtain ⟨u, hu, hno, hp, hsc⟩ := exists_full_visit hcwf hw hk
    fun e he => hok e (hf _ he)
  exact ⟨u, hf _ hu, .of_child ho hc ⟨hno, by rw [hp, hq], q, around, hq, hw, hsc⟩⟩

/-- A search looks at a declaration with all scopes around it before it looks at
it with fewer. -/
theorem leads_visits (hwf : n.WellFormed src) (scope : List String) (place : Place) :
    Leads (FullFor src n scope place) (visits src scope place n) := by
  induction hwf generalizing scope place with
  | @node n form children ih =>
    cases ho : opened src n with
    | error e =>
      rw [visits_of_error ho]
      exact .of_self (by simp)
    | ok names =>
      rw [visits_of_opened ho]
      have hb : ∀ pass, Leads (FullFor src n scope place)
          (visitsAmong src pass (scope ++ names) place 0 n.children) := by
        intro pass
        refine leads_visitsAmong ?_
        intro i c hc
        rw [Nat.zero_add]
        exact leads_steps ((ih c (mem_of_getElem? hc) _ _).mono fun u v huv => huv.of_child ho hc)
      have hh : Leads (FullFor src n scope place)
          (if declaringKinds.contains n.kind then [.ok ⟨n, place, scope, none⟩] else []) := by
        refine .of_self ?_
        intro v hv
        split at hv
        · cases mem_singleton.1 hv
          exact ⟨rfl, rfl, [], [], (append_nil _).symm, .here n, (append_nil _).symm⟩
        · cases hv
      -- without names of its own, the second pass carries the same scope as the first
      by_cases hn : names = []
      · refine (hh.append (hb _)).append ?_
        have hs := hb secondPass
        rw [hn, append_nil] at hs
        exact hs
      · refine (hh.append (hb _)).append_of_led ?_
        intro hok v hv
        obtain ⟨u, hu, huv⟩ := led_secondPass (.node form children) ho hn
          (fun e he => hok e (mem_append_right _ he)) hv
        exact ⟨u, mem_append_right _ hu, huv⟩

end Excerpt.Cpp
