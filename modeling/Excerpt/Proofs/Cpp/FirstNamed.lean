import Excerpt.Proofs.Cpp.FullName
import Excerpt.Proofs.Cpp.Place
import Excerpt.Proofs.Cpp.RealScope

/-!
# The first function of a name

A name without qualifiers is looked for in every scope, so what the search for the
first declaration carries along as the scope does not matter. It gives the first node, in the
order of the source, that declares a function or a member of the name
(`Declaring`), or the outermost template in whose function this node stands
(`standsFor`). A body is passed over twice, but the second pass finds nothing that
the first has not found. Nothing but the scopes hangs on what is looked for, so the
argument is made for any property that a search judges nodes by
(`findsFirst_of_judges`).
-/

namespace Excerpt.Cpp

open Node List Option Outcome Wanted

variable {src : Bytes} {cs : List Char} {name : String} {n : Node}

/-- The name of the function ends with `name`. -/
def PlainlyNamed (src : Bytes) (name : String) (d : Node) : Prop :=
  ∃ n, nameOfFunction? d = some n ∧ (parts src n).getLast? = some name

/-- The name of the function ends with `name`, with or without template arguments. -/
def Named (src : Bytes) (name : String) (d : Node) : Prop :=
  ∃ n s, nameOfFunction? d = some n ∧ leafText src n = some s ∧ (s = name ∨ baseName s = name)

/-- The node declares a function or a member of the name, whatever stands around it. -/
inductive Declaring (src : Bytes) (name : String) (d : Node) : Prop where
  | function (hkind : d.kind = "function_definition") (hnamed : Named src name d)
  | member (hkind : d.kind = "field_declaration") (hnamed : PlainlyNamed src name d)

theorem Declaring.kind_eq (h : Declaring src name n) :
    n.kind = "function_definition" ∨ n.kind = "field_declaration" := by
  cases h with
  | function hk => exact .inl hk
  | member hk => exact .inr hk

/-- What is searched for: functions of a name without qualifiers. -/
def functionsOf (name : String) : Wanted :=
  ⟨⟨name, []⟩, ["function_definition"]⟩

theorem ofString_unqualified (h : Text.contains name "::" = false) : Target.ofString name = ⟨name, []⟩ := by
  rw [Target.ofString, Text.split_of_not_contains h]
  rfl

/-- Without qualifiers, every scope fits. -/
theorem scopeFits_functionsOf (scope : List Part) : (functionsOf name).scopeFits scope = .ok true := by
  rw [Wanted.scopeFits, functionsOf]
  cases scope.drop (scope.length - 0) with
  | nil => rfl
  | cons p ps => rfl

theorem overload_functionsOf {path : List String} {m : Node} :
    Overload src ⟨name, []⟩ path m ↔ ∃ d, Represents m d ∧ PlainlyNamed src name d := by
  constructor
  · rintro ⟨d, n, hs, hn, hf, -⟩
    exact ⟨d, hs, n, hn, hf⟩
  · rintro ⟨d, hs, n, hn, hl⟩
    exact ⟨d, n, hs, hn, hl, nil_suffix⟩

section Declares

variable (hsrc : Utf8.Spells src cs) (hwf : n.WellFormed src)
  (h : Every (Legible (Token.scan src)) n) (hreadable : Every (Readable src) n)

include hsrc hwf h hreadable

theorem exists_isFunction (name : String) (hk : n.kind = "function_definition") (scope : List String) :
    ∃ b, (functionsOf name).isFunction src n scope = .ok b ∧ (b ↔ Named src name n) := by
  obtain ⟨declarator, body, hc, hfields⟩ := hwf.form.functionDefinition_cases hk
  have hfi : n.field? "declarator" = some declarator := by
    rw [Node.field?, hfields, hc]
    rfl
  cases hf : functionDeclarator? declarator with
  | none =>
    refine ⟨false, by simp only [Wanted.isFunction, hfi, hf]; rfl, ?_⟩
    simp only [Bool.false_eq_true, false_iff]
    rintro ⟨m, s, hm, -, -⟩
    rw [nameOfFunction?_eq hfi, hf] at hm
    cases hm
  | some f =>
    have hw : f.WellFormed src := (functionDeclarator?_every (hwf.field hfi) hf).1
    obtain ⟨hreadableF, hkindF⟩ := functionDeclarator?_every (hreadable.field hfi) hf
    obtain ⟨m, params, hchildrenF, hfieldsF, -, -⟩ := hw.form.functionDeclarator_cases hkindF
    have hm : f.field? "declarator" = some m := by
      rw [Node.field?, hfieldsF, hchildrenF]
      rfl
    have hn : (functionDeclarator? declarator).bind (·.field? "declarator") = some m := by
      rw [hf]
      exact hm
    obtain ⟨hwellM, hkindM, hsp⟩ := name_of_declarator (hwf.field hfi) (h.field hfi) hn
    obtain ⟨names, hfu⟩ := exists_fullName hsrc hwellM hkindM hsp hm (hreadableF.field hm) scope
    have hiff : Named src name n ↔ ∃ s, leafText src m = some s ∧ (s = name ∨ baseName s = name) := by
      rw [Named, nameOfFunction?_eq hfi, hn]
      constructor
      · rintro ⟨_, s, ⟨⟩, hs, hor⟩
        exact ⟨s, hs, hor⟩
      · rintro ⟨s, hs, hor⟩
        exact ⟨m, s, rfl, hs, hor⟩
    have hif : ∀ b : Bool, (if b then (functionsOf name).scopeFits names else
        (pure false : Except Failure Bool)) = .ok b := by
      intro b
      cases b with
      | true => exact scopeFits_functionsOf names
      | false => rfl
    rw [isFunction_eq (by rw [hfi]; exact hf), hfu, ok_bind, hiff]
    refine ⟨_, hif _, ?_⟩
    cases leafText src m with
    | none => simp
    | some s => simp [functionsOf]

omit hreadable in
theorem exists_isMember (hn : name ≠ "") (hk : n.kind = "field_declaration") (scope : List String) :
    ∃ b, (functionsOf name).isMember src n scope = .ok b ∧ (b ↔ PlainlyNamed src name n) := by
  obtain ⟨f, hc, hfi, hkindF⟩ := hwf.form.prototype_cases hk
  have hf : n.field? "declarator" = some f := by
    rw [Node.field?, hfi, hc]
    rfl
  obtain ⟨b, hb, hiff⟩ := exists_declares (t := ⟨name, []⟩) scope hsrc hn false
    (hwf.field hf) (h.field hf)
  have hme : (functionsOf name).isMember src n scope = declares ⟨name, []⟩ src scope false f := by
    rw [isMember_eq hf hkindF, declares]
    simp only [Bool.false_and, Bool.or_false]
    rfl
  refine ⟨b, hme.trans hb, ?_⟩
  rw [hiff, PlainlyNamed, nameOfFunction?_eq hf]
  constructor
  · rintro ⟨m, hm, hl, -⟩
    exact ⟨m, hm, hl⟩
  · rintro ⟨m, hm, hl⟩
    exact ⟨m, hm, hl, nil_suffix⟩

/-- A declaration is accepted in every scope, or in none. -/
theorem exists_declaring (hna : name ≠ "") (scope : List String) :
    ∃ b, (functionsOf name).declares src n scope = .ok b ∧ (b ↔ Declaring src name n) := by
  have hnot : n.kind ≠ "function_definition" → n.kind ≠ "field_declaration" →
      (false ↔ Declaring src name n) := by
    intro hf hm
    simp only [Bool.false_eq_true, false_iff]
    intro hd
    exact hd.kind_eq.elim hf hm
  by_cases hf : n.kind = "function_definition"
  · obtain ⟨b, hb, hiff⟩ := exists_isFunction hsrc hwf h hreadable name hf scope
    refine ⟨b, by rw [declares_function hf]; exact hb, hiff.trans ⟨.function hf, ?_⟩⟩
    rintro (⟨-, hn⟩ | ⟨hk, -⟩)
    · exact hn
    · exact absurd (hf.symm.trans hk) (by decide)
  by_cases hm : n.kind = "field_declaration"
  · obtain ⟨b, hb, hiff⟩ := exists_isMember hsrc hwf h hna hm scope
    refine ⟨b, by rw [declares_member hm]; exact hb, hiff.trans ⟨.member hm, ?_⟩⟩
    rintro (⟨hk, -⟩ | ⟨-, hn⟩)
    · exact absurd hk hf
    · exact hn
  refine ⟨false, ?_, hnot hf hm⟩
  cases hr : recordKinds.contains n.kind with
  | true =>
    obtain ⟨hre, -⟩ := recordName?_eq hsrc h.here (contains_iff_mem.1 hr)
    have hk : (functionsOf name).hasKind n.kind = false := by
      simpa [functionsOf, Wanted.hasKind] using hf
    rw [declares_record hr, hre, ok_bind, isRecord, hk]
    rfl
  | false =>
    have hv : (functionsOf name).hasKind "declaration" = false := rfl
    rw [Wanted.declares, hr, hv, beq_eq_false_iff_ne.2 hf,
      beq_eq_false_iff_ne.2 hm, Bool.and_false, Bool.false_and]
    rfl

end Declares

/-! ## The first node with a property -/

section First

variable {P : Node → Prop} {c d : Node} {i : Nat} {place : Place} {above ns : List Node}

/-- No node of the tree has the property. -/
def NoneBelow (P : Node → Prop) (n : Node) : Prop :=
  ∀ place above d, Below n place above d → ¬ P d

/-- The node `d` is the first one of the tree, in the order of the source, that has the property. -/
structure FirstBelow (P : Node → Prop) (n : Node) (place : Place) (above : List Node) (d : Node) :
    Prop where
  below : Below n place above d
  holds : P d
  first : ∀ place' above' d', Below n place' above' d' → P d' → ¬ place' < place

/-- What is given for a node that is found below the nodes `above`: the outermost template in whose
function it stands, or the node itself. -/
def standsFor : List Node → Node → Node
  | [], d => d
  | a :: above, d =>
    if a.kind = "template_declaration" ∧ (above.headD d).kind = "function_definition" then a
    else standsFor above d

theorem Below.headD (h : Below n place above d) : above.headD d = n := by
  cases h with
  | here => rfl
  | child hc h => rfl

/-- The answer of a search in a tree: what is given for the first node with the property, if there is
one. -/
inductive GivesFirst (P : Node → Prop) (n : Node) : Option Node → Prop where
  | none (h : NoneBelow P n) : GivesFirst P n none
  | some {place : Place} {above : List Node} {d : Node} (h : FirstBelow P n place above d) :
      GivesFirst P n (some (standsFor above d))

end First

/-! ## The order of the visits -/

section Order

variable {m c : Node} {names scope : List String} {place q r : Place} {above : List Node} {i : Nat}
  {v : Visit} {pre post : List Step} {w : Wanted}

/-- All names below a node can be read. -/
def Opens (src : Bytes) (n : Node) : Prop :=
  ∀ m ∈ n.preorder, ∃ names, opened src m = .ok names

theorem Opens.child (h : Opens src n) (hc : c ∈ n.children) : Opens src c :=
  fun m hm => h m (Node.mem_preorder.2 (.inr ⟨c, hc, hm⟩))

theorem opens_of_legible (hsrc : Utf8.Spells src cs) (hwf : n.WellFormed src)
    (h : Every (Legible (Token.scan src)) n) : Opens src n := by
  intro m hm
  have hl := (h.of_mem_preorder hm).here
  by_cases hs : m.kind = "namespace_definition"
  · exact ⟨_, (opened_space hs).trans (namespaceNames_eq hsrc (hwf.of_mem_preorder hm) hl hs)⟩
  cases hr : recordKinds.contains m.kind with
  | true =>
    obtain ⟨hre, -⟩ := recordName?_eq hsrc hl (contains_iff_mem.1 hr)
    exact ⟨_, by rw [opened_record hr, hre, ok_bind]; rfl⟩
  | false => exact ⟨[], opened_other hs hr⟩

/-- The second pass comes to every declaration. -/
theorem exists_visit (hopens : Opens src n) (h : Below n q above m) (hm : m.kind ∈ declaringKinds)
    (scope : List String) (place : Place) : ∃ v, .ok v ∈ visits src scope place n ∧ v.node = m := by
  induction h generalizing place with
  | here n =>
    obtain ⟨names, hn⟩ := hopens n (mem_preorder_self n)
    refine ⟨⟨n, place, scope, none⟩, ?_, rfl⟩
    rw [visits_of_opened hn, if_pos (contains_iff_mem.2 hm), append_assoc]
    exact mem_cons_self
  | @child n c m i q above hc _ ih =>
    obtain ⟨names, hn⟩ := hopens n (mem_preorder_self n)
    obtain ⟨v, hv, hno⟩ := ih (hopens.child (mem_of_getElem? hc)) hm (place ++ [i])
    refine ⟨v, ?_, hno⟩
    rw [visits_of_opened hn]
    exact mem_append_right _ (mem_visitsAmong.2 ⟨i, c, hc, by rw [Nat.zero_add]; exact hv⟩)

/-- A visit of a pass is one below some child, and comes after all steps below the children in front. -/
theorem split_visitsAmong {pass : Nat → Node → Entry} {ns : List Node}
    (h : visitsAmong src pass scope place i ns = pre ++ .ok v :: post) :
    ∃ j c pre' post', ns[j]? = some c ∧ pre' ⊆ pre ∧
      (pass (i + j) c).steps (visits src scope (place ++ [i + j]) c) = pre' ++ .ok v :: post' ∧
      ∀ k d, k < j → ns[k]? = some d →
        (pass (i + k) d).steps (visits src scope (place ++ [i + k]) d) ⊆ pre := by
  induction ns generalizing i pre with
  | nil => simp [visitsAmong] at h
  | cons n ns ih =>
    rw [visitsAmong] at h
    rcases Leads.split_append h with ⟨later, hh⟩ | ⟨before, rfl, hl⟩
    · exact ⟨0, n, pre, later, rfl, Subset.refl pre, hh, fun k d hk => absurd hk (Nat.not_lt_zero k)⟩
    · obtain ⟨j, c, pre', post', hc, hsub, hs, hb⟩ := ih hl
      refine ⟨j + 1, c, pre', post', hc, subset_append_of_subset_right _ hsub, ?_, ?_⟩
      · rw [Nat.add_right_comm] at hs
        exact hs
      · intro k d hk hd
        cases k with
        | zero =>
          cases hd
          exact subset_append_left _ _
        | succ k =>
          have hsub := hb k d (Nat.lt_of_succ_lt_succ hk) hd
          rw [Nat.add_right_comm] at hsub
          exact subset_append_of_subset_right _ hsub

/-- What the first pass enters comes after children that have nothing inside. -/
theorem flat_of_firstPass {j : Nat} {d : Node} (hf : n.Form src) (hc : n.children[i]? = some c)
    (h : firstPass names n place i c ≠ .skip) (hj : j < i) (hd : n.children[j]? = some d) :
    d.kind ∈ flatKinds := by
  have hlt := (List.getElem?_eq_some_iff.1 hc).1
  by_cases hs : n.kind = "namespace_definition"
  · rcases hf.space_cases hs with ⟨body, hch, -, -⟩ | ⟨label, body, hch, -, -, hl⟩
    · simp only [hch, length_singleton] at hlt
      omega
    · simp only [hch, length_cons, length_nil] at hlt
      obtain rfl : j = 0 := by omega
      rw [hch] at hd
      cases hd
      rcases hl with hl | hl
      · rw [hl]; decide
      · rw [hl]; decide
  cases hr : recordKinds.contains n.kind with
  | true =>
    obtain ⟨label, body, hch, hl, -, -⟩ := hf.record_cases (contains_iff_mem.1 hr)
    have hb : body.toList.length ≤ 1 := by cases body <;> simp
    rw [hch, length_append] at hlt
    rw [hch, getElem?_append_left (by omega)] at hd
    rw [hl d (mem_toList.1 (mem_of_getElem? hd))]
    decide
  | false =>
    by_cases ht : n.kind = "template_declaration"
    · obtain ⟨item, hit⟩ := hf.children_of_single (by rw [ht]; decide)
      have hone : item.toList.length ≤ 1 := by cases item <;> simp
      rw [hit] at hlt
      omega
    · exact absurd (firstPass_other hs hr ht) h

/-- The visit `v` after the steps `pre` is one of the node at `r`. It is answered by what stands for this
node, unless the node has been looked at in the same scope before; and all declarations in front of it have
been looked at. -/
structure Orderly (n : Node) (pre : List Step) (v : Visit) (r : Place) (above : List Node) : Prop where
  below : Below n r above v.node
  stands : v.answer = standsFor above v.node ∨ ∃ u, .ok u ∈ pre ∧ u.node = v.node ∧ u.scope = v.scope
  earlier : ∀ q outer m, Below n q outer m → m.kind ∈ declaringKinds → q < r →
    ∃ u, .ok u ∈ pre ∧ u.node = m

theorem Orderly.child (hbe : Below c r above v.node) (hc : n.children[i]? = some c)
    (hself : n.kind ∈ declaringKinds → ∃ u, .ok u ∈ pre ∧ u.node = n)
    (hb : ∀ j d, j < i → n.children[j]? = some d → ∀ q outer m, Below d q outer m →
      m.kind ∈ declaringKinds → ∃ u, .ok u ∈ pre ∧ u.node = m)
    (hea : ∀ q outer m, Below c q outer m → m.kind ∈ declaringKinds → q < r →
      ∃ u, .ok u ∈ pre ∧ u.node = m) (hs : v.answer = standsFor (n :: above) v.node ∨
      ∃ u, .ok u ∈ pre ∧ u.node = v.node ∧ u.scope = v.scope) : Orderly n pre v (i :: r) (n :: above) := by
  refine ⟨.child hc hbe, hs, fun q outer m hm hk hlt => ?_⟩
  cases hm with
  | here => exact hself hk
  | @child _ d _ j q outer hd hm =>
    rcases cons_lt_cons_iff.1 hlt with hj | ⟨rfl, hr⟩
    · exact hb j d hj hd q outer m hm hk
    · cases hc.symm.trans hd
      exact hea q outer m hm hk hr

/-- What stands for a node below a child stands for it below the node, unless the node is the template of a
function. -/
theorem standsFor_cons (h : Below c r above m)
    (hp : ¬ (n.kind = "template_declaration" ∧ c.kind = "function_definition")) :
    standsFor (n :: above) m = standsFor above m := by
  rw [standsFor, h.headD, if_neg hp]

section Passes

variable (hopens : Opens src n)
  (ih : ∀ c ∈ n.children, Opens src c → ∀ {scope : List String} {place : Place} {pre : List Step}
    {v : Visit} {post : List Step}, visits src scope place c = pre ++ .ok v :: post →
      ∃ r above, Orderly c pre v r above)
  {here : List Step} (hself : n.kind ∈ declaringKinds → ∃ u, .ok u ∈ here ∧ u.node = n)

include hopens ih hself

theorem orderly_firstPass (hwf : n.WellFormed src)
    (h : visitsAmong src (firstPass names n place) (scope ++ names) place 0 n.children =
      pre ++ .ok v :: post) : ∃ r above, Orderly n (here ++ pre) v r above := by
  obtain ⟨i, c, pre', post', hc, hsub, hs, -⟩ := split_visitsAmong h
  rw [Nat.zero_add] at hs
  have hmem := mem_of_getElem? hc
  have hco := hopens.child hmem
  have hsub : pre' ⊆ here ++ pre := subset_append_of_subset_right here hsub
  have hself : n.kind ∈ declaringKinds → ∃ u, .ok u ∈ here ++ pre ∧ u.node = n := fun hk =>
    (hself hk).imp fun u hu => ⟨mem_append_left _ hu.1, hu.2⟩
  -- nothing is declared in front of what the first pass enters
  have hb : firstPass names n place i c ≠ .skip → ∀ j d, j < i → n.children[j]? = some d →
      ∀ q outer m, Below d q outer m → m.kind ∈ declaringKinds → ∃ u, .ok u ∈ here ++ pre ∧ u.node = m := by
    intro hen j d hj hd q outer m hm hk
    have hdwf := hwf.child d (mem_of_getElem? hd)
    have hfl := flat_of_firstPass hwf.form hc hen hj hd
    have hno : ∀ k ∈ flatKinds, k ∉ declaringKinds := by decide
    cases hm with
    | here => exact absurd hk (hno _ hfl)
    | child hd' _ =>
      rw [hdwf.form.children_of_flat hfl] at hd'
      cases hd'
  cases hen : firstPass names n place i c with
  | skip =>
    rw [hen] at hs
    simp [Entry.steps] at hs
  | plain =>
    rw [hen] at hs
    obtain ⟨r, above, hv⟩ := ih c hmem hco hs
    have hp : ¬ (n.kind = "template_declaration" ∧ c.kind = "function_definition") := by
      rintro ⟨ht, hf⟩
      rw [firstPass_template ht, hf] at hen
      cases hen
    refine ⟨i :: r, n :: above, .child hv.below hc hself (hb (by simp [hen])) ?_ ?_⟩
    · intro q outer m hm hk hlt
      exact (hv.earlier q outer m hm hk hlt).imp fun u hu => ⟨hsub hu.1, hu.2⟩
    · rw [standsFor_cons hv.below hp]
      exact hv.stands.imp id fun hu => hu.imp fun u hu => ⟨hsub hu.1, hu.2⟩
  | within t p =>
    rw [hen] at hs
    obtain ⟨rfl, rfl, ht, hf⟩ := firstPass_eq_within hen
    obtain ⟨pre₀, rest, hvi, rfl, hr⟩ := map_eq_append_iff.1 hs
    obtain ⟨step, post₀, rfl, hst, rfl⟩ := map_eq_cons_iff.1 hr
    cases step with
    | error e => cases hst
    | ok v₀ =>
      cases hst
      obtain ⟨r, above, hv⟩ := ih c hmem hco hvi
      refine ⟨i :: r, t :: above, .child hv.below hc hself (hb (by simp [hen])) ?_ (.inl ?_)⟩
      · intro q outer m hm hk hlt
        obtain ⟨u, hu, hn⟩ := hv.earlier q outer m hm hk hlt
        exact ⟨u.inTemplate t p, hsub (List.mem_map.2 ⟨.ok u, hu, rfl⟩), hn⟩
      · have hstands : standsFor (t :: above) v₀.node = t := by
          rw [standsFor, hv.below.headD, if_pos ⟨ht, hf⟩]
        exact hstands.symm

theorem orderly_secondPass (hn : opened src n = .ok names)
    (h : visitsAmong src secondPass scope place 0 n.children = pre ++ .ok v :: post)
    (hfi : visitsAmong src (firstPass names n place) (scope ++ names) place 0 n.children ⊆ here) :
    ∃ r above, Orderly n (here ++ pre) v r above := by
  obtain ⟨i, c, pre', post', hc, hsub, hs, hb⟩ := split_visitsAmong h
  rw [Nat.zero_add] at hs
  have hmem := mem_of_getElem? hc
  have hsub : pre' ⊆ here ++ pre := subset_append_of_subset_right here hsub
  obtain ⟨r, above, hv⟩ := ih c hmem (hopens.child hmem) hs
  refine ⟨i :: r, n :: above, .child hv.below hc
    (fun hk => (hself hk).imp fun u hu => ⟨mem_append_left _ hu.1, hu.2⟩) ?_ ?_ ?_⟩
  · intro j d hj hd q outer m hm hk
    obtain ⟨u, hu, hno⟩ := exists_visit (hopens.child (mem_of_getElem? hd)) hm hk scope
      (place ++ [0 + j])
    exact ⟨u, mem_append_right _ (hb j d hj hd hu), hno⟩
  · intro q outer m hm hk hlt
    exact (hv.earlier q outer m hm hk hlt).imp fun u hu => ⟨hsub hu.1, hu.2⟩
  · by_cases hp : n.kind = "template_declaration" ∧ c.kind = "function_definition"
    · -- the first pass has looked at it on behalf of the template
      obtain ⟨ht, hf⟩ := hp
      have ho : opened src n = .ok [] :=
        opened_other (by rw [ht]; decide) (by rw [ht]; decide)
      cases hn.symm.trans ho
      refine .inr ⟨v.inTemplate n place, mem_append_left _ (hfi ?_), rfl, rfl⟩
      refine mem_visitsAmong.2 ⟨i, c, hc, ?_⟩
      rw [Nat.zero_add, firstPass_template ht, hf, append_nil]
      refine List.mem_map.2 ⟨.ok v, ?_, rfl⟩
      rw [show visits src scope (place ++ [i]) c = _ from hs]
      exact mem_append_right _ mem_cons_self
    · rw [standsFor_cons hv.below hp]
      exact hv.stands.imp id fun hu => hu.imp fun u hu => ⟨hsub hu.1, hu.2⟩

end Passes

/-- A search comes to the declarations in the order of the source. -/
theorem exists_orderly (hwf : n.WellFormed src) (hopens : Opens src n)
    (h : visits src scope place n = pre ++ .ok v :: post) : ∃ r above, Orderly n pre v r above := by
  induction hwf generalizing scope place pre v post with
  | @node n form children ih =>
    obtain ⟨names, hn⟩ := hopens n (mem_preorder_self n)
    have hwf : n.WellFormed src := .node form children
    have hself : n.kind ∈ declaringKinds → ∃ u : Visit, .ok u ∈ (if declaringKinds.contains n.kind then
        [.ok ⟨n, place, scope, none⟩] else [] : List Step) ∧ u.node = n := by
      intro hk
      rw [if_pos (contains_iff_mem.2 hk)]
      exact ⟨_, mem_cons_self, rfl⟩
    rw [visits_of_opened hn] at h
    rcases Leads.split_append h with ⟨later, hf⟩ | ⟨before, rfl, hs⟩
    · rcases Leads.split_append hf with ⟨later', hh⟩ | ⟨before, rfl, hb⟩
      · have hv : (.ok v : Step) ∈ pre ++ .ok v :: later' := mem_append_right _ mem_cons_self
        rw [← hh] at hv
        split at hv
        · cases mem_singleton.1 hv
          exact ⟨[], [], .here n, .inl rfl, fun q _ _ _ _ hlt => absurd hlt (not_lt_nil q)⟩
        · cases hv
      · exact orderly_firstPass hopens (fun c hc ho _ _ _ _ _ => ih c hc ho) hself hwf hb
    · exact orderly_secondPass hopens (fun c hc ho _ _ _ _ _ => ih c hc ho) (fun hk => (hself hk).imp
        fun u hu => ⟨mem_append_left _ hu.1, hu.2⟩) hn hs (subset_append_right _ _)

/-- What a search gives stands for a node that it accepts in some scope. In some scope, it does not accept what is
declared in front of this node. -/
theorem exists_of_scan (hwf : n.WellFormed src) (hopens : Opens src n)
    (h : w.scan src (visits src scope place n) = .ok (some v)) :
    ∃ r above, Below n r above v.node ∧ v.answer = standsFor above v.node ∧
      w.declares src v.node v.scope = .ok true ∧
      ∀ q outer m, Below n q outer m → m.kind ∈ declaringKinds → q < r →
        ∃ scope, w.declares src m scope = .ok false := by
  obtain ⟨pre, post, hst, -, hb, hv⟩ := scan_eq_some h
  obtain ⟨r, above, ho⟩ := exists_orderly hwf hopens hst
  refine ⟨r, above, ho.below, ho.stands.resolve_right ?_, hv, ?_⟩
  · rintro ⟨u, hu, hn, hs⟩
    have hnot := hb u hu
    rw [hn, hs, hv] at hnot
    cases hnot
  · intro q outer m hm hk hlt
    obtain ⟨u, hu, rfl⟩ := ho.earlier q outer m hm hk hlt
    exact ⟨u.scope, hb u hu⟩

end Order

/-! ## The search -/

section Search

variable {w : Wanted} {steps : List Step} {scope : List String} {place : Place}

def LooksIn (n : Node) (step : Step) : Prop :=
  ∃ v, step = .ok v ∧ v.node ∈ n.preorder

theorem looksIn_of_mem_steps {entry : Entry} (h : ∀ s ∈ steps, LooksIn n s) :
    ∀ s ∈ entry.steps steps, LooksIn n s := by
  cases entry with
  | skip => simp [Entry.steps]
  | plain => exact h
  | within t p =>
    intro s hs
    obtain ⟨s', hs', rfl⟩ := List.mem_map.1 hs
    obtain ⟨v, rfl, hv⟩ := h s' hs'
    exact ⟨v.inTemplate t p, rfl, hv⟩

/-- If all names can be read, every step is a look at a node. -/
theorem looksIn_of_mem_visits (n : Node) (h : Opens src n) (scope : List String) (place : Place) :
    ∀ s ∈ visits src scope place n, LooksIn n s := by
  induction n using Node.induction generalizing scope place with
  | h n ih =>
    obtain ⟨names, hn⟩ := h n (mem_preorder_self n)
    have hb : ∀ pass : Nat → Node → Entry, ∀ scope : List String,
        ∀ s ∈ visitsAmong src pass scope place 0 n.children, LooksIn n s := by
      intro pass scope s hs
      obtain ⟨j, c, hc, hs⟩ := mem_visitsAmong.1 hs
      have hmem := mem_of_getElem? hc
      obtain ⟨v, rfl, hv⟩ := looksIn_of_mem_steps (ih c hmem (h.child hmem) scope _) s hs
      exact ⟨v, rfl, Node.mem_preorder.2 (.inr ⟨c, hmem, hv⟩)⟩
    intro s hs
    rw [visits_of_opened hn, mem_append, mem_append] at hs
    rcases hs with (hs | hs) | hs
    · split at hs
      · rw [mem_singleton.1 hs]
        exact ⟨_, rfl, mem_preorder_self n⟩
      · cases hs
    · exact hb _ _ s hs
    · exact hb _ _ s hs

/-- A search that can judge every node has an answer. If it finds nothing, it has accepted nothing of what it
has looked at. -/
theorem exists_scan (h : ∀ s ∈ steps, LooksIn n s)
    (hd : ∀ m ∈ n.preorder, ∀ scope, ∃ b, w.declares src m scope = .ok b) :
    ∃ r, w.scan src steps = .ok r ∧
      (r = none → ∀ v, .ok v ∈ steps → w.declares src v.node v.scope = .ok false) := by
  induction steps with
  | nil => exact ⟨none, rfl, fun _ v hv => absurd hv not_mem_nil⟩
  | cons s steps ih =>
    obtain ⟨⟨v, rfl, hv⟩, hs⟩ := forall_mem_cons.1 h
    obtain ⟨b, hb⟩ := hd v.node hv v.scope
    cases b with
    | true => exact ⟨some v, by rw [scan, hb]; rfl, fun ha => by cases ha⟩
    | false =>
      rw [scan, hb]
      obtain ⟨r, hr, hn⟩ := ih hs
      refine ⟨r, hr, fun hrn u hu => ?_⟩
      rcases mem_cons.1 hu with heq | hu
      · cases heq
        exact hb
      · exact hn hrn u hu

/-- The search in a tree gives what stands for the first node with the property, in whatever scope the tree
is thought to be. -/
def FindsFirst (w : Wanted) (src : Bytes) (P : Node → Prop) (n : Node) : Prop :=
  ∀ scope, ∃ r, first w src scope n = .ok r ∧ GivesFirst P n r

/-- The node is accepted in every scope if it has the property, and in none otherwise. -/
def Judges (w : Wanted) (src : Bytes) (P : Node → Prop) (n : Node) : Prop :=
  ∀ scope, ∃ b, w.declares src n scope = .ok b ∧ (b ↔ P n)

theorem Judges.iff {P : Node → Prop} {b : Bool} (h : Judges w src P n)
    (hb : w.declares src n scope = .ok b) : b ↔ P n := by
  obtain ⟨b', hb', hiff⟩ := h scope
  cases hb.symm.trans hb'
  exact hiff

/-- A search that judges every node by a property gives what stands for the first node that has it. -/
theorem findsFirst_of_judges {P : Node → Prop} (hsrc : Utf8.Spells src cs)
    (hk : ∀ m, P m → m.kind ∈ declaringKinds)
    (hju : ∀ n : Node, n.WellFormed src → Every (Legible (Token.scan src)) n →
      Every (Readable src) n → Judges w src P n) (n : Node) (hwf : n.WellFormed src)
    (hl : Every (Legible (Token.scan src)) n) (hreadable : Every (Readable src) n) :
    FindsFirst w src P n := by
  intro scope
  have hopens := opens_of_legible hsrc hwf hl
  have hj : ∀ m ∈ n.preorder, Judges w src P m := fun m hm =>
    hju m (hwf.of_mem_preorder hm) (hl.of_mem_preorder hm) (hreadable.of_mem_preorder hm)
  obtain ⟨r, hr, hn⟩ := exists_scan (looksIn_of_mem_visits n hopens scope []) fun m hm scope =>
    (hj m hm scope).imp fun b hb => hb.1
  refine ⟨r.map Visit.answer, by rw [first_eq_scan w src n scope [], hr]; rfl, ?_⟩
  cases r with
  | none =>
    refine .none fun q above d hbe hd => ?_
    obtain ⟨v, hv, rfl⟩ := exists_visit hopens hbe (hk d hd) scope []
    have hiff := (hj v.node hbe.mem_preorder).iff (hn rfl v hv)
    exact absurd (hiff.2 hd) (by decide)
  | some v =>
    obtain ⟨q, above, hbe, ha, hv, hea⟩ := exists_of_scan hwf hopens hr
    have hf : FirstBelow P n q above v.node := by
      refine ⟨hbe, ((hj _ hbe.mem_preorder).iff hv).1 rfl, fun p outer d hd hh hlt => ?_⟩
      obtain ⟨scope', hnot⟩ := hea p outer d hd (hk d hh) hlt
      exact absurd (((hj d hd.mem_preorder).iff hnot).2 hh) (by decide)
    rw [map_some, ha]
    exact .some hf

end Search

/-- The search for a name without qualifiers gives what stands for the first function of the name. -/
theorem findsFirst (hsrc : Utf8.Spells src cs) (hn : name ≠ "") :
    ∀ n : Node, n.WellFormed src → Every (Legible (Token.scan src)) n → Every (Readable src) n →
      FindsFirst (functionsOf name) src (Declaring src name) n := by
  refine findsFirst_of_judges hsrc (fun m hm => ?_) fun n hwf hl hreadable =>
    exists_declaring hsrc hwf hl hreadable hn
  rcases hm.kind_eq with hk | hk
  · rw [hk]; decide
  · rw [hk]; decide

end Excerpt.Cpp
