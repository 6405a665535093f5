import Excerpt.Cpp.Overload
import Excerpt.Proofs.Cpp.Path
import Mathlib.Data.List.Lex

/-!
# All overloads of a function

The search for all declarations of a function finds them in the order of the
source, each once. `Below` says where a node stands in a tree and which nodes are
around it, and `Overload` what it is to declare the function that is asked for:
functions, members and templates of functions do, by the last part of their name
and the scopes in front of it.
-/

namespace Excerpt.Cpp

open Node List Option Outcome Token

variable {src : Bytes} {cs : List Char} {t : Target}

/-- The node `m` stands at `place` below `n`, and the nodes on the way are `above`. -/
inductive Below : Node → Place → List Node → Node → Prop where
  | here (n : Node) : Below n [] [] n
  | child {n c m : Node} {i : Nat} {place : Place} {above : List Node}
      (hchild : n.children[i]? = some c) (h : Below c place above m) :
      Below n (i :: place) (n :: above) m

/-- A class without a name. -/
def Unnamed (n : Node) : Prop :=
  n.kind ∈ memberKinds ∧ n.childOf? ["type_identifier"] = none

/-- The search looks at what is below the node. -/
def Entered (n : Node) : Prop :=
  n.kind ≠ "template_declaration" ∧ ¬ Unnamed n

/-- The name is the one asked for, if it stands within the scopes `path`. -/
def Fits (src : Bytes) (t : Target) (path : List String) (name : Node) : Prop :=
  (parts src name).getLast? = some t.leaf ∧ t.qualifiers <:+ scopeOf src path name

/-- The node `m` stands for the function or the member `d`: it is `d` itself, or the
template that `d` is the function of. -/
inductive Represents : Node → Node → Prop where
  | function {d : Node} (hkind : d.kind = "function_definition") : Represents d d
  | member {d declarator : Node} (hkind : d.kind = "field_declaration")
      (hdeclarator : d.field? "declarator" = some declarator)
      (hfunction : declarator.kind = "function_declarator") : Represents d d
  | template {m d : Node} (hkind : m.kind = "template_declaration") (hd : d ∈ m.children)
      (hfunction : d.kind = "function_definition") : Represents m d

/-- The node declares the function that is asked for, if it stands within the scopes
`path`. -/
def Overload (src : Bytes) (t : Target) (path : List String) (m : Node) : Prop :=
  ∃ d name, Represents m d ∧ nameOfFunction? d = some name ∧ Fits src t path name

/-- The scopes that nodes open, one within the other, as the search takes them. -/
def writtenPath (src : Bytes) (above : List Node) : List String :=
  above.flatMap (writtenNames src)

/-- The node `m` at `place` below `n` is an overload, if `n` stands within `scope`. -/
def Hit (src : Bytes) (t : Target) (scope : List String) (n : Node) (place : Place) (m : Node) :
    Prop :=
  ∃ above, Below n place above m ∧ (∀ a ∈ above, Entered a) ∧
    Overload src t (scope ++ writtenPath src above) m

section Declares

variable {d name : Node} {scope : List String}

theorem name_of_declarator {T : List Token} (hwf : d.WellFormed src) (h : Every (Legible T) d)
    (hna : (functionDeclarator? d).bind (·.field? "declarator") = some name) :
    name.WellFormed src ∧ name.kind ∈ nameKinds ∧ Every (Spelt T) name := by
  obtain ⟨f, hf, hfi⟩ := bind_eq_some_iff.1 hna
  obtain ⟨hl, hk⟩ := functionDeclarator?_every h hf
  have hw : f.WellFormed src := (functionDeclarator?_every hwf hf).1
  obtain ⟨first, params, hc, hfields, hn, -⟩ := hw.form.functionDeclarator_cases hk
  have heq : first = name := by
    rw [Node.field?, hfields, hc] at hfi
    exact some.inj hfi
  subst heq
  exact ⟨hw.child first (by rw [hc]; simp), hn,
    hl.here.named hk first (by rw [hc]; rfl)⟩

/-- A name without template arguments is compared as it is. -/
theorem declares_eq {template : Bool} {found : PlainName}
    (hn : plainName src scope d = .ok found) (ha : '<' ∉ found.leaf.toList) :
    declares t src scope template d = .ok (found.leaf == t.leaf && t.fits found.scope) := by
  have hl : (found.leaf == t.leaf || (template && baseName found.leaf == t.leaf)) =
      (found.leaf == t.leaf) := by
    rw [baseName_of_not_mem ha]
    cases template <;> simp
  rw [declares, hn, ← hl]
  rfl

theorem exists_declares (scope : List String) (hsrc : Utf8.Spells src cs)
    (hl : t.leaf ≠ "") (template : Bool)
    (hwf : d.WellFormed src) (h : Every (Legible (scan src)) d) :
    ∃ b, declares t src scope template d = .ok b ∧
      (b ↔ ∃ name, (functionDeclarator? d).bind (·.field? "declarator") = some name ∧
        Fits src t scope name) := by
  have hem : plainName src scope d = .ok ⟨"", []⟩ →
      declares t src scope template d = .ok false := by
    intro hn
    rw [declares_eq hn (by decide), beq_eq_false_iff_ne.2 (Ne.symm hl), Bool.false_and]
  cases hn : (functionDeclarator? d).bind (·.field? "declarator") with
  | none =>
    refine ⟨false, hem ?_, by simp⟩
    simp only [plainName, hn]
    rfl
  | some name =>
    obtain ⟨hw, hk, hsp⟩ := name_of_declarator hwf h hn
    have ha := angle_not_mem_parts hsrc hw hk hsp
    rcases plainName_eq hsrc hn hw hk hsp with ⟨hnil, hpl⟩ | hpl
    · refine ⟨false, hem hpl, ?_⟩
      simp [Fits, hnil]
    · have hla : '<' ∉ ((parts src name).getLastD "").toList := by
        rw [getLastD_eq_getLast?]
        cases hp : (parts src name).getLast? with
        | none => decide
        | some s => exact ha s (mem_of_getLast? hp)
      refine ⟨_, declares_eq hpl hla, ?_⟩
      rw [Bool.and_eq_true, beq_iff_eq, Target.fits, isSuffixOf_iff_suffix, getLastD_eq_getLast?]
      constructor
      · rintro ⟨hp, hs⟩
        refine ⟨name, rfl, ?_, hs⟩
        cases hso : (parts src name).getLast? with
        | none =>
          rw [hso] at hp
          exact absurd hp.symm hl
        | some s =>
          rw [hso] at hp
          rw [← hp]
          rfl
      · rintro ⟨name', hn', hp, hs⟩
        cases hn'
        exact ⟨by rw [hp]; rfl, hs⟩

variable {n : Node}

theorem nameOfFunction?_eq {declarator : Node} (h : n.field? "declarator" = some declarator) :
    nameOfFunction? n = (functionDeclarator? declarator).bind (·.field? "declarator") := by
  rw [nameOfFunction?, h, bind_some]

/-- A node other than a template stands for itself only, if it is a function or a member. -/
theorem overload_iff_of_not_template (hki : n.kind ≠ "template_declaration") :
    Overload src t scope n ↔ Represents n n ∧ ∃ name, nameOfFunction? n = some name ∧ Fits src t scope name := by
  constructor
  · rintro ⟨d, name, hs, hn, hf⟩
    cases hs with
    | function hk => exact ⟨.function hk, name, hn, hf⟩
    | member hk hd hfu => exact ⟨.member hk hd hfu, name, hn, hf⟩
    | template hk => exact absurd hk hki
  · rintro ⟨hs, name, hn, hf⟩
    exact ⟨n, name, hs, hn, hf⟩

/-- A node other than a template is an overload if it is found to be one. -/
theorem exists_isOverload (scope : List String) (hsrc : Utf8.Spells src cs) (hl : t.leaf ≠ "")
    (hwf : n.WellFormed src) (h : Every (Legible (scan src)) n)
    (hki : n.kind ≠ "template_declaration") :
    ∃ b, isOverload t src scope n = .ok b ∧ (b ↔ Overload src t scope n) := by
  rw [overload_iff_of_not_template hki]
  cases hf : n.field? "declarator" with
  | none =>
    have hn : nameOfFunction? n = none := by rw [nameOfFunction?, hf]; rfl
    exact ⟨false, by rw [isOverload, hf]; rfl, by simp [hn]⟩
  | some declarator =>
    obtain ⟨b, hb, hiff⟩ := exists_declares scope hsrc hl false (hwf.field hf) (h.field hf)
    rw [← nameOfFunction?_eq hf] at hiff
    by_cases hfu : n.kind = "function_definition"
    · exact ⟨b, by rw [isOverload, hf]; simpa [hfu] using hb,
        hiff.trans (and_iff_right (.function hfu)).symm⟩
    by_cases hm : n.kind = "field_declaration" ∧ declarator.kind = "function_declarator"
    · exact ⟨b, by rw [isOverload, hf]; simpa [hm] using hb,
        hiff.trans (and_iff_right (.member hm.1 hf hm.2)).symm⟩
    · refine ⟨false, ?_, ?_⟩
      · rw [isOverload, hf]
        have hnot : (n.kind == "field_declaration" &&
            declarator.kind == "function_declarator") = false := by
          rw [← Bool.not_eq_true, Bool.and_eq_true, beq_iff_eq, beq_iff_eq]
          exact hm
        simp only [beq_eq_false_iff_ne.2 hfu, hnot]
        rfl
      · simp only [Bool.false_eq_true, false_iff]
        rintro ⟨hs, -⟩
        cases hs with
        | function hk => exact hfu hk
        | member hk hde hd =>
          cases hf.symm.trans hde
          exact hm ⟨hk, hd⟩
        | template hk => exact absurd hk hki

theorem overload_iff_of_template (hki : n.kind = "template_declaration") :
    Overload src t scope n ↔ ∃ d ∈ n.children, d.kind = "function_definition" ∧
      ∃ name, nameOfFunction? d = some name ∧ Fits src t scope name := by
  constructor
  · rintro ⟨d, name, hs, hn, hf⟩
    cases hs with
    | function hk => exact absurd (hki.symm.trans hk) (by decide)
    | member hk => exact absurd (hki.symm.trans hk) (by decide)
    | template _ hmem hk => exact ⟨d, hmem, hk, name, hn, hf⟩
  · rintro ⟨d, hmem, hk, name, hn, hf⟩
    exact ⟨d, name, .template hki hmem hk, hn, hf⟩

theorem exists_templateHits (scope : List String) (hsrc : Utf8.Spells src cs)
    (hl : t.leaf ≠ "") (hwf : n.WellFormed src) (h : Every (Legible (scan src)) n)
    (hk : n.kind = "template_declaration") :
    ∃ b : Bool, templateHits t src scope n.children = .ok (if b then 1 else 0) ∧
      (b ↔ Overload src t scope n) := by
  rw [overload_iff_of_template hk]
  obtain ⟨item, hit⟩ := hwf.form.children_of_single (by rw [hk]; decide)
  cases item with
  | none => exact ⟨false, by rw [hit]; rfl, by simp [hit]⟩
  | some c =>
    rw [toList_some] at hit
    have hc : c ∈ n.children := by rw [hit]; simp
    simp only [hit, mem_singleton, exists_eq_left]
    by_cases hf : c.kind = "function_definition"
    · obtain ⟨declarator, body, hch, hfields⟩ :=
        (hwf.child c hc).form.functionDefinition_cases hf
      have hfi : c.field? "declarator" = some declarator := by
        rw [Node.field?, hfields, hch]
        rfl
      obtain ⟨b, hb, hiff⟩ := exists_declares scope hsrc hl true
        ((hwf.child c hc).field hfi) ((h.child c hc).field hfi)
      rw [← nameOfFunction?_eq hfi] at hiff
      refine ⟨b, ?_, hiff.trans (and_iff_right hf).symm⟩
      rw [templateHits, if_pos (beq_iff_eq.2 hf), hfi]
      simp only [hb]
      cases b <;> rfl
    · refine ⟨false, ?_, by simp [hf]⟩
      rw [templateHits, if_neg (by simpa using hf)]
      rfl

end Declares

/-- A search gives exactly the nodes that `H` names, in the order of their places. -/
def Gives (o : Except Failure (List Node)) (H : Place → Node → Prop) : Prop :=
  ∃ hits : List (Place × Node), o = .ok (hits.map Prod.snd) ∧
    hits.Pairwise (·.1 < ·.1) ∧ ∀ place m, (place, m) ∈ hits ↔ H place m

section Gives

variable {o : Except Failure (List Node)} {H H' : Place → Node → Prop} {n m : Node} {scope : List String}
  {ns : List Node} {place : Place}

theorem Gives.congr (h : Gives o H) (hH : ∀ place m, H place m ↔ H' place m) : Gives o H' := by
  obtain ⟨hits, ho, hs, hmem⟩ := h
  exact ⟨hits, ho, hs, fun place m => (hmem place m).trans (hH place m)⟩

theorem gives_nil (hH : ∀ place m, ¬ H place m) : Gives (.ok []) H :=
  ⟨[], rfl, .nil, fun place m => by simp [hH]⟩

/-- The hits among nodes, the first of which is the child number `i`. -/
def HitAmong (src : Bytes) (t : Target) (scope : List String) (i : Nat) (ns : List Node)
    (place : Place) (m : Node) : Prop :=
  ∃ j c rest, place = (i + j) :: rest ∧ ns[j]? = some c ∧ Hit src t scope c rest m

theorem hitAmong_cons {i : Nat} :
    HitAmong src t scope i (n :: ns) place m ↔ (∃ rest, place = i :: rest ∧ Hit src t scope n rest m) ∨
        HitAmong src t scope (i + 1) ns place m := by
  constructor
  · rintro ⟨j, c, rest, hp, hc, hhit⟩
    cases j with
    | zero =>
      cases hc
      exact .inl ⟨rest, hp, hhit⟩
    | succ j => exact .inr ⟨j, c, rest, by rw [hp, Nat.add_right_comm, Nat.add_assoc], hc, hhit⟩
  · rintro (⟨rest, hp, hhit⟩ | ⟨j, c, rest, hp, hc, hhit⟩)
    · exact ⟨0, n, rest, hp, rfl, hhit⟩
    · exact ⟨j + 1, c, rest, by rw [hp, Nat.add_right_comm, Nat.add_assoc], hc, hhit⟩

theorem gives_among
    (h : ∀ c ∈ ns, Gives (collect true t src scope c) (Hit src t scope c)) (i : Nat) :
    Gives (collectAmong true t src scope ns) (HitAmong src t scope i ns) := by
  induction ns generalizing i with
  | nil =>
    rw [collectAmong]
    refine gives_nil ?_
    rintro place m ⟨j, c, rest, -, hc, -⟩
    cases hc
  | cons n ns ih =>
    rw [forall_mem_cons] at h
    obtain ⟨here, ho, hs, hmem⟩ := h.1
    obtain ⟨more, ho', hs', hmem'⟩ := ih h.2 (i + 1)
    refine ⟨here.map (fun hit => (i :: hit.1, hit.2)) ++ more, ?_, ?_, ?_⟩
    · rw [collectAmong, ho, ho', map_append, List.map_map]
      rfl
    · rw [pairwise_append]
      refine ⟨?_, hs', ?_⟩
      · rw [pairwise_map]
        exact hs.imp fun hlt => cons_lt_cons_iff.2 (.inr ⟨rfl, hlt⟩)
      · intro a ha b hb
        obtain ⟨hit, -, rfl⟩ := List.mem_map.1 ha
        obtain ⟨j, c, rest, hp, -, -⟩ := (hmem' b.1 b.2).1 hb
        rw [hp]
        exact cons_lt_cons_iff.2 (.inl (by omega))
    · intro place m
      rw [hitAmong_cons, mem_append, hmem' place m, List.mem_map]
      refine or_congr_left ⟨?_, ?_⟩
      · rintro ⟨hit, hhit, heq⟩
        cases heq
        exact ⟨hit.1, rfl, (hmem hit.1 hit.2).1 hhit⟩
      · rintro ⟨rest, rfl, hhit⟩
        exact ⟨(rest, m), (hmem rest m).2 hhit, rfl⟩

theorem hit_iff : Hit src t scope n place m ↔
      (place = [] ∧ m = n ∧ Overload src t scope n) ∨
        (Entered n ∧ HitAmong src t (scope ++ writtenNames src n) 0 n.children place m) := by
  constructor
  · rintro ⟨above, hb, hen, ho⟩
    cases hb with
    | here =>
      rw [writtenPath, flatMap_nil, append_nil] at ho
      exact .inl ⟨rfl, rfl, ho⟩
    | @child _ c _ i rest above hch hb =>
      rw [forall_mem_cons] at hen
      refine .inr ⟨hen.1, i, c, rest, by rw [Nat.zero_add], hch, above, hb, hen.2, ?_⟩
      rwa [writtenPath, flatMap_cons, ← append_assoc] at ho
  · rintro (⟨rfl, rfl, ho⟩ | ⟨hn, j, c, rest, rfl, hc, above, hb, hen, ho⟩)
    · refine ⟨[], .here m, by simp, ?_⟩
      rwa [writtenPath, flatMap_nil, append_nil]
    · rw [Nat.zero_add]
      refine ⟨n :: above, .child hc hb, forall_mem_cons.2 ⟨hn, hen⟩, ?_⟩
      rwa [writtenPath, flatMap_cons, ← append_assoc]

theorem gives_node {b : Bool} {inside : Except Failure (List Node)} (hen : Entered n)
    (hb : b ↔ Overload src t scope n)
    (h : Gives inside (HitAmong src t (scope ++ writtenNames src n) 0 n.children)) :
    Gives (do return (if b then [n] else []) ++ (← inside)) (Hit src t scope n) := by
  obtain ⟨hits, rfl, hs, hmem⟩ := h
  refine ⟨(if b then [([], n)] else []) ++ hits, ?_, ?_, ?_⟩
  · cases b <;> rfl
  · rw [pairwise_append]
    refine ⟨by cases b <;> simp, hs, ?_⟩
    intro own hown hit hhit
    obtain ⟨j, c, rest, hp, -, -⟩ := (hmem hit.1 hit.2).1 hhit
    have hnil : own.1 = [] := by
      cases b with
      | true => rw [mem_singleton.1 hown]
      | false => cases hown
    rw [hnil, hp]
    exact nil_lt_cons _ _
  · intro place m
    rw [hit_iff, mem_append, hmem place m, ← hb]
    have hown : (place, m) ∈ (if b then [(([] : Place), n)] else []) ↔
        place = [] ∧ m = n ∧ b := by
      cases b <;> simp
    rw [hown]
    tauto

end Gives

section Collect

variable {n : Node} {scope : List String} {b : Bool} {ns : List Node} {i : Nat}

/-- The kinds of nodes that the search treats in a way of their own. -/
def scopeKinds : List String :=
  "namespace_definition" :: "template_declaration" :: memberKinds

theorem not_scopeKind (h : n.kind ∉ scopeKinds) :
    n.kind ≠ "namespace_definition" ∧ n.kind ≠ "template_declaration" ∧
      n.kind ≠ "class_specifier" ∧ n.kind ≠ "struct_specifier" := by
  simpa [scopeKinds, memberKinds] using h

theorem writtenNames_of_not_scope (h : n.kind ∉ scopeKinds) : writtenNames src n = [] := by
  obtain ⟨hs, -, -, -⟩ := not_scopeKind h
  have hm : n.kind ∉ memberKinds := fun hk =>
    h (mem_cons_of_mem _ (mem_cons_of_mem _ hk))
  rw [writtenNames, if_neg hs, if_neg hm]

theorem entered_of_not_scope (h : n.kind ∉ scopeKinds) : Entered n :=
  ⟨(not_scopeKind h).2.1, fun hu =>
    h (mem_cons_of_mem _ (mem_cons_of_mem _ hu.1))⟩

theorem collect_of_not_scope (h : n.kind ∉ scopeKinds) (hb : isOverload t src scope n = .ok b) :
    collect true t src scope n =
      (do return (if b then [n] else []) ++ (← collectAmong true t src scope n.children)) := by
  obtain ⟨hsp, ht, hc, hs⟩ := not_scopeKind h
  obtain ⟨kind, span, children, fields⟩ := n
  rw [collect, beq_eq_false_iff_ne.2 hsp, beq_eq_false_iff_ne.2 ht,
    beq_eq_false_iff_ne.2 hc, beq_eq_false_iff_ne.2 hs]
  simp only [Bool.false_eq_true, if_false, Bool.or_false, if_true, hb]
  rfl

def lookedKinds : List String :=
  scopeKinds ++ ["function_definition", "field_declaration"]

/-- A node that is not looked at gives what is below it. -/
theorem collect_of_not_looked (h : n.kind ∉ lookedKinds) :
    collect true t src scope n = collectAmong true t src scope n.children := by
  have hs : n.kind ∉ scopeKinds := fun hk => h (mem_append_left _ hk)
  have hnot : n.kind ≠ "function_definition" ∧ n.kind ≠ "field_declaration" := by
    constructor
    · intro hk
      exact h (by rw [hk]; decide)
    · intro hk
      exact h (by rw [hk]; decide)
  have hb : isOverload t src scope n = .ok false := by
    rw [isOverload]
    split
    · rfl
    · simp only [beq_eq_false_iff_ne.2 hnot.1, beq_eq_false_iff_ne.2 hnot.2]
      rfl
  rw [collect_of_not_scope hs hb]
  cases collectAmong true t src scope n.children with
  | error e => rfl
  | ok hits => rfl

theorem collect_of_flat (hwf : n.WellFormed src) (hf : n.kind ∈ flatKinds) :
    collect true t src scope n = .ok [] := by
  have hnot : ∀ k ∈ flatKinds, k ∉ lookedKinds := by decide
  rw [collect_of_not_looked (hnot _ hf), hwf.form.children_of_flat hf, collectAmong]
  rfl

theorem collectAmong_cons_of_nil (h : collect true t src scope n = .ok []) :
    collectAmong true t src scope (n :: ns) = collectAmong true t src scope ns := by
  rw [collectAmong, h]
  cases collectAmong true t src scope ns with
  | error e => rfl
  | ok hits => rfl

theorem collectAmong_singleton : collectAmong true t src scope [n] = collect true t src scope n := by
  rw [collectAmong, collectAmong]
  cases collect true t src scope n with
  | error e => rfl
  | ok hits => exact congrArg Except.ok (append_nil hits)

theorem collect_eq_inBody {names : List String} (hk : n.kind = "namespace_definition")
    (hn : namespaceNames src n = .ok names) (hb : n.fields.lookup "body" = some i) :
    collect true t src scope n = collectInBody true t src (scope ++ names) i n.children := by
  obtain ⟨kind, span, children, fields⟩ := n
  subst hk
  rw [collect, beq_self_eq_true]
  simp only [if_true, hn, hb]
  rfl

theorem collectInBody_succ :
    collectInBody true t src scope (i + 1) (n :: ns) = collectInBody true t src scope i ns := by
  obtain ⟨kind, span, children, fields⟩ := n
  rw [collectInBody]

theorem collectInBody_zero (hk : n.kind = "declaration_list") :
    collectInBody true t src scope 0 [n] = collectAmong true t src scope [n] := by
  rw [collectAmong_singleton, collect_of_not_looked (by rw [hk]; decide)]
  obtain ⟨kind, span, children, fields⟩ := n
  dsimp only at hk
  rw [collectInBody, hk]
  rfl

/-- A namespace gives what is below it, within the scopes it opens. -/
theorem collect_of_space (hsrc : Utf8.Spells src cs) (hwf : n.WellFormed src)
    (hn : Legible (scan src) n) (hk : n.kind = "namespace_definition") : collect true t src scope n =
      collectAmong true t src (scope ++ writtenNames src n) n.children := by
  have hnames := namespaceNames_eq hsrc hwf hn hk
  rcases hwf.form.space_cases hk with ⟨body, hcs, hf, hki⟩ | ⟨name, body, hcs, hf, hki, hna⟩
  · have hl : n.fields.lookup "body" = some 0 := by rw [hf]; rfl
    rw [collect_eq_inBody hk hnames hl, hcs, collectInBody_zero hki]
  · have hl : n.fields.lookup "body" = some 1 := by rw [hf]; rfl
    have hfl : name.kind ∈ flatKinds := by
      rcases hna with hna | hna
      · rw [hna]; decide
      · rw [hna]; decide
    have hnil : collect true t src (scope ++ writtenNames src n) name = .ok [] :=
      collect_of_flat (hwf.child name (by rw [hcs]; simp)) hfl
    rw [collect_eq_inBody hk hnames hl, hcs, collectInBody_succ, collectInBody_zero hki,
      collectAmong_cons_of_nil hnil]

theorem collect_eq_inRecord {name : Option String} (hk : n.kind ∈ memberKinds)
    (hn : recordName? src n = .ok name) : collect true t src scope n = match name.filter (!·.isEmpty) with
      | some name => collectInRecord true t src (scope ++ [name]) n.children | none => .ok [] := by
  have hki : n.kind = "class_specifier" ∨ n.kind = "struct_specifier" := by
    simpa [memberKinds] using hk
  obtain ⟨kind, span, children, fields⟩ := n
  have hs : (kind == "namespace_definition") = false := by
    rcases hki with rfl | rfl
    · decide
    · decide
  have hc : (kind == "class_specifier" || kind == "struct_specifier") := by
    rcases hki with rfl | rfl
    · decide
    · decide
  rw [collect, hs, hc]
  simp only [Bool.false_eq_true, if_false, if_true, hn]
  rfl

theorem collectInRecord_eq {name body : Option Node}
    (hn : ∀ c ∈ name, c.WellFormed src ∧ c.kind = "type_identifier")
    (hb : ∀ c ∈ body, c.kind = "field_declaration_list") :
    collectInRecord true t src scope (name.toList ++ body.toList) =
      collectAmong true t src scope (name.toList ++ body.toList) := by
  have hl : collectInRecord true t src scope body.toList =
      collectAmong true t src scope body.toList := by
    cases body with
    | none => rw [toList_none, collectInRecord, collectAmong]
    | some c =>
      have hk := hb c rfl
      rw [toList_some, collectAmong_singleton, collect_of_not_looked (by rw [hk]; decide)]
      obtain ⟨kind, span, children, fields⟩ := c
      dsimp only at hk
      rw [collectInRecord, collectInRecord, hk]
      cases collectAmong true t src scope children with
      | error e => rfl
      | ok hits => exact congrArg Except.ok (append_nil hits)
  cases name with
  | none => exact hl
  | some c =>
    obtain ⟨hwf, hk⟩ := hn c rfl
    have hnil : collect true t src scope c = .ok [] := collect_of_flat hwf (by rw [hk]; decide)
    rw [toList_some, singleton_append, collectAmong_cons_of_nil hnil, ← hl]
    obtain ⟨kind, span, children, fields⟩ := c
    dsimp only at hk
    rw [collectInRecord, hk]
    rfl

/-- A class with a name gives what is below it, within its own scope. -/
theorem collect_of_member (hsrc : Utf8.Spells src cs) (hwf : n.WellFormed src)
    (hn : Legible (scan src) n) (hk : n.kind ∈ memberKinds) (hna : ¬ Unnamed n) :
    collect true t src scope n = collectAmong true t src (scope ++ writtenNames src n) n.children := by
  have hcl : ∀ k ∈ memberKinds, k ∈ classKinds ∧ k ≠ "namespace_definition" := by decide
  obtain ⟨hki, hs⟩ := hcl _ hk
  obtain ⟨hr, hwo⟩ := recordName?_eq hsrc hn hki
  obtain ⟨c, hc⟩ := ne_none_iff_exists'.1 fun hno => hna ⟨hk, hno⟩
  have hw : writtenNames src n = [c.written src] := by
    rw [writtenNames, if_neg hs, if_pos hk, hc]
    rfl
  rw [hc, map_some] at hr
  have hf : (some (c.written src)).filter (!·.isEmpty) = some (c.written src) := by
    simp [Option.filter, (hwo c hc).ne_empty]
  rw [collect_eq_inRecord hk hr, hf, hw]
  obtain ⟨name, body, hcs, hname, -, hb⟩ := hwf.form.record_cases hki
  simp only [hcs]
  refine collectInRecord_eq (fun d hd => ⟨hwf.child d ?_, hname d hd⟩) hb
  rw [hcs]
  exact mem_append_left _ (mem_toList.2 hd)

theorem collect_of_unnamed (hsrc : Utf8.Spells src cs) (hn : Legible (scan src) n)
    (h : Unnamed n) : collect true t src scope n = .ok [] := by
  have hc : ∀ k ∈ memberKinds, k ∈ classKinds := by decide
  obtain ⟨hr, -⟩ := recordName?_eq hsrc hn (hc _ h.1)
  rw [h.2, map_none] at hr
  rw [collect_eq_inRecord h.1 hr]
  rfl

theorem collect_of_template (hk : n.kind = "template_declaration")
    (hb : templateHits t src scope n.children = .ok (if b then 1 else 0)) :
    collect true t src scope n = .ok (if b then [n] else []) := by
  obtain ⟨kind, span, children, fields⟩ := n
  subst hk
  rw [collect]
  have hs : ("template_declaration" == "namespace_definition") = false := by decide
  have hc : ("template_declaration" == "class_specifier" ||
      "template_declaration" == "struct_specifier") = false := by decide
  rw [hs, hc]
  simp only [Bool.false_eq_true, if_false, beq_self_eq_true, if_true, hb]
  cases b <;> rfl

theorem not_overload (h : n.kind = "namespace_definition" ∨ n.kind ∈ memberKinds) :
    ¬ Overload src t scope n := by
  have hnot : ∀ k ∈ "namespace_definition" :: memberKinds, k ≠ "function_definition" ∧
      k ≠ "field_declaration" ∧ k ≠ "template_declaration" := by decide
  obtain ⟨hf, hm, ht⟩ := hnot n.kind (mem_cons.2 h)
  rintro ⟨d, name, hs, -, -⟩
  cases hs with
  | function hk => exact hf hk
  | member hk => exact hm hk
  | template hk => exact ht hk

/-- The search of a tree gives exactly the overloads in it. -/
theorem gives_collect (hsrc : Utf8.Spells src cs) (hle : t.leaf ≠ "") :
    ∀ n : Node, n.WellFormed src → Every (Legible (scan src)) n →
      ∀ scope, Gives (collect true t src scope n) (Hit src t scope n) := by
  refine Node.induction fun n ih hwf hl scope => ?_
  have hbe : ∀ scope, Gives (collectAmong true t src scope n.children)
      (HitAmong src t scope 0 n.children) := fun scope =>
    gives_among (fun c hc => ih c hc (hwf.child c hc) (hl.child c hc) scope) 0
  -- a node that opens scopes is no overload, so it gives what is below it
  have hin : n.kind = "namespace_definition" ∨ n.kind ∈ memberKinds → Entered n →
      Gives (collectAmong true t src (scope ++ writtenNames src n) n.children)
        (Hit src t scope n) := by
    intro hk hen
    refine (hbe (scope ++ writtenNames src n)).congr fun place m => ?_
    rw [hit_iff]
    have hnot : ¬ Overload src t scope n := not_overload hk
    tauto
  by_cases hs : n.kind = "namespace_definition"
  · rw [collect_of_space hsrc hwf hl.here hs]
    refine hin (.inl hs) ⟨?_, fun hu => ?_⟩
    · rw [hs]
      decide
    · rw [Unnamed, hs] at hu
      exact absurd hu.1 (by decide)
  by_cases hm : n.kind ∈ memberKinds
  · by_cases hu : Unnamed n
    · rw [collect_of_unnamed hsrc hl.here hu]
      refine gives_nil fun place m hhit => ?_
      rcases hit_iff.1 hhit with ⟨-, -, ho⟩ | ⟨hen, -⟩
      · exact not_overload (.inr hm) ho
      · exact hen.2 hu
    · rw [collect_of_member hsrc hwf hl.here hm hu]
      refine hin (.inr hm) ⟨?_, hu⟩
      have hnot : ∀ k ∈ memberKinds, k ≠ "template_declaration" := by decide
      exact hnot _ hm
  by_cases ht : n.kind = "template_declaration"
  · obtain ⟨b, hb, hiff⟩ := exists_templateHits scope hsrc hle hwf hl ht
    rw [collect_of_template ht hb]
    refine ⟨if b then [([], n)] else [], ?_, ?_, fun place m => ?_⟩
    · cases b <;> rfl
    · cases b <;> simp
    · have hnot : ¬ Entered n := fun h => h.1 ht
      rw [hit_iff, ← hiff]
      cases b <;> simp [hnot]
  · have hnot : n.kind ∉ scopeKinds := by
      rw [scopeKinds, mem_cons, mem_cons, not_or, not_or]
      exact ⟨hs, ht, hm⟩
    obtain ⟨b, hb, hiff⟩ := exists_isOverload scope hsrc hle hwf hl ht
    rw [collect_of_not_scope hnot hb]
    have hsc : scope ++ writtenNames src n = scope := by
      rw [writtenNames_of_not_scope hnot, append_nil]
    refine gives_node (entered_of_not_scope hnot) hiff ?_
    rw [hsc]
    exact hbe scope

end Collect

theorem Below.every {P : Node → Prop} {n m : Node} {place : Place} {above : List Node}
    (h : Below n place above m) (hn : Every P n) : ∀ a ∈ above, Every P a := by
  induction h with
  | here n => simp
  | child hc _ ih =>
    exact forall_mem_cons.2 ⟨hn, ih (hn.child _ (mem_of_getElem? hc))⟩

/-- All declarations of a function, in the order of the source: exactly the functions,
members and templates of functions that do not stand in a template or in a class
without a name, whose last part is the name asked for, and whose own qualifiers, or
else the scopes around them, end with the qualifiers asked for. The scopes around are
taken as they are written; these are their names if the names of namespaces are
written without blanks. -/
theorem findAll_exact {text name : String} {root : Node} (htext : Utf8.decode src = .ok text)
    (hcpp : Dialect.guess src = .cpp) (hroot : Node.parse src = .ok root)
    (hleaf : (Target.ofString name).leaf ≠ "") :
    ∃ hits : List (Place × Node),
      findAll src root name ["function_definition"] = .ok (hits.map Prod.snd) ∧
      hits.Pairwise (·.1 < ·.1) ∧
      (∀ place m, (place, m) ∈ hits ↔ ∃ above, Below root place above m ∧
        (∀ a ∈ above, Entered a) ∧
        Overload src (Target.ofString name) (above.flatMap (writtenNames src)) m) ∧
      ∀ place above m, Below root place above m → (∀ a ∈ above, Tight src a) →
        above.flatMap (writtenNames src) = above.flatMap (openedNames src) := by
  have hsrc := Utf8.spells_of_decode htext
  have hwf := Node.parse_wellFormed hroot
  have hlegible := Node.legible_of_parse hcpp hroot
  obtain ⟨hits, hfind, hsorted, hmem⟩ := gives_collect hsrc hleaf root hwf hlegible []
  refine ⟨hits, hfind, hsorted, hmem, ?_⟩
  intro place above m hbelow htight
  refine flatMap_congr fun a ha => ?_
  exact writtenNames_of_tight hsrc (hbelow.every hwf a ha) (hbelow.every hlegible a ha).here (htight a ha)

/-- Of three declarations of `a::b::f`, the one whose namespace is written with blanks
is not found. -/
theorem findAll_exact_blank :
    let src := Bytes.ofString ("namespace a :: b \x7b void f() \x7b\x7d \x7d " ++
      "namespace a::b \x7b template<class T> void f(T t) \x7b\x7d void f(); \x7d")
    ∃ (root : Node) (hits : List (Place × Node)), Node.parse src = .ok root ∧
      findAll src root "a::b::f" ["function_definition"] = .ok (hits.map Prod.snd) ∧
      (hits.map Prod.snd).map (·.kind) = ["template_declaration", "field_declaration"] ∧
      ∃ above m, Below root [0, 1, 1] above m ∧ m.kind = "function_definition" ∧
        above.flatMap (openedNames src) = ["a", "b"] ∧
        ¬ Overload src (Target.ofString "a::b::f") (above.flatMap (writtenNames src)) m := by
  intro src
  have hrun : (do
      let root ← (Node.parse src).toOption
      let all ← (findAll src root "a::b::f" ["function_definition"]).toOption
      let space ← root.children[0]?
      let body ← space.children[1]?
      let m ← body.children[1]?
      return (all.map (·.kind), m.kind, [root, space, body].flatMap (openedNames src),
        [root, space, body].all fun a => a.kind ∉ "template_declaration" :: memberKinds)) =
      some (["template_declaration", "field_declaration"], "function_definition", ["a", "b"],
        true) := by
    decide +kernel
  simp only [bind, pure, bind_eq_some_iff, toOption_eq_some, some.injEq, Prod.mk.injEq] at hrun
  obtain ⟨root, hparse, all, hall, space, hspace, body, hbody, m, hm, hkinds, hkind, hopened, hentered⟩ :=
    hrun
  obtain ⟨hits, hfind, -, hmem, -⟩ := findAll_exact (Utf8.decode_ofString _) (by decide) hparse
    (by decide : (Target.ofString "a::b::f").leaf ≠ "")
  have hbelow : Below root [0, 1, 1] [root, space, body] m :=
    .child hspace (.child hbody (.child hm (.here m)))
  cases hall.symm.trans hfind
  refine ⟨root, hits, hparse, hfind, hkinds, _, m, hbelow, hkind, hopened, fun hoverload => ?_⟩
  have hhit := (hmem [0, 1, 1] m).2 ⟨_, hbelow, ?_, hoverload⟩
  · have hfound := List.mem_map_of_mem (f := (·.kind)) (List.mem_map_of_mem (f := Prod.snd) hhit)
    rw [hkinds, hkind] at hfound
    exact absurd hfound (by decide)
  · intro a ha
    have hnot := of_decide_eq_true (List.all_eq_true.1 hentered a ha)
    rw [mem_cons, not_or] at hnot
    exact ⟨hnot.1, fun hunnamed => hnot.2 hunnamed.1⟩

end Excerpt.Cpp
