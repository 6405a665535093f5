import Excerpt.Proofs.Cpp.Name
import Excerpt.Proofs.Cpp.Visit

/-!
# Declarations and their scopes

A declaration lies in the scope that its own name spells, if that is a qualified
name, and otherwise in the scopes around it. A declaration that the search
accepts is judged by one of the two: by the qualifiers in its name, whatever
scope the search carries, or else by the scope that the search carries.
-/

namespace Excerpt.Cpp

open Node List Option Outcome

variable {src : Bytes} {w : Wanted} {n d declarator name : Node} {qualifiers scope : List String}
  {P : Node → Prop}

def nameOfFunction? (n : Node) : Option Node :=
  ((n.field? "declarator").bind functionDeclarator?).bind (·.field? "declarator")

/-- The name in the declarator of a variable, which may be an array or a pointer. -/
def nameOfVariable? (n : Node) : Option Node := do
  let declarator ← n.childOf? ["init_declarator"]
  let inner ← declarator.children.head?
  if inner.kind == "array_declarator" || inner.kind == "pointer_declarator" then
    inner.children.head?
  else some inner

/-- The name in the declarator of a declaration; that of a template is the one of
its function. A class has no declarator. -/
def declaredName? (n : Node) : Option Node :=
  if n.kind == "template_declaration" then
    (n.childOf? ["function_definition"]).bind nameOfFunction?
  else if n.kind == "function_definition" || n.kind == "field_declaration" then nameOfFunction? n
  else if n.kind == "declaration" then nameOfVariable? n
  else none

/-- The scope of a declaration that stands within the scopes `around`: the qualifiers
that are written in its own name if that is qualified, and otherwise `around`. -/
def realScope (src : Bytes) (around : List String) (n : Node) : Except Failure (List String) :=
  match declaredName? n with
  | some name =>
    if name.kind == "qualified_identifier" then writtenQualifiers src name else return around
  | none => return around

/-- Whether the scope ends with the qualifiers, template arguments ignored. -/
def EndsWith (scope qualifiers : List String) : Prop :=
  qualifiers.map baseName <:+ scope.map baseName

instance (scope qualifiers : List String) : Decidable (EndsWith scope qualifiers) :=
  inferInstanceAs (Decidable (_ <:+ _))

theorem EndsWith.of_suffix (h : qualifiers <:+ scope) :
    EndsWith scope qualifiers :=
  h.map baseName

theorem EndsWith.concat {name leaf : String}
    (h : EndsWith scope qualifiers) (hna : baseName name = baseName leaf) :
    EndsWith (scope ++ [name]) (qualifiers ++ [leaf]) := by
  obtain ⟨before, hb⟩ := h
  refine ⟨before, ?_⟩
  rw [map_append, map_append, ← append_assoc, hb, map_singleton, map_singleton, hna]

namespace Wanted

variable {names qs : List String} {ps : List Part}

theorem partFits_eq_true {p : Part} {q : String} (h : partFits p q = .ok true) : StandsFor p q := by
  cases p with
  | none => cases h
  | some s =>
    have hf : (s == q || baseName s == baseName q) := Except.ok.inj h
    rw [Bool.or_eq_true, beq_iff_eq, beq_iff_eq] at hf
    rcases hf with rfl | hf
    · exact ⟨s, rfl, rfl⟩
    · exact ⟨s, rfl, hf⟩

theorem partsFit_eq_true (h : partsFit ps qs = .ok true)
    (hlen : ps.length = qs.length) : List.Forall₂ StandsFor ps qs := by
  induction ps generalizing qs with
  | nil =>
    cases qs with
    | nil => exact .nil
    | cons q qs => cases hlen
  | cons p ps ih =>
    cases qs with
    | nil => cases hlen
    | cons q qs =>
      rw [partsFit] at h
      obtain ⟨fits, hf, h⟩ := Outcome.bind_eq_ok.1 h
      cases fits with
      | true => exact .cons (partFits_eq_true hf) (ih h (Nat.succ.inj hlen))
      | false => cases h

theorem partsFit_self (qs : List String) : partsFit (qs.map some) qs = .ok true := by
  induction qs with
  | nil => rfl
  | cons q qs ih =>
    have hf : partFits (some q) q = .ok true := by
      rw [partFits, beq_self_eq_true, Bool.true_or]
    rw [map_cons, partsFit, hf]
    exact ih

theorem map_baseName_eq
    (hna : List.Forall₂ StandsFor ps names) (hqs : List.Forall₂ StandsFor ps qs) :
    qs.map baseName = names.map baseName := by
  induction hna generalizing qs with
  | nil =>
    cases hqs
    rfl
  | cons hname _ ih =>
    cases hqs with
    | cons hq hr =>
      obtain ⟨s, rfl, hs⟩ := hname
      obtain ⟨t, ht, htq⟩ := hq
      cases ht
      rw [map_cons, map_cons, ih hr, ← hs, htq]

/-- Parts that stand for names, up to template arguments, fit only if the names do. -/
theorem scopeFits_eq_true (hna : List.Forall₂ StandsFor ps names)
    (h : w.scopeFits ps = .ok true) : EndsWith names w.target.qualifiers := by
  rw [scopeFits] at h
  split at h
  · cases h
  · next hlen =>
      have hdr : (ps.drop (ps.length - w.target.qualifiers.length)).length =
          w.target.qualifiers.length := by
        rw [length_drop]
        omega
      have hf := partsFit_eq_true h hdr
      have hmap := map_baseName_eq (forall₂_drop _ hna) hf
      rw [EndsWith, hmap, map_drop]
      exact drop_suffix _ _

/-- The last part is the leaf and the others fit: so do the names that the parts stand for. -/
theorem endsWith_of_cut {parts : List Part} (hne : parts ≠ [])
    (hna : List.Forall₂ StandsFor parts names) (h : w.scopeFits parts.dropLast = .ok true)
    (hl : (parts.getLast?.join == some w.target.leaf ||
      parts.getLast?.join.map baseName == some w.target.leaf)) :
    EndsWith names (w.target.qualifiers ++ [w.target.leaf]) := by
  obtain ⟨ps, p, rfl⟩ := (eq_nil_or_concat' parts).resolve_left hne
  obtain ⟨before, _, rfl, hb, hlast⟩ := exists_of_forall₂_append hna
  obtain ⟨_, _, ⟨s, rfl, hs⟩, ⟨⟩, rfl⟩ := forall₂_cons_left_iff.1 hlast
  rw [dropLast_concat] at h
  refine (scopeFits_eq_true hb h).concat ?_
  rw [getLast?_concat, join_some, map_some, Bool.or_eq_true, beq_iff_eq,
    beq_iff_eq, some.injEq, some.injEq] at hl
  rcases hl with rfl | hl
  · exact hs.symm
  · rw [← hl, baseName_baseName, hs]

theorem scopeFits_of_suffix {around : List String} (h : w.target.qualifiers <:+ around) :
    w.scopeFits (around.map some) = .ok true := by
  obtain ⟨before, rfl⟩ := h
  have hlen : ¬ ((before ++ w.target.qualifiers).map some).length < w.target.qualifiers.length := by
    simp
  have hdr : ((before ++ w.target.qualifiers).map some).drop
      (((before ++ w.target.qualifiers).map some).length - w.target.qualifiers.length) =
        w.target.qualifiers.map some := by
    simp
  rw [scopeFits, if_neg hlen, hdr]
  exact partsFit_self _

end Wanted

theorem forall₂_map_some (names : List String) : List.Forall₂ StandsFor (names.map some) names := by
  induction names with
  | nil => exact .nil
  | cons name names ih => exact .cons ⟨name, rfl, rfl⟩ ih

/-- The full reading of a name that is not qualified takes the scope as it is. -/
theorem fullName_of_unqualified
    (hd : ∀ n, d.field? "declarator" = some n → n.kind ≠ "qualified_identifier") :
    (∃ leaf : Except Failure String, ∀ scope,
        fullName src scope d = (do return ⟨some (← leaf), scope.map some⟩)) ∨
      ∀ scope, fullName src scope d = .ok ⟨none, []⟩ := by
  cases hf : d.field? "declarator" with
  | some n =>
    have hne := beq_eq_false_iff_ne.2 (hd n hf)
    by_cases hna : (n.kind == "identifier" || n.kind == "field_identifier")
    · exact .inl ⟨n.text? src, fun scope => by simp only [fullName, hf, hne, hna]; rfl⟩
    rw [Bool.not_eq_true] at hna
    by_cases ho : (n.kind == "operator_name")
    · exact .inl ⟨operatorName src n, fun scope => by
        simp only [fullName, hf, hne, hna, ho]; rfl⟩
    rw [Bool.not_eq_true] at ho
    by_cases ht : (n.kind == "template_function")
    · exact .inl ⟨templateFunction src n, fun scope => by
        simp only [fullName, hf, hne, hna, ho, ht]; rfl⟩
    rw [Bool.not_eq_true] at ht
    exact .inr fun scope => by
      simp only [fullName, hf, hne, hna, ho, ht]; rfl
  | none =>
    cases hc : d.childOf? ["field_identifier", "operator_name"] with
    | none => exact .inr fun scope => by simp only [fullName, hf, hc]; rfl
    | some n =>
      by_cases hna : (n.kind == "field_identifier")
      · exact .inl ⟨n.text? src, fun scope => by
          simp only [fullName, hf, hc, hna]; rfl⟩
      · rw [Bool.not_eq_true] at hna
        exact .inl ⟨operatorName src n, fun scope => by
          simp only [fullName, hf, hc, hna]; rfl⟩

theorem fullName_of_qualified (hd : d.field? "declarator" = some n)
    (hn : n.kind = "qualified_identifier") (scope : List String) : fullName src scope d = (do
      let parts ← qualifiedParts src some (templateType src) n.children
      return ⟨parts.getLast?.join, parts.dropLast⟩) := by
  simp only [fullName, hd, hn]
  rfl

/-- The plain reading of a name that is not qualified takes the scope as it is, or
finds no name. -/
theorem plainName_of_unqualified
    (hd : ∀ n, (functionDeclarator? declarator).bind (·.field? "declarator") = some n →
      n.kind ≠ "qualified_identifier") : (∃ leaf : Except Failure String, ∀ scope,
        plainName src scope declarator = (do return ⟨← leaf, scope⟩)) ∨
      ∀ scope, plainName src scope declarator = .ok ⟨"", []⟩ := by
  cases hna : (functionDeclarator? declarator).bind (·.field? "declarator") with
  | none => exact .inr fun scope => by simp only [plainName, hna]; rfl
  | some n =>
    have hne := beq_eq_false_iff_ne.2 (hd n hna)
    by_cases hp : (n.kind == "identifier" || n.kind == "field_identifier")
    · exact .inl ⟨n.text? src, fun scope => by
        simp only [plainName, hna, hne, hp]; rfl⟩
    rw [Bool.not_eq_true] at hp
    by_cases ho : (n.kind == "operator_name")
    · exact .inl ⟨operatorName src n, fun scope => by
        simp only [plainName, hna, hne, hp, ho]; rfl⟩
    rw [Bool.not_eq_true] at ho
    exact .inr fun scope => by simp only [plainName, hna, hne, hp, ho]; rfl

theorem plainName_of_qualified
    (hd : (functionDeclarator? declarator).bind (·.field? "declarator") = some n)
    (hn : n.kind = "qualified_identifier") (scope : List String) : plainName src scope declarator = (do
      let parts ← qualifiedParts src id (plainTemplateType src) n.children
      return ⟨parts.getLastD "", parts.dropLast⟩) := by
  simp only [plainName, hd, hn]
  rfl

theorem functionDeclaratorAt?_eq (i : Nat) (ns : List Node) :
    functionDeclaratorAt? i ns = ns[i]?.bind functionDeclarator? := by
  induction ns generalizing i with
  | nil => rw [functionDeclaratorAt?, getElem?_nil, bind_none]
  | cons n ns ih =>
    cases i with
    | zero => rw [functionDeclaratorAt?, getElem?_cons_zero, bind_some]
    | succ i => rw [functionDeclaratorAt?, getElem?_cons_succ, ih]

theorem functionDeclarator?_every {f : Node} (h : Every P d)
    (hf : functionDeclarator? d = some f) : Every P f ∧ f.kind = "function_declarator" := by
  induction h with
  | @node d here children ih =>
    obtain ⟨kind, span, cs, fields⟩ := d
    rw [functionDeclarator?] at hf
    split at hf
    · next hkind =>
        cases hf
        exact ⟨.node here children, beq_iff_eq.1 hkind⟩
    split at hf
    · split at hf
      · next i hi =>
          rw [functionDeclaratorAt?_eq] at hf
          obtain ⟨c, hc, hf⟩ := bind_eq_some_iff.1 hf
          exact ih c (mem_of_getElem? hc) hf
      · cases hf
    split at hf
    · have hkind := find?_some hf
      exact ⟨children f (mem_of_find?_eq_some hf), beq_iff_eq.1 hkind⟩
    · cases hf

theorem exists_declarator (h : nameOfFunction? n = some name) :
    ∃ declarator, n.field? "declarator" = some declarator ∧
      (functionDeclarator? declarator).bind (·.field? "declarator") = some name := by
  obtain ⟨f, hf, hna⟩ := bind_eq_some_iff.1 h
  obtain ⟨declarator, hfi, hf⟩ := bind_eq_some_iff.1 hf
  exact ⟨declarator, hfi, bind_eq_some_iff.2 ⟨f, hf, hna⟩⟩

theorem every_nameOfFunction (h : Every P n)
    (hna : nameOfFunction? n = some name) : Every P name := by
  obtain ⟨declarator, hfi, hna⟩ := exists_declarator hna
  obtain ⟨f, hf, hna⟩ := bind_eq_some_iff.1 hna
  exact (functionDeclarator?_every (h.field hfi) hf).1.field hna

/-- A declaration without qualifiers of its own is judged by the scope it is found in. -/
structure DeclaresIn (w : Wanted) (src : Bytes) (n : Node) (scope : List String) : Prop where
  unqualified : ∀ name, declaredName? n = some name → name.kind ≠ "qualified_identifier"
  ends : EndsWith scope w.target.qualifiers
  again : ∀ around, w.target.qualifiers <:+ around → w.declares src n around = .ok true

/-- A declaration with a qualified name is judged by its own qualifiers. If the name
ends in template arguments then the last qualifier is taken for the name. -/
structure DeclaresAs (w : Wanted) (src : Bytes) (n name : Node) : Prop where
  declared : declaredName? n = some name
  qualified : name.kind = "qualified_identifier"
  ends : ∃ written, writtenQualifiers src name = .ok written ∧
    (¬ EndsInArguments name → EndsWith written w.target.qualifiers) ∧
    (EndsInArguments name → EndsWith written (w.target.qualifiers ++ [w.target.leaf]))
  again : ∀ around, w.declares src n around = .ok true

section Declares

variable {n d : Node} {scope : List String} {s : String}

theorem Wanted.fits_iff : w.target.fits scope ↔ w.target.qualifiers <:+ scope :=
  isSuffixOf_iff_suffix

theorem declaresIn_of_record (hn : recordKinds.contains n.kind)
    (h : w.declares src n scope = .ok true) : DeclaresIn w src n scope := by
  have hkind := contains_iff_mem.1 hn
  rw [Wanted.declares_record hn] at h
  obtain ⟨name, hna, h⟩ := Outcome.bind_eq_ok.1 h
  have hr : w.isRecord n.kind name scope := Except.ok.inj h
  rw [Wanted.isRecord, Bool.and_eq_true, Wanted.fits_iff] at hr
  refine ⟨?_, .of_suffix hr.2, ?_⟩
  · intro m hm
    simp only [recordKinds, mem_cons, not_mem_nil, or_false] at hkind
    rcases hkind with hkind | hkind | hkind
    all_goals
      rw [declaredName?, hkind] at hm
      cases hm
  · intro around ha
    have hag : w.isRecord n.kind name around := by
      rw [Wanted.isRecord, Bool.and_eq_true, Wanted.fits_iff]
      exact ⟨hr.1, ha⟩
    rw [Wanted.declares_record hn, hna, ← hag]
    rfl

theorem Wanted.declares_variable (hn : n.kind = "declaration") : w.declares src n scope =
      if w.hasKind "declaration" then w.isVariable src n scope else .ok false := by
  rw [declares, hn]
  cases w.hasKind "declaration" with
  | true => rfl
  | false => rfl

theorem Wanted.declares_function (hn : n.kind = "function_definition") : w.declares src n scope =
      if w.hasKind "function_definition" then w.isFunction src n scope else .ok false := by
  rw [declares, hn]
  cases w.hasKind "function_definition" with
  | true => rfl
  | false => rfl

theorem Wanted.declares_member (hn : n.kind = "field_declaration") : w.declares src n scope =
      if w.hasKind "function_definition" then w.isMember src n scope else .ok false := by
  rw [declares, hn]
  cases w.hasKind "function_definition" with
  | true => rfl
  | false => rfl

theorem kind_of_identifierName? {item : Option Node} (h : identifierName? src item.toList = .ok (some s)) :
    ∃ name, item = some name ∧ name.kind = "identifier" := by
  cases item with
  | none => cases h
  | some name =>
    by_cases hkind : name.kind = "identifier"
    · exact ⟨name, rfl, hkind⟩
    · rw [identifierName?, toList_some, find?_singleton, beq_eq_false_iff_ne.2 hkind] at h
      cases h

/-- A variable is called by the identifier of its declarator, which may be in an array or a pointer. -/
theorem declaredVariable?_eq {c : Node} (hwf : c.WellFormed src) :
    declaredVariable? src [c] = identifierName? src (Option.toList
      (if c.kind == "array_declarator" || c.kind == "pointer_declarator" then c.children.head?
        else some c)) := by
  rw [declaredVariable?]
  by_cases hna : c.kind = "identifier"
  · rw [if_pos (by simpa using hna), hna]
    rfl
  rw [if_neg (by simpa using hna)]
  by_cases hw : (c.kind == "array_declarator" || c.kind == "pointer_declarator")
  · have hs : c.kind ∈ Form.singleKinds := by
      rw [Bool.or_eq_true, beq_iff_eq, beq_iff_eq] at hw
      rcases hw with hkind | hkind
      · rw [hkind]; decide
      · rw [hkind]; decide
    obtain ⟨item, hit⟩ := hwf.form.children_of_single hs
    have hh : c.children.head?.toList = item.toList := by rw [hit]; cases item <;> rfl
    rw [if_pos hw, if_pos hw, hh, hit]
    cases identifierName? src item.toList with
    | error e => rfl
    | ok name =>
      cases name with
      | none => rfl
      | some s => rfl
  · rw [if_neg hw, if_neg hw, identifierName?, toList_some, find?_singleton,
      beq_eq_false_iff_ne.2 hna]
    rfl

theorem variableName?_eq (hwf : n.WellFormed src) :
    variableName? src n = identifierName? src (nameOfVariable? n).toList := by
  rw [variableName?, nameOfVariable?]
  cases hc : n.childOf? ["init_declarator"] with
  | none => rfl
  | some d =>
    have hd := hwf.child d (mem_of_find?_eq_some hc)
    have hkind : d.kind = "init_declarator" := by
      simpa using find?_some hc
    obtain ⟨item, hit⟩ := hd.form.children_of_single (by rw [hkind]; decide)
    dsimp only
    rw [bind_eq_bind, bind_some, hit]
    cases item with
    | none => rfl
    | some c => exact declaredVariable?_eq (hd.child c (by rw [hit]; simp))

theorem declaresIn_of_variable (hwf : n.WellFormed src) (hn : n.kind = "declaration")
    (h : w.declares src n scope = .ok true) : DeclaresIn w src n scope := by
  rw [Wanted.declares_variable hn] at h
  split at h
  · next hw =>
      rw [Wanted.isVariable] at h
      obtain ⟨name, hna, h⟩ := Outcome.bind_eq_ok.1 h
      have hv : (name == some w.target.leaf && w.target.fits scope) := Except.ok.inj h
      rw [Bool.and_eq_true, beq_iff_eq, Wanted.fits_iff] at hv
      obtain ⟨hl, hf⟩ := hv
      subst hl
      refine ⟨?_, .of_suffix hf, ?_⟩
      · intro m hm
        obtain ⟨m', hm', hkind⟩ := kind_of_identifierName? ((variableName?_eq hwf).symm.trans hna)
        have heq : declaredName? n = nameOfVariable? n := by
          rw [declaredName?, hn]
          rfl
        rw [heq, hm'] at hm
        cases hm
        rw [hkind]
        decide
      · intro around ha
        rw [Wanted.declares_variable hn, if_pos hw, Wanted.isVariable, hna,
          ok_bind, beq_self_eq_true, Bool.true_and, Wanted.fits_iff.2 ha]
        rfl
  · cases h

theorem isFunction_eq
    (hd : (n.field? "declarator").bind functionDeclarator? = some d) (scope : List String) :
    w.isFunction src n scope = (do
      let name ← fullName src scope d
      if name.leaf == some w.target.leaf || name.leaf.map baseName == some w.target.leaf then
        w.scopeFits name.scope
      else return false) := by
  obtain ⟨declarator, hde, hd⟩ := bind_eq_some_iff.1 hd
  simp only [Wanted.isFunction, hde, hd]

theorem exists_functionDeclarator (h : w.isFunction src n scope = .ok true) :
    ∃ d, (n.field? "declarator").bind functionDeclarator? = some d := by
  cases hde : n.field? "declarator" with
  | none =>
    rw [Wanted.isFunction, hde] at h
    cases h
  | some declarator =>
    cases hd : functionDeclarator? declarator with
    | none =>
      simp only [Wanted.isFunction, hde, hd] at h
      cases h
    | some d => exact ⟨d, hd⟩

section Function

variable {d : Node} (hn : n.kind = "function_definition")
  (hd : (n.field? "declarator").bind functionDeclarator? = some d)
  (h : w.declares src n scope = .ok true)

include hn hd

theorem declaredName?_of_function : declaredName? n = d.field? "declarator" := by
  have hna : nameOfFunction? n = d.field? "declarator" := by
    rw [nameOfFunction?, hd, bind_some]
  rw [← hna, declaredName?, hn]
  rfl

include h

theorem declaresAs_of_function (hwf : n.WellFormed src) {m : Node}
    (hm : d.field? "declarator" = some m) (hkind : m.kind = "qualified_identifier") :
    DeclaresAs w src n m := by
  have ha : ∀ around, w.declares src n around = .ok true := by
    intro around
    rw [← h, Wanted.declares_function hn, Wanted.declares_function hn, isFunction_eq hd,
      isFunction_eq hd, fullName_of_qualified hm hkind, fullName_of_qualified hm hkind]
  refine ⟨by rw [declaredName?_of_function hn hd, hm], hkind, ?_, ha⟩
  rw [Wanted.declares_function hn] at h
  split at h
  · rw [isFunction_eq hd, fullName_of_qualified hm hkind] at h
    obtain ⟨full, hf, h⟩ := Outcome.bind_eq_ok.1 h
    obtain ⟨parts, hp, hf⟩ := Outcome.bind_eq_ok.1 hf
    cases hf
    split at h
    · next hl =>
        have hmwf : m.WellFormed src := by
          refine every_nameOfFunction hwf ?_
          rw [nameOfFunction?, hd, bind_some, hm]
        obtain ⟨written, hw, hr⟩ := exists_written_of_full hmwf hkind hp
        refine ⟨written, hw, ?_, ?_⟩
        · intro hwh
          exact Wanted.scopeFits_eq_true (hr.whole hwh) h
        · intro hcut
          obtain ⟨hne, hna⟩ := hr.cut hcut
          exact Wanted.endsWith_of_cut hne hna h hl
    · cases h
  · cases h

theorem declaresIn_of_function (hm : ∀ m, d.field? "declarator" = some m → m.kind ≠ "qualified_identifier") :
    DeclaresIn w src n scope := by
  rw [Wanted.declares_function hn] at h
  split at h
  · next hw =>
      rw [isFunction_eq hd] at h
      have hr : (∃ leaf : Except Failure String, ∀ scope,
          fullName src scope d = (do return ⟨some (← leaf), scope.map some⟩)) ∨
            ∀ scope, fullName src scope d = .ok ⟨none, []⟩ := fullName_of_unqualified hm
      rcases hr with ⟨leaf, hl⟩ | hno
      · rw [hl] at h
        obtain ⟨full, hf, h⟩ := Outcome.bind_eq_ok.1 h
        obtain ⟨s, rfl, hf⟩ := Outcome.bind_eq_ok.1 hf
        cases hf
        split at h
        · next hs =>
            refine ⟨?_, Wanted.scopeFits_eq_true (forall₂_map_some scope) h, ?_⟩
            · rw [declaredName?_of_function hn hd]
              exact hm
            · intro around ha
              rw [Wanted.declares_function hn, if_pos hw, isFunction_eq hd, hl]
              simp only [ok_bind, pure_bind]
              rw [if_pos hs]
              exact Wanted.scopeFits_of_suffix ha
        · cases h
      · rw [hno, ok_bind] at h
        cases h
  · cases h

end Function

theorem isMember_eq (hd : n.field? "declarator" = some d)
    (hkind : d.kind = "function_declarator") (scope : List String) : w.isMember src n scope = (do
      let name ← plainName src scope d return name.leaf == w.target.leaf && w.target.fits name.scope) := by
  simp only [Wanted.isMember, hd, hkind]
  rfl

theorem exists_memberDeclarator (h : w.isMember src n scope = .ok true) :
    ∃ d, n.field? "declarator" = some d ∧ d.kind = "function_declarator" := by
  cases hd : n.field? "declarator" with
  | none =>
    rw [Wanted.isMember, hd] at h
    cases h
  | some d =>
    by_cases hkind : d.kind = "function_declarator"
    · exact ⟨d, rfl, hkind⟩
    · simp only [Wanted.isMember, hd, beq_eq_false_iff_ne.2 hkind] at h
      cases h

section Member

variable {d : Node} (hn : n.kind = "field_declaration") (hd : n.field? "declarator" = some d)
  (hkind : d.kind = "function_declarator") (h : w.declares src n scope = .ok true)

include hn hd

theorem declaredName?_of_member : declaredName? n = (functionDeclarator? d).bind (·.field? "declarator") := by
  have hna : nameOfFunction? n = (functionDeclarator? d).bind (·.field? "declarator") := by
    rw [nameOfFunction?, hd, bind_some]
  rw [← hna, declaredName?, hn]
  rfl

include hkind h

theorem declaresAs_of_member (hwf : n.WellFormed src) {m : Node}
    (hm : (functionDeclarator? d).bind (·.field? "declarator") = some m)
    (hq : m.kind = "qualified_identifier") : DeclaresAs w src n m := by
  have ha : ∀ around, w.declares src n around = .ok true := by
    intro around
    rw [← h, Wanted.declares_member hn, Wanted.declares_member hn, isMember_eq hd hkind, isMember_eq hd hkind,
      plainName_of_qualified hm hq, plainName_of_qualified hm hq]
  refine ⟨by rw [declaredName?_of_member hn hd, hm], hq, ?_, ha⟩
  rw [Wanted.declares_member hn] at h
  split at h
  · rw [isMember_eq hd hkind, plainName_of_qualified hm hq] at h
    obtain ⟨name, hna, h⟩ := Outcome.bind_eq_ok.1 h
    obtain ⟨parts, hp, hna⟩ := Outcome.bind_eq_ok.1 hna
    cases hna
    have hf := Bool.and_eq_true_iff.1 (Except.ok.inj h)
    have hmwf : m.WellFormed src := by
      refine every_nameOfFunction hwf ?_
      rw [nameOfFunction?, hd, bind_some, hm]
    have hl : parts.getLastD "" = w.target.leaf := beq_iff_eq.1 hf.1
    have hen : EndsWith parts.dropLast w.target.qualifiers := .of_suffix (Wanted.fits_iff.1 hf.2)
    obtain ⟨written, hw, hr⟩ := exists_written_of_plain hmwf hq hp
    refine ⟨written, hw, ?_, ?_⟩
    · intro hwh
      have heq := hr.whole hwh
      rw [forall₂_eq_eq_eq] at heq
      exact heq ▸ hen
    · intro hcut
      obtain ⟨hne, heq⟩ := hr.cut hcut
      rw [forall₂_eq_eq_eq] at heq
      obtain ⟨before, name, rfl⟩ := (eq_nil_or_concat' parts).resolve_left hne
      rw [getLastD_concat] at hl
      rw [dropLast_concat] at hen
      rw [← heq]
      exact hen.concat (congrArg baseName hl)
  · cases h

theorem declaresIn_of_member (hm : ∀ m, (functionDeclarator? d).bind (·.field? "declarator") = some m →
      m.kind ≠ "qualified_identifier") : DeclaresIn w src n scope := by
  have hu : ∀ m, declaredName? n = some m → m.kind ≠ "qualified_identifier" := by
    rw [declaredName?_of_member hn hd]
    exact hm
  have hr : (∃ leaf : Except Failure String, ∀ scope,
      plainName src scope d = (do return ⟨← leaf, scope⟩)) ∨
        ∀ scope, plainName src scope d = .ok ⟨"", []⟩ := plainName_of_unqualified hm
  rw [Wanted.declares_member hn] at h
  split at h
  · next hw =>
      rw [isMember_eq hd hkind] at h
      obtain ⟨name, hna, h⟩ := Outcome.bind_eq_ok.1 h
      have hf := Bool.and_eq_true_iff.1 (Except.ok.inj h)
      rcases hr with ⟨leaf, hl⟩ | hno
      · rw [hl] at hna
        obtain ⟨s, rfl, hna⟩ := Outcome.bind_eq_ok.1 hna
        cases hna
        refine ⟨hu, .of_suffix (Wanted.fits_iff.1 hf.2), ?_⟩
        intro around ha
        rw [Wanted.declares_member hn, if_pos hw, isMember_eq hd hkind, hl]
        simp only [ok_bind, pure_bind]
        rw [hf.1, Wanted.fits_iff.2 ha]
        rfl
      · rw [hno] at hna
        cases hna
        have hem := suffix_nil.1 (Wanted.fits_iff.1 hf.2)
        refine ⟨hu, ?_, ?_⟩
        · rw [EndsWith, hem]
          exact nil_suffix
        · intro around _
          rw [Wanted.declares_member hn, if_pos hw, isMember_eq hd hkind, hno]
          exact h
  · cases h

end Member

/-- A declaration that is accepted is judged by the scope it is found in, or by the
qualifiers in its own name. -/
theorem declares_cases (hwf : n.WellFormed src) (hn : n.kind ∈ declaringKinds)
    (h : w.declares src n scope = .ok true) : DeclaresIn w src n scope ∨ ∃ name, DeclaresAs w src n name := by
  rw [declaringKinds, mem_append] at hn
  rcases hn with hr | hn
  · exact .inl (declaresIn_of_record (contains_iff_mem.2 hr) h)
  simp only [mem_cons, not_mem_nil, or_false] at hn
  rcases hn with hn | hn | hn
  · exact .inl (declaresIn_of_variable hwf hn h)
  · have hf : w.isFunction src n scope = .ok true := by
      rw [Wanted.declares_function hn] at h
      split at h
      · exact h
      · cases h
    obtain ⟨d, hd⟩ := exists_functionDeclarator hf
    by_cases hq : ∃ m, d.field? "declarator" = some m ∧ m.kind = "qualified_identifier"
    · obtain ⟨m, hm, hkind⟩ := hq
      exact .inr ⟨m, declaresAs_of_function hn hd h hwf hm hkind⟩
    · exact .inl (declaresIn_of_function hn hd h fun m hm hkind => hq ⟨m, hm, hkind⟩)
  · have hme : w.isMember src n scope = .ok true := by
      rw [Wanted.declares_member hn] at h
      split at h
      · exact h
      · cases h
    obtain ⟨d, hd, hdk⟩ := exists_memberDeclarator hme
    by_cases hq : ∃ m, (functionDeclarator? d).bind (·.field? "declarator") = some m ∧
        m.kind = "qualified_identifier"
    · obtain ⟨m, hm, hkind⟩ := hq
      exact .inr ⟨m, declaresAs_of_member hn hd hdk h hwf hm hkind⟩
    · exact .inl (declaresIn_of_member hn hd hdk h fun m hm hkind => hq ⟨m, hm, hkind⟩)

end Declares

end Excerpt.Cpp
