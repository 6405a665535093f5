import Excerpt.Proofs.Cpp.EmptyPart

/-!
# The first class or variable of a name

Classes, enumerations and variables are looked for by the same search as functions.
For a name without qualifiers it gives what stands for the first node of the source
that introduces the name. For any name, the search comes to an end (`exists_first`), and
what is given stands for a node that introduces the last part of the name. It is this
node itself unless the node stands in the function of a template: then the template is
given, which is no class and no variable.
-/

namespace Excerpt.Cpp

open Node List Option Outcome Wanted

variable {src : Bytes} {cs : List Char} {name : String} {n m d root : Node} {p q : Place}
  {above ns : List Node} {w : Wanted} {scope : List String} {steps : List Step} {P : Node → Prop}

/-- The kinds of nodes that introduce a class, an enumeration or a variable. -/
def introducingKinds : List String :=
  ["class_specifier", "struct_specifier", "enum_specifier", "declaration"]

def identifierText (src : Bytes) (item : Option Node) : Option String :=
  (item.filter (·.kind == "identifier")).map (written src)

/-- The name of a class or an enumeration, or of the variable that a declaration declares. -/
def ownName (src : Bytes) (n : Node) : Option String :=
  if n.kind = "declaration" then identifierText src (nameOfVariable? n)
  else (n.childOf? ["type_identifier"]).map (written src)

/-- The node introduces a class, an enumeration or a variable of the name. -/
structure Introduces (src : Bytes) (name : String) (n : Node) : Prop where
  kind : n.kind ∈ introducingKinds
  named : ownName src n = some name

/-! ## The names of variables -/

theorem identifierName?_eq (item : Option Node) (h : ∀ c ∈ item, Readable src c) :
    identifierName? src item.toList = .ok ((identifierText src item).filter (!·.isEmpty)) := by
  cases item with
  | none => rfl
  | some c =>
    rw [identifierName?, toList_some, find?_singleton, identifierText, filter_some]
    cases c.kind == "identifier" with
    | false => rfl
    | true =>
      have ht : c.text? src = .ok (c.written src) := (h c rfl).text?
      simp only [if_true, ht, map_some, filter_some]
      rw [ok_bind]
      cases (c.written src).isEmpty with
      | true => rfl
      | false => rfl

theorem every_nameOfVariable {c : Node} (h : Every P n)
    (hc : nameOfVariable? n = some c) : Every P c := by
  obtain ⟨d, hd, hc⟩ := bind_eq_some_iff.1 hc
  obtain ⟨inner, hin, hc⟩ := bind_eq_some_iff.1 hc
  have hev := (h.child d (mem_of_find?_eq_some hd)).child inner (mem_of_head? hin)
  split at hc
  · exact hev.child c (mem_of_head? hc)
  · cases hc
    exact hev

/-! ## What is accepted -/

/-- What is searched for: classes, enumerations and variables. -/
def introducing (t : Target) : Wanted :=
  ⟨t, introducingKinds⟩

theorem Introduces.kind_eq (h : Introduces src name n) :
    recordKinds.contains n.kind = true ∨ n.kind = "declaration" := by
  have hk : ∀ k ∈ introducingKinds, recordKinds.contains k = true ∨ k = "declaration" := by decide
  exact hk _ h.kind

theorem Introduces.mem_declaringKinds (h : Introduces src name n) : n.kind ∈ declaringKinds := by
  have hk : ∀ k ∈ introducingKinds, k ∈ declaringKinds := by decide
  exact hk _ h.kind

/-- A node is accepted if it introduces the last part of the target and the scope fits; a name without
characters is never accepted. -/
theorem exists_introducing (t : Target) (hsrc : Utf8.Spells src cs) (hwf : n.WellFormed src)
    (h : Every (Legible (Token.scan src)) n) (hreadable : Every (Readable src) n) (scope : List String) :
    ∃ b, (introducing t).declares src n scope = .ok b ∧
      (b ↔ Introduces src t.leaf n ∧ t.leaf ≠ "" ∧ t.fits scope) := by
  cases hr : recordKinds.contains n.kind with
  | true =>
    have hmem : n.kind ∈ recordKinds := contains_iff_mem.1 hr
    have hki : ∀ k ∈ recordKinds, k ∈ introducingKinds ∧ k ≠ "declaration" := by decide
    obtain ⟨hk, hnot⟩ := hki _ hmem
    have hw : (introducing t).hasKind n.kind := contains_iff_mem.2 hk
    obtain ⟨hre, hwo⟩ := recordName?_eq hsrc h.here hmem
    refine ⟨_, by rw [declares_record hr, hre, ok_bind]; rfl, ?_⟩
    rw [isRecord, hw, Bool.true_and, Bool.and_eq_true, beq_iff_eq]
    constructor
    · rintro ⟨hn, hf⟩
      obtain ⟨c, hc, hl⟩ := map_eq_some_iff.1 hn
      refine ⟨⟨hk, by rw [ownName, if_neg hnot]; exact hn⟩, ?_, hf⟩
      exact hl ▸ (hwo c hc).ne_empty
    · rintro ⟨hin, -, hf⟩
      have hn := hin.named
      rw [ownName, if_neg hnot] at hn
      exact ⟨hn, hf⟩
  | false =>
    by_cases hk : n.kind = "declaration"
    · have hw : (introducing t).hasKind "declaration" := rfl
      have hre := identifierName?_eq (nameOfVariable? n) fun c hc =>
        (every_nameOfVariable hreadable hc).here
      refine ⟨_, by
        rw [declares_variable hk, if_pos hw, isVariable, variableName?_eq hwf,
          hre, ok_bind]
        rfl, ?_⟩
      rw [Bool.and_eq_true, beq_iff_eq, filter_eq_some_iff]
      constructor
      · rintro ⟨⟨hn, hne⟩, hf⟩
        refine ⟨⟨by rw [hk]; decide, by rw [ownName, if_pos hk]; exact hn⟩, ?_, hf⟩
        simpa [introducing] using hne
      · rintro ⟨hin, hne, hf⟩
        have hn := hin.named
        rw [ownName, if_pos hk] at hn
        exact ⟨⟨hn, by simpa [introducing] using hne⟩, hf⟩
    · refine ⟨false, ?_, ?_⟩
      · have hw : (introducing t).hasKind "function_definition" = false := rfl
        rw [Wanted.declares, hr, beq_eq_false_iff_ne.2 hk, hw, Bool.and_false, Bool.false_and,
          Bool.and_false]
        rfl
      · simp only [Bool.false_eq_true, false_iff]
        rintro ⟨hin, -, -⟩
        rcases hin.kind_eq with hk' | hk'
        · rw [hr] at hk'
          cases hk'
        · exact hk hk'

theorem judges_introducing (hP : P n ↔ Introduces src name n ∧ name ≠ "")
    (hsrc : Utf8.Spells src cs) (hwf : n.WellFormed src) (h : Every (Legible (Token.scan src)) n)
    (hr : Every (Readable src) n) : Judges (introducing ⟨name, []⟩) src P n := by
  intro scope
  obtain ⟨b, hb, hiff⟩ := exists_introducing ⟨name, []⟩ hsrc hwf h hr scope
  refine ⟨b, hb, hiff.trans ((and_congr_right fun _ => and_iff_left ?_).trans hP.symm)⟩
  exact isSuffixOf_iff_suffix.2 nil_suffix

/-! ## Names without qualifiers -/

theorem exists_below (h : d ∈ n.preorder) : ∃ p above, Below n p above d := by
  induction n using Node.induction with
  | h n ih =>
    rcases Node.mem_preorder.1 h with rfl | ⟨c, hc, hd⟩
    · exact ⟨[], [], .here _⟩
    · obtain ⟨i, hi⟩ := mem_iff_getElem?.1 hc
      obtain ⟨p, above, hb⟩ := ih c hc hd
      exact ⟨i :: p, n :: above, .child hi hb⟩

theorem eq_none_iff_of_givesFirst {r : Option Node} (h : GivesFirst P n r) :
    r = none ↔ ∀ d ∈ n.preorder, ¬ P d := by
  cases h with
  | none h =>
    refine ⟨fun _ d hd => ?_, fun _ => rfl⟩
    obtain ⟨p, above, hb⟩ := exists_below hd
    exact h p above d hb
  | some h =>
    refine ⟨fun hn => absurd hn (by simp), fun hnot => ?_⟩
    exact absurd h.holds (hnot _ h.below.mem_preorder)

/-- A search by a name without qualifiers always comes to an end. It gives nothing exactly if no node of
the source declares the name, and otherwise what stands for the first node that does: the outermost
template in whose function the node stands, or else the node. So it is for functions, and for
classes, enumerations and variables. -/
theorem find_gives_first {text : String} (htext : Utf8.decode src = .ok text)
    (hcpp : Dialect.guess src = .cpp) (hroot : Node.parse src = .ok root) (hname : name ≠ "")
    (hplain : Text.contains name "::" = false) :
    (∃ r, find src root name ["function_definition"] = .ok r ∧
      (r = none ↔ ∀ d ∈ root.preorder, ¬ Declaring src name d) ∧
      GivesFirst (Declaring src name) root r) ∧
    ∃ r, find src root name introducingKinds = .ok r ∧
      (r = none ↔ ∀ d ∈ root.preorder, ¬ Introduces src name d) ∧
      GivesFirst (Introduces src name) root r := by
  have hsrc := Utf8.spells_of_decode htext
  have hwf := parse_wellFormed hroot
  have hlegible := legible_of_parse hcpp hroot
  have hreadable := readable_of_parse htext hroot
  rw [find, find, ofString_unqualified hplain]
  constructor
  · obtain ⟨r, hfind, hgives⟩ := findsFirst hsrc hname root hwf hlegible hreadable []
    exact ⟨r, hfind, eq_none_iff_of_givesFirst hgives, hgives⟩
  · obtain ⟨r, hfind, hgives⟩ := findsFirst_of_judges hsrc (fun m hm => hm.mem_declaringKinds)
      (fun n => judges_introducing (and_iff_left hname).symm hsrc) root hwf hlegible hreadable []
    exact ⟨r, hfind, eq_none_iff_of_givesFirst hgives, hgives⟩

/-- For a class in the function of a template the template is given; there is no function of its name. -/
theorem find_gives_first_local_class :
    let src := Bytes.ofString "template <class T> void f() \x7b struct S \x7b\x7d; \x7d struct S \x7b\x7d;"
    ∃ root m, Node.parse src = .ok root ∧ find src root "S" ["function_definition"] = .ok none ∧
      (∀ d ∈ root.preorder, ¬ Declaring src "S" d) ∧
      find src root "S" introducingKinds = .ok (some m) ∧ m.kind = "template_declaration" ∧
      ∃ p above d, FirstBelow (Introduces src "S") root p above d ∧ standsFor above d = m := by
  intro src
  have hrun : (do
      let root : Node ← (Node.parse src).toOption
      let function : Option Node ← (find src root "S" ["function_definition"]).toOption
      let found : Option Node ← (find src root "S" introducingKinds).toOption
      let m : Node ← found
      return function.isNone && m.kind == "template_declaration") = some true := by
    decide +kernel
  simp only [bind, pure, bind_eq_some_iff, toOption_eq_some, some.injEq, Bool.and_eq_true,
    isNone_iff_eq_none, beq_iff_eq] at hrun
  obtain ⟨root, hroot, function, hfunction, found, hfound, m, rfl, rfl, hkind⟩ := hrun
  obtain ⟨⟨r, hr, hnone, -⟩, r', hr', -, hgives⟩ :=
    find_gives_first (Utf8.decode_ofString _) (by decide) hroot (by decide : "S" ≠ "") (by decide)
  cases hfunction.symm.trans hr
  cases hfound.symm.trans hr'
  refine ⟨root, m, hroot, hfunction, hnone.1 rfl, hfound, hkind, ?_⟩
  cases hgives with
  | some h => exact ⟨_, _, _, h, rfl⟩

/-! ## The search always has an answer -/

theorem Within.mem_preorder {around : List String} (h : Within src n p m around) : m ∈ n.preorder := by
  induction h with
  | here n => exact mem_preorder_self n
  | child hc _ _ ih => exact Node.mem_preorder.2 (.inr ⟨_, mem_of_getElem? hc, ih⟩)

/-- A search that can read all names has an answer. If it finds nothing, then no declaration is accepted
in the scopes around it. What it gives stands for a node that it accepts in some scope. -/
theorem exists_first (hwf : n.WellFormed src) (ho : Opens src n)
    (hd : ∀ m ∈ n.preorder, ∀ scope, ∃ b, w.declares src m scope = .ok b) :
    ∃ r, first w src [] n = .ok r ∧
      (r = none → ∀ q d around, Within src n q d around → d.kind ∈ declaringKinds →
        w.declares src d around = .ok false) ∧
      ∀ m ∈ r, ∃ p above d scope, Below n p above d ∧ w.declares src d scope = .ok true ∧
        standsFor above d = m := by
  have hl := looksIn_of_mem_visits n ho [] []
  obtain ⟨r, hr, hnot⟩ := exists_scan hl hd
  refine ⟨r.map Visit.answer, by rw [first_eq_scan w src n [] [], hr]; rfl, ?_, ?_⟩
  · intro hn q d around hw hk
    have hok : ∀ e, .error e ∉ visits src [] [] n := by
      intro e he
      obtain ⟨v, hv, -⟩ := hl _ he
      cases hv
    -- the search has looked at the declaration with all scopes around it
    obtain ⟨v, hv, rfl, -, hs⟩ := exists_full_visit hwf hw hk hok
    have hnot := hnot (map_eq_none_iff.1 hn) v hv
    rw [hs] at hnot
    exact hnot
  · intro m hm
    obtain ⟨v, rfl, rfl⟩ := map_eq_some_iff.1 hm
    obtain ⟨p, above, hb, ha, hv, -⟩ := exists_of_scan hwf ho hr
    exact ⟨p, above, v.node, v.scope, hb, hv, ha.symm⟩

/-! ## What is given for a class or a variable -/

/-- The node below the nodes `above` stands in the function of a template. -/
def InTemplateFunction (above : List Node) (d : Node) : Prop :=
  ∃ outer t c inner, above ++ [d] = outer ++ t :: c :: inner ∧ t.kind = "template_declaration" ∧
    c.kind = "function_definition"

theorem not_inTemplateFunction_nil : ¬ InTemplateFunction [] d := by
  rintro ⟨outer, t, c, inner, heq, -, -⟩
  have hl := congrArg List.length heq
  simp only [nil_append, length_append, length_cons, length_nil] at hl
  omega

theorem inTemplateFunction_cons {a : Node} : InTemplateFunction (a :: above) d ↔
      (a.kind = "template_declaration" ∧ (above.headD d).kind = "function_definition") ∨
        InTemplateFunction above d := by
  constructor
  · rintro ⟨outer, t, c, inner, heq, ht, hc⟩
    cases outer with
    | nil =>
      have hh := congrArg List.head? (cons.inj heq).2
      refine .inl ⟨(cons.inj heq).1 ▸ ht, ?_⟩
      cases above with
      | nil => exact some.inj hh ▸ hc
      | cons b above => exact some.inj hh ▸ hc
    | cons b outer => exact .inr ⟨outer, t, c, inner, (cons.inj heq).2, ht, hc⟩
  · rintro (⟨ha, hh⟩ | ⟨outer, t, c, inner, heq, ht, hc⟩)
    · cases above with
      | nil => exact ⟨[], a, d, [], rfl, ha, hh⟩
      | cons b above => exact ⟨[], a, b, above ++ [d], rfl, ha, hh⟩
    · exact ⟨a :: outer, t, c, inner, by rw [cons_append, heq, cons_append], ht, hc⟩

theorem kind_standsFor (h : InTemplateFunction above d) :
    (standsFor above d).kind = "template_declaration" := by
  induction above with
  | nil => exact absurd h not_inTemplateFunction_nil
  | cons a above ih =>
    rw [standsFor]
    split
    · next hh => exact hh.1
    · next hh => exact ih ((inTemplateFunction_cons.1 h).resolve_left hh)

theorem standsFor_eq_self (h : ¬ InTemplateFunction above d) : standsFor above d = d := by
  induction above with
  | nil => rfl
  | cons a above ih =>
    rw [inTemplateFunction_cons, not_or] at h
    rw [standsFor, if_neg h.1, ih h.2]

/-- What stands for a node that introduces a name does so too, unless it is a template. -/
theorem introduces_standsFor_iff (h : Introduces src name d) :
    Introduces src name (standsFor above d) ↔ ¬ InTemplateFunction above d := by
  constructor
  · intro hs hin
    have hk := hs.kind
    rw [kind_standsFor hin] at hk
    exact absurd hk (by decide)
  · intro hin
    rw [standsFor_eq_self hin]
    exact h

/-- A class, an enumeration or a variable is asked for by a name. There is always an answer. If
something is given, then it stands for a node that introduces the last part of the name; it introduces
this name itself exactly if the node does not stand in the function of a template, and otherwise a
template is given. If nothing is given, then no node introduces the last part of the name within scopes
that end with its qualifiers, unless the last part is empty. -/
theorem record_given_exact {text : String} (htext : Utf8.decode src = .ok text)
    (hcpp : Dialect.guess src = .cpp) (hroot : Node.parse src = .ok root) (name : String) :
    ∃ found, record src root name = .ok found ∧
      (∀ given ∈ found, ∃ p above d, Below root p above d ∧ Introduces src (Target.ofString name).leaf d ∧
        given.node = standsFor above d ∧
        (Introduces src (Target.ofString name).leaf given.node ↔ ¬ InTemplateFunction above d) ∧
        (InTemplateFunction above d → given.node.kind = "template_declaration")) ∧
      (found = none → ∀ p d around, Within src root p d around →
        Introduces src (Target.ofString name).leaf d → (Target.ofString name).leaf ≠ "" →
          (Target.ofString name).fits around = false) := by
  have hsrc := Utf8.spells_of_decode htext
  have hwf := parse_wellFormed hroot
  have hlegible := legible_of_parse hcpp hroot
  have hreadable := readable_of_parse htext hroot
  let t := Target.ofString name
  have hjudged : ∀ m ∈ root.preorder, ∀ scope, ∃ b, (introducing t).declares src m scope = .ok b ∧
      (b = true ↔ Introduces src t.leaf m ∧ t.leaf ≠ "" ∧ t.fits scope = true) := fun m hm =>
    exists_introducing t hsrc (hwf.of_mem_preorder hm) (hlegible.of_mem_preorder hm)
      (hreadable.of_mem_preorder hm)
  obtain ⟨r, hr, hnone, hreaches⟩ := exists_first hwf (opens_of_legible hsrc hwf hlegible)
    (fun m hm scope => (hjudged m hm scope).imp fun b hb => hb.1)
  have hmem : ∀ m ∈ r, m ∈ root.preorder := by
    intro m hm
    obtain ⟨p, above, d, scope, hbelow, -, rfl⟩ := hreaches m hm
    obtain ⟨q, outer, -, hstands, -⟩ := hbelow.exists_standsFor
    exact hstands.mem_preorder
  obtain ⟨found, hfound, hnodes⟩ := exists_definition? name fun m hm =>
    (hreadable.of_mem_preorder (hmem m hm)).here
  refine ⟨found, by rw [record]; exact Outcome.bind_eq_ok.2 ⟨r, hr, hfound⟩, ?_, ?_⟩
  · intro given hgiven
    obtain ⟨p, above, d, scope, hbelow, hd, hstands⟩ := hreaches given.node (by rw [← hnodes, hgiven]; rfl)
    obtain ⟨b, hb, hiff⟩ := hjudged d hbelow.mem_preorder scope
    cases hd.symm.trans hb
    have hintroduces := (hiff.1 rfl).1
    rw [← hstands]
    exact ⟨p, above, d, hbelow, hintroduces, rfl, introduces_standsFor_iff hintroduces, kind_standsFor⟩
  · rintro rfl p d around hwithin hintroduces hleaf
    obtain ⟨b, hb, hiff⟩ := hjudged d hwithin.mem_preorder around
    cases (hnone hnodes.symm p d around hwithin hintroduces.mem_declaringKinds).symm.trans hb
    exact Bool.eq_false_iff.2 fun hfits => absurd (hiff.2 ⟨hintroduces, hleaf, hfits⟩) (by decide)

/-- Asked for a class in the function of a template, the whole template is given: it is no class. -/
theorem record_given_exact_local_class :
    let src := Bytes.ofString "template <class T> void f() \x7b struct S \x7b int x; \x7d; \x7d"
    ∃ (root : Node) (given : Definition), Node.parse src = .ok root ∧
      record src root "S" = .ok (some given) ∧ given.node.kind = "template_declaration" ∧
      ¬ Introduces src "S" given.node ∧
      ∃ p above d, Below root p above d ∧ Introduces src "S" d ∧ given.node = standsFor above d ∧
        InTemplateFunction above d := by
  intro src
  have hrun : (do
      let root : Node ← (Node.parse src).toOption
      let found : Option Definition ← (record src root "S").toOption
      let given : Definition ← found
      return given.node.kind == "template_declaration") = some true := by
    decide +kernel
  simp only [bind, pure, bind_eq_some_iff, toOption_eq_some, some.injEq, beq_iff_eq] at hrun
  obtain ⟨root, hroot, found, hfound, given, rfl, hkind⟩ := hrun
  obtain ⟨found, hfound', hgiven, -⟩ := record_given_exact (Utf8.decode_ofString _) (by decide) hroot
    "S"
  cases hfound.symm.trans hfound'
  obtain ⟨p, above, d, hbelow, hd, hstands, hiff, -⟩ := hgiven given rfl
  have hnot : ¬ Introduces src "S" given.node := by
    intro hintroduces
    have hmem := hintroduces.kind
    rw [hkind] at hmem
    exact absurd hmem (by decide)
  exact ⟨root, given, hroot, hfound, hkind, hnot, p, above, d, hbelow, hd, hstands,
    Classical.not_not.1 fun hin => hnot (hiff.2 hin)⟩

end Excerpt.Cpp
