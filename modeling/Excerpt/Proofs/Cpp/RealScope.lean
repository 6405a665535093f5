import Excerpt.Proofs.Cpp.Declares
import Excerpt.Proofs.Cpp.Enclosing
import Excerpt.Proofs.Grammar.Item

/-!
# The scope of what a search finds

A search for `a::b::x` is meant to give a declaration of `x` whose scope ends with
`a::b`. It stops at the first visit that declares the target, and the scope that the
visit carries is a sublist of the scopes around the declaration. If it is all of
them, then the scope of the declaration ends with the qualifiers asked for. If some
are left out, then it does not: with all of them the declaration has been looked
at before, and passed over.

There are two more ways to an answer of another scope. A qualified name that ends in
template arguments is read without its last component. And for a declaration
anywhere inside the function of a template, the answer is the template.
-/

namespace Excerpt.Cpp

open Node List Option Outcome Visit

variable {src : Bytes} {w : Wanted} {root : Node} {v : Visit} {around real : List String}

/-- A search stops at the first visit that declares the target. -/
theorem Wanted.scan_eq_some {steps : List Step} (h : w.scan src steps = .ok (some v)) :
    ∃ pre post, steps = pre ++ .ok v :: post ∧ (∀ e, .error e ∉ pre) ∧
      (∀ u, .ok u ∈ pre → w.declares src u.node u.scope = .ok false) ∧
      w.declares src v.node v.scope = .ok true := by
  induction steps with
  | nil => cases h
  | cons step steps ih =>
    cases step with
    | error e => cases h
    | ok u =>
      cases hu : w.declares src u.node u.scope with
      | error e =>
        rw [scan, hu] at h
        cases h
      | ok found =>
        cases found with
        | true =>
          rw [scan, hu] at h
          cases h
          exact ⟨[], steps, rfl, by simp, by simp, hu⟩
        | false =>
          rw [scan, hu] at h
          obtain ⟨pre, post, rfl, hok, hb, hv⟩ := ih h
          refine ⟨.ok u :: pre, post, rfl, ?_, ?_, hv⟩
          · intro e he
            exact hok e ((mem_cons.1 he).resolve_left (by simp))
          · intro u' hu'
            rcases mem_cons.1 hu' with heq | hu'
            · cases heq
              exact hu
            · exact hb u' hu'

theorem Wanted.mem_of_scan {steps : List Step} (h : w.scan src steps = .ok (some v)) : .ok v ∈ steps := by
  obtain ⟨pre, post, rfl, -⟩ := scan_eq_some h
  exact mem_append_right _ mem_cons_self

/-- A declaration whose qualified name is read without its last component. -/
def NameCut (n : Node) : Prop :=
  ∃ name, declaredName? n = some name ∧ name.kind = "qualified_identifier" ∧ EndsInArguments name

/-- The answer is the declaration that has been found, or the template that has it
for its function. -/
def Visit.Direct (v : Visit) : Prop :=
  v.template = none ∨ ∃ i, v.place = v.answerPlace ++ [i]

/-- A search in the tree `root` stops at the visit `v` of a declaration which stands
within the scopes `around` and whose own scope is `real`. -/
structure StopsAt (w : Wanted) (src : Bytes) (root : Node) (v : Visit)
    (around real : List String) : Prop where
  scanned : w.scan src (visits src [] [] root) = .ok (some v)
  within : Within src root v.place v.node around
  carried : v.scope.Sublist around
  scope : realScope src around v.node = .ok real

/-- What is found lies in the scope asked for exactly if the visit carries all scopes
around it. Template arguments are ignored in one direction only: a scope that the
search does not compare exactly may end with the qualifiers by chance. -/
structure Judged (w : Wanted) (v : Visit) (around real : List String) : Prop where
  ends : ¬ NameCut v.node → v.scope = around → EndsWith real w.target.qualifiers
  full : ¬ NameCut v.node → w.target.qualifiers <:+ real → v.scope = around
  cut : NameCut v.node → EndsWith real (w.target.qualifiers ++ [w.target.leaf])

theorem realScope_of_unqualified {n : Node}
    (h : ∀ name, declaredName? n = some name → name.kind ≠ "qualified_identifier") :
    realScope src around n = .ok around := by
  unfold realScope
  split
  · next name hn =>
      rw [beq_eq_false_iff_ne.2 (h name hn)]
      rfl
  · rfl

theorem realScope_of_qualified {n name : Node} (hn : declaredName? n = some name)
    (hk : name.kind = "qualified_identifier") : realScope src around n = writtenQualifiers src name := by
  rw [realScope, hn]
  dsimp only
  rw [hk]
  rfl

/-- A search that stops has looked at the declaration with all scopes around it: that
is the visit it stops at, or an earlier one that did not declare the target. -/
theorem exists_full (hwf : root.WellFormed src) (h : w.scan src (visits src [] [] root) = .ok (some v)) :
    ∃ around, Within src root v.place v.node around ∧ v.node.kind ∈ declaringKinds ∧
      v.scope.Sublist around ∧ w.declares src v.node v.scope = .ok true ∧
      (v.scope = around ∨ w.declares src v.node around = .ok false) := by
  obtain ⟨pre, post, hst, hok, hb, hd⟩ := Wanted.scan_eq_some h
  obtain ⟨q, around, hq, hw, hk, hc⟩ := within_of_mem_visits root (Wanted.mem_of_scan h)
  obtain ⟨u, hu, hn, -, q', around', hq', hw', hs⟩ := leads_visits hwf [] [] pre v post hst hok
  rw [nil_append] at hq hq' hc hs
  subst hq hq'
  obtain ⟨-, rfl⟩ := hw.unique hw'
  refine ⟨around, hw, hk, hc, hd, ?_⟩
  -- the visit with all scopes comes first, or it is the one that the search stops at
  rcases mem_append.1 hu with hu | hu
  · right
    rw [← hn, ← hs]
    exact hb u hu
  · left
    cases mem_singleton.1 hu
    exact hs

/-- A search stops at a declaration whose scope it has judged. -/
theorem exists_judged (hwf : root.WellFormed src) (h : w.scan src (visits src [] [] root) = .ok (some v)) :
    ∃ around real, StopsAt w src root v around real ∧ Judged w v around real := by
  obtain ⟨around, hw, hk, hc, hd, hf⟩ := exists_full hwf h
  rcases declares_cases (hw.wellFormed hwf) hk hd with hin | ⟨name, has⟩
  · refine ⟨around, around, ⟨h, hw, hc, realScope_of_unqualified hin.unqualified⟩, ?_, ?_, ?_⟩
    · intro _ heq
      exact heq ▸ hin.ends
    · intro _ hs
      refine hf.resolve_right fun hnot => ?_
      cases hnot.symm.trans (hin.again around hs)
    · rintro ⟨name, hn, hq, -⟩
      exact absurd hq (hin.unqualified name hn)
  · obtain ⟨real, hr, hwh, hcut⟩ := has.ends
    -- a qualified name declares the target in any scope, so in the one around it
    have hsc : v.scope = around := by
      refine hf.resolve_right fun hnot => ?_
      cases hnot.symm.trans (has.again around)
    refine ⟨around, real, ⟨h, hw, hc, ?_⟩, ?_, fun _ _ => hsc, ?_⟩
    · rw [realScope_of_qualified has.declared has.qualified, hr]
    · intro hn _
      exact hwh fun hend => hn ⟨name, has.declared, has.qualified, hend⟩
    · rintro ⟨name', hn', -, hend⟩
      cases has.declared.symm.trans hn'
      exact hcut hend

theorem declaredName?_of_template {t c : Node} (hwf : t.WellFormed src)
    (hk : t.kind = "template_declaration") (hc : c ∈ t.children)
    (hf : c.kind = "function_definition") : declaredName? t = declaredName? c := by
  obtain ⟨item, hit⟩ := hwf.form.children_of_single (by rw [hk]; decide)
  rw [hit, mem_toList] at hc
  have hch : t.childOf? ["function_definition"] = some c := by
    rw [Node.childOf?, hit, hc]
    simp [hf]
  have ht : declaredName? t = (t.childOf? ["function_definition"]).bind nameOfFunction? := by
    rw [declaredName?, hk]
    rfl
  have hn : declaredName? c = nameOfFunction? c := by
    rw [declaredName?, hf]
    rfl
  rw [ht, hch, hn, bind_some]

/-- An answer that is the declaration found, or its template, has the same scope. -/
theorem scope_of_direct (hwf : root.WellFormed src) (hv : .ok v ∈ visits src [] [] root)
    (hw : Within src root v.place v.node around) (hd : v.Direct) :
    Within src root v.answerPlace v.answer around ∧
      realScope src around v.answer = realScope src around v.node := by
  cases hte : v.template with
  | none =>
    rw [answerPlace, answer, hte]
    exact ⟨hw, rfl⟩
  | some place =>
    obtain ⟨t, p⟩ := place
    obtain ⟨i, hi⟩ := hd.resolve_left (by rw [hte]; nofun)
    obtain ⟨q, outer, j, c, r, inner, hp, ht, hk, hc, hf, hr, hin⟩ :=
      template_of_mem_visits root hv hte
    rw [answerPlace, hte] at hi
    rw [answerPlace, answer, hte]
    -- the declaration is a child of the template, which opens no scope
    cases append_cancel_left (hr.symm.trans hi)
    have ho : opened src t = .ok [] := opened_other (by rw [hk]; decide) (by rw [hk]; decide)
    have hch := ht.trans (.child hc ho hin)
    rw [nil_append] at hp
    rw [hr, hp] at hw
    obtain ⟨-, ha⟩ := hw.unique hch
    cases hin
    rw [append_nil, append_nil] at ha
    subst ha
    have hn := declaredName?_of_template (ht.wellFormed hwf) hk (mem_of_getElem? hc) hf
    exact ⟨hp ▸ ht, by rw [realScope, realScope]; exact hn ▸ rfl⟩

theorem find_eq_answered (src : Bytes) (root : Node) (name : String) (kinds : List String) :
    find src root name kinds =
      answered ((⟨.ofString name, kinds⟩ : Wanted).scan src (visits src [] [] root)) :=
  first_eq_scan _ src root [] []

theorem exists_scan_of_find {name : String} {kinds : List String} {m : Node}
    (h : find src root name kinds = .ok (some m)) :
    ∃ v, (⟨.ofString name, kinds⟩ : Wanted).scan src (visits src [] [] root) = .ok (some v) ∧
      v.answer = m := by
  rw [find_eq_answered] at h
  cases hs : (⟨.ofString name, kinds⟩ : Wanted).scan src (visits src [] [] root) with
  | error e =>
    rw [hs] at h
    cases h
  | ok found =>
    cases found with
    | none =>
      rw [hs] at h
      cases h
    | some v =>
      rw [hs] at h
      cases h
      exact ⟨v, rfl, rfl⟩

/-- The scope of what is found by a name. The search has stopped at a declaration
whose real scope ends with the qualifiers of the name if the visit carries all scopes
around the declaration, and does not if the visit leaves some out. If the own name of
the declaration is cut, then its scope ends with the whole name asked for. The answer
has the scope of the declaration unless it is a template with the declaration deeper
inside. -/
theorem find_scope_exact {name : String} {kinds : List String} {m : Node}
    (hparse : Node.parse src = .ok root) (hfind : find src root name kinds = .ok (some m)) :
    ∃ v around real, StopsAt ⟨.ofString name, kinds⟩ src root v around real ∧ v.answer = m ∧
      (¬ NameCut v.node →
        (v.scope = around → EndsWith real (Target.ofString name).qualifiers) ∧
          ((Target.ofString name).qualifiers <:+ real → v.scope = around)) ∧
      (NameCut v.node →
        EndsWith real ((Target.ofString name).qualifiers ++ [(Target.ofString name).leaf])) ∧
      (v.Direct → Within src root v.answerPlace m around ∧ realScope src around m = .ok real) := by
  have hwf := Node.parse_wellFormed hparse
  obtain ⟨v, hscan, rfl⟩ := exists_scan_of_find hfind
  obtain ⟨around, real, hstops, hjudged⟩ := exists_judged hwf hscan
  refine ⟨v, around, real, hstops, rfl, fun hwhole => ⟨hjudged.ends hwhole, hjudged.full hwhole⟩,
    hjudged.cut, ?_⟩
  intro hdirect
  obtain ⟨hanswer, hsame⟩ := scope_of_direct hwf (Wanted.mem_of_scan hscan) hstops.within hdirect
  exact ⟨hanswer, hsame.trans hstops.scope⟩

/-- A search for `a::x` finds the function `x` of the inner namespace, whose scope is
`a::b`: the body of `b` is passed over a second time as if it stood in `a`. -/
theorem find_scope_exact_inner_space :
    let src := Bytes.ofString "namespace a \x7b namespace b \x7b void x() \x7b\x7d \x7d \x7d"
    ∃ root m v, Node.parse src = .ok root ∧
      find src root "a::x" ["function_definition"] = .ok (some m) ∧ v.answer = m ∧
      StopsAt ⟨.ofString "a::x", ["function_definition"]⟩ src root v ["a", "b"] ["a", "b"] ∧
      v.scope = ["a"] ∧ Within src root v.answerPlace m ["a", "b"] ∧
      realScope src ["a", "b"] m = .ok ["a", "b"] ∧
      ¬ EndsWith ["a", "b"] (Target.ofString "a::x").qualifiers := by
  intro src
  have hrun : (do
      let root ← (Node.parse src).toOption
      let v ← ((⟨.ofString "a::x", ["function_definition"]⟩ : Wanted).scan src
        (visits src [] [] root)).toOption.join
      let n ← standing src root v.place
      return (v.scope, n.2, v.template.isNone, (declaredName? v.node).map (·.kind))) =
        some (["a"], ["a", "b"], true, some "identifier") := by
    decide +kernel
  simp only [bind, pure, bind_eq_some_iff, toOption_eq_some, some.injEq, Prod.mk.injEq] at hrun
  obtain ⟨root, hparse, v, hv, ⟨n, around⟩, hn, hscope, rfl, htemplate, hname⟩ := hrun
  have hscan := toOption_eq_some.1 (join_eq_some_iff.1 hv)
  have hfind : find src root "a::x" ["function_definition"] = .ok (some v.answer) := by
    rw [find_eq_answered, hscan]
    rfl
  obtain ⟨v', around, real, hstops, hanswer, -, -, hdirect⟩ := find_scope_exact hparse hfind
  cases hscan.symm.trans hstops.scanned
  obtain ⟨-, rfl⟩ := hstops.within.unique (within_of_standing hn)
  have hunqualified : ∀ name, declaredName? v.node = some name →
      name.kind ≠ "qualified_identifier" := by
    intro name hsome
    rw [hsome, map_some, some.injEq] at hname
    rw [hname]
    decide
  cases (realScope_of_unqualified hunqualified).symm.trans hstops.scope
  obtain ⟨hwithin, hreal⟩ := hdirect (.inl (isNone_iff_eq_none.1 htemplate))
  exact ⟨root, v.answer, v, hparse, hfind, rfl, hstops, hscope, hwithin, hreal, by decide⟩

end Excerpt.Cpp
