import Excerpt.Proofs.Macro.Definition
import Excerpt.Proofs.Macro.OneOf

/-!
# Names as they stand in queries

A name is written into the text of a query between quotes, as it is. If it does not
close the quotes itself, what is found bears the name. A name that closes the quotes
and opens them again is read as several arguments of a test, of which only the first
is looked at: it finds what its beginning finds (`spliced_name`).
-/

namespace Excerpt

open List Option Outcome

variable {src : Bytes} {root : Node} {name value word : String} {args more : List String}

namespace Query

variable {name word between tail : String}

theorem head?_of_sealed (h : Sealed name.toList) : name.toList.head? ≠ some '"' := by
  intro hh
  obtain ⟨cs, hcs⟩ := head?_eq_some_iff.1 hh
  rw [Sealed, hcs, cons_append, quotedLength, length_cons] at h
  cases h

/-- The name that closes its quotes behind `word` and opens them again before `tail`. -/
def spliced (word between tail : String) : String :=
  word ++ "\"" ++ between ++ " \"" ++ tail

theorem readsAs_spliced (hw : Sealed word.toList) (ht : Sealed tail.toList)
    (hq : '"' ∉ between.toList) (hc : ';' ∉ between.toList) (hcl : ")" ∉ tokens between.toList) :
    ReadsAs (spliced word between tail) (quoted word :: (tokens between.toList ++ [quoted tail])) := by
  refine ⟨fun ds => ?_, ?_⟩
  · have hl : (spliced word between tail).toList ++ '"' :: ds =
        word.toList ++ '"' :: (between.toList ++ ' ' :: '"' :: (tail.toList ++ '"' :: ds)) := by
      simp [spliced]
    rw [hl, tokens_quoted hw, tokens_append_blank hq hc, tokens_quoted ht]
    simp [quoted]
  · simpa [hcl] using ⟨(quoted_ne word (by decide)).symm, (quoted_ne tail (by decide)).symm⟩

end Query

open Query

theorem MacroUse.named_congr
    (hp : Node.parse src = .ok root) (hn : ReadsAs name (value :: args))
    (hw : ReadsAs word (value :: more)) : named src root name = named src root word := by
  rw [named, named, searched, searched, search_query hp (by decide) hn (decides_value src value args),
    search_query hp (by decide) hw (decides_value src value more)]

theorem MacroDefinition.find?_congr
    (hp : Node.parse src = .ok root) (hn : ReadsAs name (value :: args))
    (hw : ReadsAs word (value :: more)) : find? src root name = find? src root word := by
  rw [find?, find?, captured_named hp hn, captured_named hp hw]

theorem MacroUse.name_of_mem_named {u : MacroUse} {uses : List MacroUse}
    (hpa : Node.parse src = .ok root) (hn : ReadsAs name (value :: args))
    (hus : (named src root name).outcome = .ok uses) (hu : u ∈ uses) : u.name = Predicate.value value := by
  unfold named searched at hus
  rw [search_query hpa (by decide) hn (decides_value src value args)] at hus
  dsimp only at hus
  split at hus
  · next hf =>
      cases hus
      obtain ⟨n, -, callee, list, -, hp, hm⟩ := exists_of_mem_found hf hu
      obtain ⟨-, -, hc⟩ := ofNodes_eq_ok hm
      have hd := mapError_eq_ok.1 (hc callee rfl)
      rw [isNamed, Utf8.decodeLossy_of_decode hd] at hp
      exact beq_iff_eq.1 hp
  · cases hus
    cases hu

theorem MacroDefinition.name_of_find? {d : MacroDefinition} (hp : Node.parse src = .ok root)
    (hna : ReadsAs name (value :: args)) (hd : find? src root name = .ok (some d)) :
    d.name = Predicate.value value := by
  rw [find?, captured_named hp hna, ok_bind] at hd
  split at hd
  · next n hn =>
      obtain ⟨-, hde⟩ := mem_filter.1 (mem_of_head? hn)
      rw [defines_eq hd] at hde
      exact beq_iff_eq.1 hde
  · cases hd

/-- What is found bears the name, if the name does not close its quotes and does not end with one. A name
that closes its quotes and opens them again finds what stands before them. -/
theorem spliced_name {src : Bytes} {root : Node} (hparse : Node.parse src = .ok root) :
    (∀ name : String, Sealed name.toList → name.toList.getLast? ≠ some '"' →
      (∀ uses, (MacroUse.named src root name).outcome = .ok uses → ∀ u ∈ uses, u.name = name) ∧
      ∀ d, MacroDefinition.find? src root name = .ok (some d) → d.name = name) ∧
    ∀ word between tail : String, Sealed word.toList → Sealed tail.toList → '"' ∉ between.toList →
      ';' ∉ between.toList → ")" ∉ tokens between.toList →
      MacroUse.named src root (spliced word between tail) = MacroUse.named src root word ∧
      MacroDefinition.find? src root (spliced word between tail) =
        MacroDefinition.find? src root word := by
  refine ⟨fun name hname hlast => ?_, fun word between tail hword htail hquote hcomment hclose => ?_⟩
  · have hreads := readsAs_of_sealed hname
    have hvalue := Query.value_of_ends (head?_of_sealed hname) hlast
    exact ⟨fun uses huses u hu => (MacroUse.name_of_mem_named hparse hreads huses hu).trans hvalue,
      fun d hd => (MacroDefinition.name_of_find? hparse hreads hd).trans hvalue⟩
  · have hreads := readsAs_spliced hword htail hquote hcomment hclose
    exact ⟨MacroUse.named_congr hparse hreads (readsAs_of_sealed hword),
      MacroDefinition.find?_congr hparse hreads (readsAs_of_sealed hword)⟩

/-- A name with quotes in it finds a use and a definition of the word before them. -/
theorem spliced_name_quotes :
    let src := Bytes.ofString "#define A 1\nA(1);\n"
    ∃ (root : Node) (u : MacroUse) (d : MacroDefinition), Node.parse src = .ok root ∧
      MacroUse.named src root "A\" \"" = .ofValue [u] ∧ u.name = "A" ∧
      MacroDefinition.find? src root "A\" \"" = .ok (some d) ∧ d.name = "A" := by
  intro src
  have hrun : (do
      let root ← (Node.parse src).toOption
      let uses ← (MacroUse.walked src root ["A"]).toOption
      let n ← ((root.preorder.filter Node.isDefine).filter (MacroDefinition.defines src "A")).head?
      let found ← (MacroDefinition.ofNode? src n).toOption
      return uses.length == 1 && found.isSome) = some true := by
    decide +kernel
  simp only [bind, pure, bind_eq_some_iff, toOption_eq_some, some.injEq, Bool.and_eq_true, beq_iff_eq] at hrun
  obtain ⟨root, hparse, uses, huses, n, hn, found, hfound, hrun⟩ := hrun
  obtain ⟨u, rfl⟩ := length_eq_one_iff.1 hrun.1
  obtain ⟨d, rfl⟩ := isSome_iff_exists.1 hrun.2
  have hplain : '"' ∉ "A".toList ∧ '\\' ∉ "A".toList := by decide
  have hsealed := sealed_of_plain hplain.1 hplain.2
  have hnamed := MacroUse.named_of_walked (Utf8.decode_ofString _) hparse hplain.1 hplain.2 huses
  have hfind : MacroDefinition.find? src root "A" = .ok (some d) := by
    rw [MacroDefinition.find?_eq hparse hplain.1 hplain.2, hn]
    exact hfound
  obtain ⟨hfaithful, hspliced⟩ := spliced_name hparse
  obtain ⟨huse, hdefinition⟩ := hfaithful "A" hsealed (by decide)
  obtain ⟨hsame, hsame'⟩ := hspliced "A" "" "" hsealed (sealed_of_plain (by decide) (by decide))
    (by decide) (by decide) (by decide +kernel)
  exact ⟨root, u, d, hparse, hsame.trans hnamed, huse _ (by rw [hnamed]; rfl) u mem_cons_self,
    hsame'.trans hfind, hdefinition d hfind⟩

end Excerpt
