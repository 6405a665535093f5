import Excerpt.Text.Split
import Mathlib.Data.List.Basic

/-!
# Cutting a text into its lines

A text that joins lines by a line feed is cut back into these lines, provided
that no line holds a line feed of its own. The parts between separators hold none,
and joining them gives the text back. Names joined by `::` are cut back into the
names in the same way.
-/

namespace Excerpt

open List

namespace Text

variable {c d : Char} {cs part word : List Char} {sep : String} {ls : List (List Char)} {parts : List String}

/-- The rest of a separator is passed over. -/
theorem partsFrom_length_append (sep word cs : List Char) :
    partsFrom sep word.length (word ++ cs) = partsFrom sep 0 cs := by
  induction word with
  | nil => rfl
  | cons c word ih => exact ih

/-- A text without the first character of the separator is one part. -/
theorem partsFrom_of_not_mem (h : c ∉ cs) : partsFrom (c :: word) 0 cs = [cs] := by
  induction cs with
  | nil => rfl
  | cons x xs ih =>
    rw [mem_cons, not_or] at h
    simp [partsFrom, ih h.2, consHead, h.1]

theorem partsFrom_append_word (h : c ∉ cs) (ds : List Char) :
    partsFrom (c :: word) 0 (cs ++ (c :: word) ++ ds) = cs :: partsFrom (c :: word) 0 ds := by
  induction cs with
  | nil =>
    have hw : (c :: word).isPrefixOf (c :: (word ++ ds)) :=
      isPrefixOf_iff_prefix.2 (List.prefix_append (c :: word) ds)
    rw [nil_append, cons_append, partsFrom, hw]
    exact congrArg _ (partsFrom_length_append (c :: word) word ds)
  | cons x xs ih =>
    rw [mem_cons, not_or] at h
    rw [cons_append, cons_append, partsFrom, ih h.2]
    simp [consHead, h.1]

theorem partsFrom_append (h : c ∉ cs) (ds : List Char) :
    partsFrom [c] 0 (cs ++ c :: ds) = cs :: partsFrom [c] 0 ds := by
  rw [← partsFrom_append_word h, append_assoc, singleton_append]

theorem partsFrom_intercalate (word : List Char) (hne : ls ≠ [])
    (h : ∀ l ∈ ls, c ∉ l) : partsFrom (c :: word) 0 (List.intercalate (c :: word) ls) = ls := by
  induction ls with
  | nil => exact absurd rfl hne
  | cons l ls ih =>
    have hl := forall_mem_cons.1 h
    cases ls with
    | nil =>
      rw [intercalate_singleton]
      exact partsFrom_of_not_mem hl.1
    | cons m ms =>
      have hr := ih (by simp) hl.2
      rw [intercalate_cons_cons, partsFrom_append_word hl.1, hr]

theorem partsFrom_ne_nil (c : Char) (cs : List Char) : partsFrom [c] 0 cs ≠ [] := by
  cases cs with
  | nil => simp [partsFrom]
  | cons d ds =>
    rw [partsFrom]
    split
    · simp
    · cases partsFrom [c] 0 ds <;> simp [consHead]

theorem partsFrom_cons_of_ne (h : c ≠ d) (ds : List Char) :
    partsFrom [c] 0 (d :: ds) = consHead d (partsFrom [c] 0 ds) := by
  simp [partsFrom, h]

theorem not_mem_of_mem_partsFrom : ∀ part ∈ partsFrom [c] 0 cs, c ∉ part := by
  induction cs with
  | nil => simp [partsFrom]
  | cons d ds ih =>
    by_cases hd : c = d
    · subst hd
      rw [← nil_append (c :: ds), partsFrom_append not_mem_nil]
      simpa using ih
    · rw [partsFrom_cons_of_ne hd]
      cases hp : partsFrom [c] 0 ds with
      | nil => exact absurd hp (partsFrom_ne_nil c ds)
      | cons part parts =>
        rw [hp] at ih
        rw [consHead, forall_mem_cons, mem_cons, not_or]
        exact ⟨⟨hd, ih part mem_cons_self⟩, fun q hq => ih q (mem_cons_of_mem _ hq)⟩

theorem intercalate_partsFrom (c : Char) (cs : List Char) :
    List.intercalate [c] (partsFrom [c] 0 cs) = cs := by
  induction cs with
  | nil => rfl
  | cons d ds ih =>
    cases hp : partsFrom [c] 0 ds with
    | nil => exact absurd hp (partsFrom_ne_nil c ds)
    | cons part parts =>
      rw [hp] at ih
      by_cases hd : c = d
      · subst hd
        rw [← nil_append (c :: ds), partsFrom_append not_mem_nil, hp, intercalate_cons_cons, ih]
        rfl
      · rw [partsFrom_cons_of_ne hd, hp, consHead]
        cases parts with
        | nil =>
          rw [intercalate_singleton] at ih ⊢
          rw [ih]
        | cons q qs =>
          rw [intercalate_cons_cons] at ih ⊢
          rw [cons_append, cons_append, ih]

theorem intercalate_concat_append (sep : List Char) (ls : List (List Char)) (l m : List Char) :
    List.intercalate sep (ls ++ [l ++ m]) = List.intercalate sep (ls ++ [l]) ++ m := by
  induction ls with
  | nil => simp
  | cons k ls ih =>
    cases ls with
    | nil => simp [intercalate_cons_cons]
    | cons k' ls =>
      rw [cons_append, cons_append] at ih ⊢
      rw [cons_append, cons_append, intercalate_cons_cons, ih, intercalate_cons_cons]
      simp only [append_assoc]

/-- A character behind a text belongs to its last part. -/
theorem partsFrom_concat (h : d ≠ c) {ps : List (List Char)} {p : List Char}
    (hps : partsFrom [c] 0 cs = ps ++ [p]) : partsFrom [c] 0 (cs ++ [d]) = ps ++ [p ++ [d]] := by
  have hj := intercalate_partsFrom c cs
  have hno : ∀ part ∈ partsFrom [c] 0 cs, c ∉ part := not_mem_of_mem_partsFrom
  rw [hps] at hj hno
  rw [← hj, ← intercalate_concat_append]
  refine partsFrom_intercalate [] (by simp) ?_
  intro q hq
  rcases mem_append.1 hq with hq | hq
  · exact hno q (mem_append_left _ hq)
  · rw [mem_singleton.1 hq, mem_append, not_or, mem_singleton]
    exact ⟨hno p (mem_append_right _ mem_cons_self), Ne.symm h⟩

theorem split_ofList_intercalate (hne : ls ≠ []) (h : ∀ l ∈ ls, '\n' ∉ l) :
    split "\n" (String.ofList (List.intercalate ['\n'] ls)) = ls.map String.ofList := by
  have hp := partsFrom_intercalate [] hne h
  have hsep : "\n".toList = ['\n'] := by decide
  rw [split, hsep, String.toList_ofList, hp]

/-- Parts joined by one character are cut apart again. -/
theorem split_join (hsep : sep.toList = [c]) (hne : parts ≠ [])
    (h : ∀ s ∈ parts, c ∉ s.toList) : split sep (join sep parts) = parts := by
  have hno : ∀ l ∈ parts.map String.toList, c ∉ l := by simpa using h
  have hp := partsFrom_intercalate [] (by simpa using hne) hno
  rw [split, join, hsep, String.toList_ofList, hp, List.map_map]
  simp

theorem toList_join_cons_cons (sep a b : String) (parts : List String) : (join sep (a :: b :: parts)).toList =
      a.toList ++ sep.toList ++ (join sep (b :: parts)).toList := by
  rw [join, join, String.toList_ofList, String.toList_ofList, map_cons, map_cons, intercalate_cons_cons]

theorem not_mem_join (hsep : c ∉ sep.toList)
    (h : ∀ s ∈ parts, c ∉ s.toList) : c ∉ (join sep parts).toList := by
  induction parts with
  | nil => simp [join]
  | cons a parts ih =>
    obtain ⟨ha, hp⟩ := forall_mem_cons.1 h
    cases parts with
    | nil => simpa [join] using ha
    | cons b parts =>
      rw [toList_join_cons_cons, mem_append, mem_append]
      rintro ((hmem | hmem) | hmem)
      · exact ha hmem
      · exact hsep hmem
      · exact ih hp hmem

theorem partsFrom_of_not_hasPart {sep : List Char} (h : hasPart sep cs = false) :
    partsFrom sep 0 cs = [cs] := by
  induction cs with
  | nil => rfl
  | cons c cs ih =>
    rw [hasPart, Bool.or_eq_false_iff] at h
    simp [partsFrom, h.1, ih h.2, consHead]

theorem split_of_not_contains {s : String} (h : contains s sep = false) : split sep s = [s] := by
  rw [split, partsFrom_of_not_hasPart h, map_singleton, String.ofList_toList]

/-- A part starts nowhere among characters that are not its first one. -/
theorem hasPart_append_of_not_mem {lead : List Char} (h : c ∉ lead) (cs : List Char) :
    hasPart (c :: part) (lead ++ cs) = hasPart (c :: part) cs := by
  induction lead with
  | nil => rfl
  | cons d lead ih =>
    rw [mem_cons, not_or] at h
    rw [cons_append, hasPart, ih h.2]
    simp [List.isPrefixOf, h.1]

theorem hasPart_of_not_mem (h : c ∉ cs) : hasPart (c :: part) cs = false := by
  rw [← append_nil cs, hasPart_append_of_not_mem h]
  rfl

/-- Names joined by `::` are cut back into the names. -/
theorem split_colons_join {names : List String} (hne : names ≠ [])
    (h : ∀ name ∈ names, ':' ∉ name.toList) : split "::" (join "::" names) = names := by
  have hsep : "::".toList = [':', ':'] := by decide
  have hp := partsFrom_intercalate [':'] (by simpa using hne) (List.forall_mem_map.2 h)
  rw [split, join, hsep, String.toList_ofList, hp, List.map_map]
  exact map_id'' (fun _ => String.ofList_toList) names

end Text

end Excerpt
