import Excerpt.Text.Line
import Excerpt.Text.Split
import Mathlib.Data.List.Basic

/-!
# Joining and cutting lines

A text that joins lines by a line feed is cut back into them, except that an
empty last line is lost: the line feed before it is read as the end of the line
before. The lines that a text is cut into hold no line end, so they can be
joined and cut again.
-/

namespace Excerpt

open List

namespace Text

variable {l : List Char} {ls : List (List Char)}

theorem linesOf_cons {c : Char} (hc : isLineEnd c = false) (cs : List Char) :
    linesOf (c :: cs) = consHead c (linesOf cs) := by
  rw [linesOf]
  · rw [if_neg (by simp [hc])]
    cases linesOf cs <;> rfl
  · rintro ds rfl -
    exact absurd hc (by decide)

theorem linesOf_append_newline (hl : ∀ c ∈ l, isLineEnd c = false) (cs : List Char) :
    linesOf (l ++ '\n' :: cs) = l :: linesOf cs := by
  induction l with
  | nil => rw [nil_append, linesOf] <;> simp [isLineEnd]
  | cons c l ih =>
    obtain ⟨hc, hl⟩ := forall_mem_cons.1 hl
    rw [cons_append, linesOf_cons hc, ih hl, consHead]

theorem linesOf_of_no_end (hl : ∀ c ∈ l, isLineEnd c = false) (hne : l ≠ []) : linesOf l = [l] := by
  induction l with
  | nil => exact absurd rfl hne
  | cons c l ih =>
    obtain ⟨hc, hl⟩ := forall_mem_cons.1 hl
    rw [linesOf_cons hc]
    by_cases hnil : l = []
    · subst hnil
      rfl
    · rw [ih hl hnil, consHead]

/-- Joined lines are cut back into the same lines, less an empty last one. -/
theorem linesOf_intercalate (h : ∀ l ∈ ls, ∀ c ∈ l, isLineEnd c = false) :
    linesOf (List.intercalate ['\n'] ls) = if ls.getLast? = some [] then ls.dropLast else ls := by
  induction ls with
  | nil => rfl
  | cons l ls ih =>
    obtain ⟨hl, hls⟩ := forall_mem_cons.1 h
    cases ls with
    | nil =>
      rw [intercalate_singleton]
      by_cases hne : l = []
      · subst hne
        rfl
      · rw [linesOf_of_no_end hl hne]
        simp [hne]
    | cons m ms =>
      rw [intercalate_cons_cons, append_assoc, singleton_append,
        linesOf_append_newline hl, ih hls, getLast?_cons_cons, dropLast_cons_cons]
      split <;> rfl

theorem linesOf_no_end (cs : List Char) : ∀ l ∈ linesOf cs, ∀ c ∈ l, isLineEnd c = false := by
  fun_induction linesOf cs with
  | case1 => simp
  | case2 cs ih => simpa using ih
  | case3 c cs _ _ ih => simpa using ih
  | case4 c cs _ hc hnil ih => simpa using hc
  | case5 c cs _ hc line lines hco ih =>
    rw [hco] at ih
    simp only [forall_mem_cons] at ih ⊢
    exact ⟨⟨by simpa using hc, ih.1⟩, ih.2⟩

/-- The lines without the last one if that is empty. -/
def dropEmptyLast (ls : List String) : List String :=
  if ls.getLast? = some "" then ls.dropLast else ls

theorem mem_dropEmptyLast {l : String} {ls : List String} (h : l ∈ ls) (hne : l ≠ "") :
    l ∈ dropEmptyLast ls := by
  unfold dropEmptyLast
  split
  · next hl =>
      rw [← dropLast_append_getLast? "" hl, mem_append, mem_singleton] at h
      exact h.resolve_right hne
  · exact h

theorem lines_join {ls : List String} (h : ∀ l ∈ ls, ∀ c ∈ l.toList, isLineEnd c = false) :
    lines (join "\n" ls) = dropEmptyLast ls := by
  have hsep : "\n".toList = ['\n'] := by decide
  have hcut : linesOf (List.intercalate ['\n'] (ls.map String.toList)) = _ :=
    linesOf_intercalate (by simpa using h)
  have hl : (ls.map String.toList).getLast? = some [] ↔ ls.getLast? = some "" := by
    rw [getLast?_map, Option.map_eq_some_iff]
    simp [String.toList_eq_nil_iff]
  rw [lines, join, hsep, String.toList_ofList, hcut, dropEmptyLast]
  split
  · next hem =>
    rw [if_pos (hl.1 hem), ← map_dropLast, List.map_map]
    simp
  · next hf =>
    rw [if_neg (mt hl.2 hf), List.map_map]
    simp

theorem infix_join {l : String} {ls : List String} (sep : String) (h : l ∈ ls) :
    l.toList <:+: (join sep ls).toList := by
  rw [join, String.toList_ofList]
  induction ls with
  | nil => cases h
  | cons a ls ih =>
    cases ls with
    | nil =>
      obtain rfl := mem_singleton.1 h
      simp only [map_singleton, intercalate_singleton]
      exact infix_rfl
    | cons b ls =>
      rw [map_cons, map_cons, intercalate_cons_cons]
      rcases mem_cons.1 h with rfl | h
      · exact (List.prefix_append _ _).isInfix.trans (List.prefix_append _ _).isInfix
      · exact (ih h).trans (suffix_append _ _).isInfix

/-- The rows above the last one have a line each. -/
theorem count_le_length_linesOf (cs : List Char) : cs.count '\n' ≤ (linesOf cs).length := by
  fun_induction linesOf cs with
  | case1 => exact Nat.le_refl _
  | case2 cs ih => simpa using ih
  | case3 c cs _ _ ih =>
    rw [count_cons, length_cons]
    split <;> omega
  | case4 c cs _ hc hnil ih =>
    rw [hnil] at ih
    rw [count_cons, length_cons]
    split <;> omega
  | case5 c cs _ hc line lines hco ih =>
    have hne : c ≠ '\n' := fun heq => hc (heq ▸ rfl)
    rw [hco] at ih
    rw [count_cons_of_ne hne]
    exact ih

theorem count_le_count_unifyEndsOf (cs : List Char) : cs.count '\n' ≤ (unifyEndsOf cs).count '\n' := by
  fun_induction unifyEndsOf cs with
  | case1 => exact Nat.le_refl _
  | case2 cs ih => simpa using ih
  | case3 c cs _ ih =>
    by_cases hc : c = '\r'
    · subst hc
      simp
      omega
    · simp only [beq_iff_eq, hc, if_false, count_cons]
      omega

theorem count_le_length_lines_unifyEnds (s : String) :
    s.toList.count '\n' ≤ (lines (unifyEnds s)).length := by
  rw [lines, length_map, unifyEnds, String.toList_ofList]
  exact Nat.le_trans (count_le_count_unifyEndsOf _) (count_le_length_linesOf _)

theorem lines_no_end (s : String) : ∀ l ∈ lines s, ∀ c ∈ l.toList, isLineEnd c = false := by
  intro l hl
  obtain ⟨cs, hcs, rfl⟩ := List.mem_map.1 hl
  rw [String.toList_ofList]
  exact linesOf_no_end _ cs hcs

end Text

end Excerpt
