import Excerpt.Diff.Hunk
import Mathlib.Algebra.Ring.Int.Defs

/-!
# Insertions

A diff without context lines that only inserts lines has one hunk for each
insertion, which names the old line before it and shows the inserted lines only.
The hunks say which lines the new text consists of: stretches of kept lines with
the inserted ones between them. By the headers alone a kept line is led to its own
line of the old text, and an inserted one to the line before its insertion.
-/

namespace Excerpt.Hunk

open List

variable {low shift next last : Int} {hs : List Hunk}

/-- The hunks insert lines, each further down than the one before it. The first stands behind old line `low`
or further down, and `shift` lines were inserted above it. -/
def Insertions (low shift : Int) : List Hunk → Prop
  | [] => True
  | h :: hs => low ≤ h.oldStart ∧ h.oldCount = 0 ∧ 1 ≤ h.newCount ∧ h.newStart = h.oldStart + 1 + shift ∧
      Insertions (h.oldStart + 1) (shift + h.newCount) hs

/-- Where a line of the new text comes from. -/
inductive Origin where
  | kept (old : Int)
  /-- Inserted behind an old line, or behind line zero at the top. -/
  | inserted (before : Int)
deriving DecidableEq

namespace Origin

/-- The line of the old text that a line stands for. -/
def line : Origin → Int
  | kept old => old
  | inserted before => before

/-- Kept lines, the last of them included. -/
def stretch (first last : Int) : List Origin :=
  (List.range (last + 1 - first).toNat).map fun i : Nat => kept (first + i)

/-- The lines that the new text has for the old lines from `next` to `last` and for the insertions of the
hunks. -/
def woven (last next : Int) : List Hunk → List Origin
  | [] => stretch next last
  | h :: hs =>
    stretch next h.oldStart ++ replicate h.newCount.toNat (inserted h.oldStart) ++ woven last (h.oldStart + 1) hs

theorem length_stretch (first last : Int) : (stretch first last).length = (last + 1 - first).toNat := by
  simp [stretch]

theorem getElem?_stretch {first : Int} {i : Nat} {o : Origin} (h : (stretch first last)[i]? = some o) :
    first + i ≤ last ∧ o = kept (first + i) := by
  rw [stretch, getElem?_map, Option.map_eq_some_iff] at h
  obtain ⟨j, hj, rfl⟩ := h
  obtain ⟨hlt, rfl⟩ := List.getElem?_eq_some_iff.1 hj
  rw [length_range] at hlt
  rw [getElem_range]
  exact ⟨by omega, rfl⟩

theorem length_woven (h : Insertions low shift hs) (hn : next ≤ low + 1)
    (hl : next ≤ last + 1) (hle : ∀ h ∈ hs, h.oldStart ≤ last) :
    ((woven last next hs).length : Int) = last + 1 - next + (hs.map newCount).sum := by
  induction hs generalizing low shift next with
  | nil =>
    rw [woven, length_stretch, map_nil, sum_nil]
    omega
  | cons hunk hs ih =>
    obtain ⟨hlow, -, hc, -, hr⟩ := h
    obtain ⟨hh, hle⟩ := forall_mem_cons.1 hle
    have hw := ih hr (Int.le_add_one (Int.le_refl _)) (Int.add_le_add_right hh 1) hle
    rw [woven, length_append, length_append, length_stretch, length_replicate, map_cons, sum_cons]
    omega

end Origin

open Origin

/-- A line of the new text is led to the old line it stands for. The hunks above inserted `shift` lines, so the
first line that is left to read is line `next + shift`. -/
theorem oldLine_woven (h : Insertions low shift hs) (hn : next ≤ low + 1) {i : Nat} {o : Origin}
    (hget : (woven last next hs)[i]? = some o) : oldLine (next + shift + i) (-shift) hs = o.line := by
  induction hs generalizing low shift next i with
  | nil =>
    obtain ⟨-, rfl⟩ := getElem?_stretch hget
    rw [oldLine, line]
    omega
  | cons hunk hs ih =>
    obtain ⟨hlow, hold, hc, hst, hr⟩ := h
    rw [oldLine, hold, hst]
    rw [woven, append_assoc, getElem?_append, length_stretch] at hget
    by_cases hk : i < (hunk.oldStart + 1 - next).toNat
    · rw [if_pos hk] at hget
      obtain ⟨hle, rfl⟩ := getElem?_stretch hget
      rw [if_pos (by omega), line]
      omega
    · rw [if_neg hk, getElem?_append, length_replicate] at hget
      rw [if_neg (by omega)]
      by_cases hnew : i - (hunk.oldStart + 1 - next).toNat < hunk.newCount.toNat
      · rw [if_pos hnew, getElem?_replicate, if_pos hnew] at hget
        obtain rfl := Option.some.inj hget
        rw [if_pos (by omega), if_pos (by omega), if_pos (by omega), line]
      · rw [if_neg hnew] at hget
        have hl := ih hr (Int.le_add_one (Int.le_refl _)) hget
        rw [if_neg (by omega), ← hl]
        congr 1 <;> omega

/-- Whatever the number of old lines, every line of the new text of hunks that only insert lines is led to its
own old line if it was kept, and to the old line before its insertion if it was inserted. -/
theorem oldLine_of_insertions (h : Insertions 0 0 hs) (hlast : 0 ≤ last)
    (hle : ∀ h ∈ hs, h.oldStart ≤ last) :
    ((woven last 1 hs).length : Int) = last + (hs.map newCount).sum ∧
      ∀ n : Int, 1 ≤ n → n ≤ last + (hs.map newCount).sum →
        ∃ o, (woven last 1 hs)[(n - 1).toNat]? = some o ∧ oldLine n 0 hs = o.line := by
  have hlength := length_woven h (Int.le_refl 1) (Int.le_add_of_nonneg_left hlast) hle
  rw [Int.add_sub_cancel] at hlength
  refine ⟨hlength, fun n hn hnle => ?_⟩
  have hbound : (n - 1).toNat < (woven last 1 hs).length := by omega
  have hline := oldLine_woven h (Int.le_refl 1) (getElem?_eq_getElem hbound)
  refine ⟨_, getElem?_eq_getElem hbound, ?_⟩
  rw [← hline]
  congr 1
  omega

/-- One line at the top, and two lines behind the second of three old lines. -/
theorem oldLine_of_two_insertions : Insertions 0 0 [⟨0, 0, 1, 1⟩, ⟨2, 0, 4, 2⟩] ∧
    woven 3 1 [⟨0, 0, 1, 1⟩, ⟨2, 0, 4, 2⟩] =
      [.inserted 0, .kept 1, .kept 2, .inserted 2, .inserted 2, .kept 3] ∧
    ∃ o, (woven 3 1 [⟨0, 0, 1, 1⟩, ⟨2, 0, 4, 2⟩])[4]? = some o ∧
      oldLine 5 0 [⟨0, 0, 1, 1⟩, ⟨2, 0, 4, 2⟩] = o.line := by
  have h : Insertions 0 0 [⟨0, 0, 1, 1⟩, ⟨2, 0, 4, 2⟩] := by simp [Insertions]
  exact ⟨h, by decide, (oldLine_of_insertions h (by decide) (by decide)).2 5 (by decide) (by decide)⟩

end Excerpt.Hunk
