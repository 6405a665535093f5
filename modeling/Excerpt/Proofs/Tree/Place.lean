import Excerpt.Proofs.Tree.Token
import Mathlib.Data.List.Induction

/-!
# The points of tokens

A point is right for an offset of a source if its row counts the line feeds
before the offset and its column the bytes since the last of them (`Marks`). The
points that tokens carry along are right for their offsets.
-/

namespace Excerpt

open List Bytes

namespace Point

variable {src : Bytes} {i j : Nat}

/-- The point has the row and the column of the byte offset. -/
structure Marks (src : Bytes) (p : Point) (i : Nat) : Prop where
  row : p.row = (src.take i).count newline
  column : p.column = ((src.take i).reverse.takeWhile (· != newline)).length

theorem column_after (bs : Bytes) :
    (origin.after bs).column = (bs.reverse.takeWhile (· != newline)).length := by
  induction bs using List.reverseRecOn with
  | nil => rfl
  | append_singleton bs b ih =>
    rw [after_append, after_cons, after_nil, reverse_append, reverse_singleton,
      singleton_append, takeWhile_cons]
    by_cases hb : b = newline
    · simp [step, hb]
    · simp [step, hb, ih]

theorem row_ofOffset (src : Bytes) (i : Nat) : (ofOffset src i).row = Bytes.newlines (src.take i) := by
  rw [ofOffset, row_after, origin, Nat.zero_add]

theorem marks_ofOffset (src : Bytes) (i : Nat) : (ofOffset src i).Marks src i :=
  ⟨row_ofOffset src i, column_after _⟩

/-- Reading on from an offset leads to the later one. -/
theorem ofOffset_after_slice (h : i ≤ j) : (ofOffset src i).after (src.slice i j) = ofOffset src j := by
  rw [ofOffset, ofOffset, ← after_append, slice]
  nth_rewrite 1 [← Nat.min_eq_left h]
  rw [← take_take, take_append_drop]

theorem newlines_take_add_slice (h : i ≤ j) :
    Bytes.newlines (src.take i) + (src.slice i j).newlines = Bytes.newlines (src.take j) := by
  rw [← row_ofOffset, ← row_ofOffset, ← row_after, ofOffset_after_slice h]

end Point

namespace Token

variable {src : Bytes} {t : Token}

theorem point_eq (h : t ∈ scan src) : t.point = .ofOffset src t.start := by
  obtain ⟨ts, k, hk⟩ := exists_resumes_of_mem h
  rw [hk.point, hk.start, Nat.zero_add]
  rfl

theorem endPoint_eq (h : t ∈ scan src) : t.endPoint = .ofOffset src t.stop := by
  rw [endPoint, point_eq h, ← slice_of_mem_scan h]
  exact Point.ofOffset_after_slice (Nat.le_add_right _ _)

end Token

end Excerpt
