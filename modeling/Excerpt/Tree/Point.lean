import Excerpt.Text.Bytes

/-!
# Points

A point names a place in a source by the number of line feeds before it and the number of bytes since
the last of them. Points are carried along while bytes are read, so that no text is counted twice.
-/

namespace Excerpt

/-- A row and a column, both counted from zero; the column counts bytes. -/
structure Point where
  row : Nat
  column : Nat
deriving Repr, DecidableEq, Inhabited

namespace Point

/-- The start of every source. -/
def origin : Point := ⟨0, 0⟩

/-- The point after one more byte. -/
def step (p : Point) (b : UInt8) : Point :=
  if b = Bytes.newline then ⟨p.row + 1, 0⟩ else ⟨p.row, p.column + 1⟩

/-- The point reached from `p` by reading `bs`. -/
def after (p : Point) (bs : Bytes) : Point :=
  bs.foldl step p

def ofOffset (src : Bytes) (offset : Nat) : Point :=
  origin.after (src.take offset)

@[simp] theorem after_nil (p : Point) : p.after [] = p := rfl

theorem after_cons (p : Point) (b : UInt8) (bs : Bytes) : p.after (b :: bs) = (p.step b).after bs := rfl

theorem after_append (p : Point) (as bs : Bytes) : p.after (as ++ bs) = (p.after as).after bs :=
  List.foldl_append ..

theorem row_after (p : Point) (bs : Bytes) : (p.after bs).row = p.row + bs.newlines := by
  induction bs generalizing p with
  | nil => rfl
  | cons b bs ih =>
    rw [after_cons, ih]
    by_cases h : b = Bytes.newline <;> (simp [step, Bytes.newlines, h]; try omega)

end Point

end Excerpt
