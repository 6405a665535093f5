import Excerpt.Proofs.Diff.Unified

/-!
# Reading written headers

The header of a written hunk is read back with its four numbers, whether its
counts are written out or left out, and no other line of a written diff is read
as a header.
-/

namespace Excerpt

open List Option

namespace Text

theorem toNat_of_isDigit {c : Char} (h : c.isDigit) : 48 ≤ c.toNat ∧ c.toNat ≤ 57 := by
  simp only [Char.isDigit, Bool.and_eq_true, decide_eq_true_eq, ge_iff_le] at h
  exact ⟨UInt32.le_iff_toNat_le.1 h.1, UInt32.le_iff_toNat_le.1 h.2⟩

theorem digit?_of_isDigit {c : Char} (h : c.isDigit) : digit? c = some (c.toNat - 48) := by
  simp [digit?, zeros, toNat_of_isDigit h]

theorem isDigit_of_mem_toDigits {n : Nat} {c : Char} (h : c ∈ Nat.toDigits 10 n) : isDigit c := by
  have hc := Nat.isDigit_of_mem_toDigits (by decide) (by decide) h
  rw [isDigit, digit?_of_isDigit hc]
  rfl

theorem digitsValue_toDigits (n : Nat) : digitsValue (Nat.toDigits 10 n) = n := by
  have hf : ∀ (cs : List Char) (k : Nat), (∀ c ∈ cs, c.isDigit) →
      cs.foldl (fun n c => n * 10 + (digit? c).getD 0) k = Nat.ofDigitChars 10 cs k := by
    intro cs
    induction cs with
    | nil => intro k _; rfl
    | cons c cs ih =>
      intro k h
      have hc := forall_mem_cons.1 h
      rw [foldl_cons, Nat.ofDigitChars_cons, ih _ hc.2, digit?_of_isDigit hc.1, getD_some, Nat.mul_comm]
      rfl
  rw [digitsValue, hf _ 0 fun c hc => Nat.isDigit_of_mem_toDigits (by decide) (by decide) hc]
  exact Nat.ofDigitChars_ten_toDigits

end Text

namespace Hunk

open Unified

/-- A written number is read back, up to a character that is no digit. -/
theorem number_toDigits (n : Nat) {rest : List Char} (hr : ∀ c ∈ rest.head?, Text.isDigit c = false) :
    number (Nat.toDigits 10 n ++ rest) = some ((n : Int), rest) := by
  have hd : ∀ c ∈ Nat.toDigits 10 n, Text.isDigit c := fun c hc =>
    Text.isDigit_of_mem_toDigits hc
  have ht : (Nat.toDigits 10 n ++ rest).takeWhile Text.isDigit = Nat.toDigits 10 n := by
    rw [takeWhile_append_of_pos hd]
    cases rest with
    | nil => simp
    | cons c rest => simp [hr c (by simp)]
  have hdr : (Nat.toDigits 10 n ++ rest).dropWhile Text.isDigit = rest := by
    rw [dropWhile_append_of_pos hd]
    cases rest with
    | nil => rfl
    | cons c rest => simp [hr c (by simp)]
  unfold number
  simp only [ht, hdr, Text.digitsValue_toDigits]
  rw [if_neg (by simp [Nat.toDigits_ne_nil])]

theorem range_writtenRange (brief : Bool) (start count : Nat) {rest : List Char}
    (hr : rest.head? = some ' ') : range (writtenRange brief start count ++ rest) =
      some (((start : Int), (count : Int)), rest) := by
  obtain ⟨tail, rfl⟩ := head?_eq_some_iff.1 hr
  have hb : ∀ c ∈ (' ' :: tail).head?, Text.isDigit c = false := by
    intro c hc
    obtain rfl : ' ' = c := by simpa using hc
    decide
  have hco : ∀ (ds : List Char), ∀ c ∈ (',' :: ds).head?, Text.isDigit c = false := by
    intro ds c hc
    obtain rfl : ',' = c := by simpa using hc
    decide
  unfold writtenRange
  split
  · next hbr =>
    have hone : count = 1 := by simpa using (Bool.and_eq_true_iff.1 hbr).2
    subst hone
    simp [range, number_toDigits start hb]
  · rw [append_assoc, cons_append]
    simp [range, number_toDigits start (hco _), number_toDigits count hb]

theorem expect_append (word rest : List Char) : expect word (word ++ rest) = some rest := by
  simp [expect]

/-- The header of a written hunk is read back. -/
theorem header?_header (b : Block) (old new : Nat) : header? (b.header old new) =
      some ⟨old, (olds b.body).length, new, (news b.body).length⟩ := by
  have hm : "@@ -".toList = ['@', '@', ' ', '-'] := by decide
  have hp : " +".toList = [' ', '+'] := by decide
  have hc : " @@".toList = [' ', '@', '@'] := by decide
  unfold header? Block.header
  rw [hm, hp, hc, append_assoc, expect_append]
  simp only [bind_eq_bind, bind_some]
  rw [range_writtenRange _ _ _ rfl]
  simp only [bind_some]
  rw [append_assoc, expect_append]
  simp only [bind_some]
  rw [range_writtenRange _ _ _ rfl]
  simp only [bind_some]
  rw [expect_append]
  rfl

/-- A line that does not start with two at signs is no header. -/
theorem header?_eq_none {line : List Char} (h : ¬ ['@', '@'] <+: line) : header? line = none := by
  have hm : "@@ -".toList = ['@', '@', ' ', '-'] := by decide
  have hno : ¬ ['@', '@', ' ', '-'] <+: line := fun hpre =>
    h (IsPrefix.trans ⟨[' ', '-'], rfl⟩ hpre)
  unfold header?
  rw [hm, expect, if_neg (by rwa [ isPrefixOf_iff_prefix])]
  rfl

theorem header?_written (l : Line) : header? l.written = none := by
  refine header?_eq_none ?_
  cases l <;> simp [Line.written, cons_prefix_cons]

end Hunk

end Excerpt
