import Excerpt.Tree.Token
import Mathlib.Data.List.Basic
import Mathlib.Data.Option.Basic

/-!
# Where tokens stand

A token of a source is what the reader finds at its offset: its bytes are the
slice of the source from its start to its end. So the first byte of a token
tells its class, and in particular template arguments start with `<`, and a
token that is no word starts with no letter.
-/

namespace Excerpt

open List Option

namespace Lexeme

variable {b : UInt8} {cs : Bytes} {k : Token.Kind} {n : Nat}

theorem lt_of_mem_operators (h : b ∈ operators) : b < 128 := by
  have hall : operators.all (· < 128) := by decide
  exact of_decide_eq_true (List.all_eq_true.1 hall b h)

theorem mem_operators_of_read
    (h : read.operator b cs = some (.token k, n)) : b ∈ operators ∧ k = .operator := by
  unfold read.operator at h
  split at h
  · next hb =>
      cases h
      rw [Bool.and_eq_true, beq_iff_eq] at hb
      exact ⟨by rw [hb.1]; decide, rfl⟩
  · rw [ite_none_right_eq_some] at h
    obtain ⟨hb, hk⟩ := h
    cases hk
    exact ⟨contains_iff_mem.1 hb, rfl⟩

/-- What the first byte of a token says about its class. -/
theorem read_cases (h : read b cs = some (.token k, n)) :
    k = .word ∨ (isWordStart b = false ∧ b < 128 ∧ (k = .angled → b = 60)) := by
  have hd : isDigit b → b < 128 := by
    unfold isDigit
    grind
  unfold read at h
  split at h
  · cases h
  split at h
  · cases h
  split at h
  · next hb =>
      cases h
      rw [Bool.and_eq_true, beq_iff_eq] at hb
      rw [hb.1]
      exact .inr ⟨by decide, by decide, nofun⟩
  split at h
  · cases h
    exact .inl rfl
  next hw =>
  rw [Bool.not_eq_true] at hw
  split at h
  · next hb =>
      cases h
      exact .inr ⟨hw, hd hb, nofun⟩
  · refine .inr ⟨hw, ?_⟩
    simp only [orElse_eq_some, read.comment, read.directive, read.quoted, read.angled,
      ite_none_right_eq_some, map_eq_some_iff, Bool.and_eq_true, beq_iff_eq] at h
    rcases h with ⟨hb, m, -, hm⟩ | ⟨-, ⟨hb, hm⟩ | ⟨-, ⟨hb, m, -, hm⟩ | ⟨-, ⟨hb, m, -, hm⟩ | ⟨-, h⟩⟩⟩⟩
    · cases hm
      exact ⟨by rw [hb.1]; decide, nofun⟩
    · cases hm
      exact ⟨by rw [hb.1]; decide, nofun⟩
    · cases hm
      exact ⟨by rw [hb]; decide, nofun⟩
    · exact ⟨by rw [hb]; decide, fun _ => hb⟩
    · obtain ⟨hmem, hk⟩ := mem_operators_of_read h
      refine ⟨lt_of_mem_operators hmem, fun hk' => ?_⟩
      rw [hk] at hk'
      cases hk'

end Lexeme

namespace Token

variable {t : Token} {src bs : Bytes} {offset : Nat} {p : Point} {ts : List Token}

/-- The token `t` is what the reader finds at an offset of the bytes. -/
def ReadAt (bs : Bytes) (offset : Nat) (t : Token) : Prop :=
  ∃ b cs n, bs.drop offset = b :: cs ∧ t.text = b :: cs.take n ∧
    Lexeme.read b cs = some (.token t.kind, n)

theorem drop_length_cons_take (b : UInt8) (bs : Bytes) (n : Nat) :
    (b :: bs).drop (b :: bs.take n).length = bs.drop n := by
  rw [length_cons, drop_succ_cons, length_take]
  rcases Nat.le_total n bs.length with hle | hle
  · rw [Nat.min_eq_left hle]
  · rw [Nat.min_eq_right hle, drop_length, drop_eq_nil_of_le hle]

section Steps

variable {offset n : Nat} {p : Point} {b : UInt8} {bs : Bytes}

theorem scanFrom_none (h : Lexeme.read b bs = none) :
    scanFrom offset p (b :: bs) = scanFrom (offset + 1) (p.step b) bs := by
  rw [scanFrom, h]

theorem scanFrom_token {k : Kind} (h : Lexeme.read b bs = some (.token k, n)) :
    scanFrom offset p (b :: bs) = ⟨k, offset, p, b :: bs.take n⟩ ::
      scanFrom (offset + (b :: bs.take n).length) (p.after (b :: bs.take n)) (bs.drop n) := by
  rw [scanFrom, h]

theorem scanFrom_blank {c : Class} (h : Lexeme.read b bs = some (c, n)) (hc : ∀ k, c ≠ .token k) :
    scanFrom offset p (b :: bs) =
      scanFrom (offset + (b :: bs.take n).length) (p.after (b :: bs.take n)) (bs.drop n) := by
  rw [scanFrom, h]
  cases c with
  | space => rfl
  | lineFeed => rfl
  | token k => exact absurd rfl (hc k)

end Steps

/-- The tokens from `t` on are those that are found behind the first `k` of the bytes. The closing token
stands behind all of them, and any other is read there. -/
structure Resumes (offset : Nat) (p : Point) (bs : Bytes) (t : Token) (ts : List Token)
    (k : Nat) : Prop where
  start : t.start = offset + k
  point : t.point = p.after (bs.take k)
  tokens : t :: ts = scanFrom t.start t.point (bs.drop k)
  read : (t.kind = .finish ∧ t.text = [] ∧ k = bs.length) ∨ ReadAt bs k t

theorem Resumes.append {k : Nat} (text : Bytes) {rest : Bytes}
    (h : Resumes (offset + text.length) (p.after text) rest t ts k) :
    Resumes offset p (text ++ rest) t ts (text.length + k) where
  start := by rw [h.start, Nat.add_assoc]
  point := by rw [h.point, take_length_add_append, Point.after_append]
  tokens := by rw [h.tokens, drop_length_add_append]
  read := by
    rcases h.read with ⟨hki, ht, hk⟩ | ⟨b, cs, n, hd, hf⟩
    · exact .inl ⟨hki, ht, by rw [hk, length_append]⟩
    · exact .inr ⟨b, cs, n, by rw [drop_length_add_append, hd], hf⟩

theorem exists_resumes
    (h : t :: ts <:+ scanFrom offset p bs) : ∃ k, Resumes offset p bs t ts k := by
  fun_induction scanFrom offset p bs with
  | case1 offset p =>
    rcases suffix_cons_iff.1 h with heq | hre
    · cases heq
      exact ⟨0, rfl, rfl, by rw [drop_zero, scanFrom], .inl ⟨rfl, rfl, rfl⟩⟩
    · cases suffix_nil.1 hre
  | case2 offset p b bs hr ih =>
    obtain ⟨k, hk⟩ := ih h
    exact ⟨_, hk.append [b]⟩
  | case3 offset p b bs n text rest kind hr ih =>
    rcases suffix_cons_iff.1 h with heq | hre
    · obtain ⟨rfl, hts⟩ := cons.inj heq
      exact ⟨0, rfl, rfl, by rw [hts, drop_zero, scanFrom_token hr], .inr ⟨b, bs, n, rfl, rfl, hr⟩⟩
    · obtain ⟨k, hk⟩ := ih hre
      have ha := hk.append _
      rw [cons_append, take_append_drop] at ha
      exact ⟨_, ha⟩
  | case4 offset p b bs cls n hr text rest hcls ih =>
    obtain ⟨k, hk⟩ := ih h
    have ha := hk.append _
    rw [cons_append, take_append_drop] at ha
    exact ⟨_, ha⟩

theorem exists_resumes_of_mem
    (h : t ∈ scanFrom offset p bs) : ∃ ts k, Resumes offset p bs t ts k := by
  obtain ⟨before, ts, hs⟩ := append_of_mem h
  exact ⟨ts, exists_resumes ⟨before, hs.symm⟩⟩

/-- Every token but the closing one is read at its offset. -/
theorem readAt_of_mem_scan (h : t ∈ scan src) : (t.kind = .finish ∧ t.text = []) ∨ ReadAt src t.start t := by
  obtain ⟨ts, k, hk⟩ := exists_resumes_of_mem h
  rw [hk.start, Nat.zero_add]
  exact hk.read.imp_left fun hend => ⟨hend.1, hend.2.1⟩

theorem row_of_mem_scan (h : t ∈ scan src) : t.point.row ≤ src.newlines := by
  obtain ⟨ts, k, hk⟩ := exists_resumes_of_mem h
  rw [hk.point, Point.row_after, Point.origin, Nat.zero_add]
  exact (take_sublist k src).count_le _

/-- The bytes of a token are those of the source from its start to its end. -/
theorem slice_of_mem_scan (h : t ∈ scan src) : src.slice t.start t.stop = t.text := by
  rw [Bytes.slice, drop_take, stop, Nat.add_sub_cancel_left]
  rcases readAt_of_mem_scan h with ⟨-, hnil⟩ | ⟨b, cs, n, hd, ht, -⟩
  · rw [hnil, length_nil, take_zero]
  · rw [hd, ht, length_cons, take_succ_cons, length_take, ← take_take, take_length]

theorem text_ne_nil_of_word (h : t ∈ scan src) (hk : t.kind = .word) : t.text ≠ [] := by
  rcases readAt_of_mem_scan h with ⟨hend, -⟩ | ⟨b, cs, n, -, ht, -⟩
  · rw [hk] at hend
    cases hend
  · rw [ht]
    exact cons_ne_nil _ _

/-- Template arguments start with `<`. -/
theorem head_of_angled (h : t ∈ scan src) (hk : t.kind = .angled) : t.text.head? = some 60 := by
  rcases readAt_of_mem_scan h with ⟨hend, -⟩ | ⟨b, cs, n, -, ht, hr⟩
  · rw [hk] at hend
    cases hend
  · rcases Lexeme.read_cases hr with hw | ⟨-, -, ha⟩
    · rw [hk] at hw
      cases hw
    · rw [ht, head?_cons, ha hk]

theorem head_of_not_word {b : UInt8} (h : t ∈ scan src) (hk : t.kind ≠ .word)
    (hb : t.text.head? = some b) : Lexeme.isWordStart b = false ∧ b < 128 := by
  rcases readAt_of_mem_scan h with ⟨-, hnil⟩ | ⟨c, cs, n, -, ht, hr⟩
  · rw [hnil] at hb
    cases hb
  · rw [ht, head?_cons, some.injEq] at hb
    subst hb
    rcases Lexeme.read_cases hr with hw | ⟨hs, hlt, -⟩
    · exact absurd hw hk
    · exact ⟨hs, hlt⟩

end Token

end Excerpt
