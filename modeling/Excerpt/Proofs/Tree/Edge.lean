import Excerpt.Proofs.Text.Spelling
import Excerpt.Proofs.Tree.Token
import Mathlib.Data.List.TakeWhile

/-!
# Tokens between characters

A token of a text starts and ends between two characters: its first byte is an
ASCII byte, and so is its last one, except in a line comment, which ends at the
end of its line. So a stretch from the start of a token to the end of another is
a text again.
-/

namespace Excerpt

open List Option Bytes Utf8

namespace Lexeme

variable {b : UInt8} {bs cs : Bytes} {n : Nat}

theorem lt_of_isWordByte (h : isWordByte b) : b < 128 := by
  unfold isWordByte isWordStart isDigit at h
  grind

theorem lt_of_isWordStart (h : isWordStart b) : b < 128 :=
  lt_of_isWordByte (by rw [isWordByte, h, Bool.true_or])

theorem lt_of_isNumberByte (h : isNumberByte b) : b < 128 := by
  rw [isNumberByte, Bool.or_eq_true, beq_iff_eq] at h
  rcases h with h | rfl
  · exact lt_of_isWordByte h
  · decide

theorem take_run (p : UInt8 → Bool) (bs : Bytes) : bs.take (run p bs) = bs.takeWhile p :=
  (prefix_iff_eq_take.1 ( takeWhile_prefix p)).symm

theorem drop_run (p : UInt8 → Bool) (bs : Bytes) : bs.drop (run p bs) = bs.dropWhile p := by
  have hs : bs.takeWhile p ++ bs.drop (run p bs) = bs := by
    rw [← take_run, take_append_drop]
  exact append_cancel_left (hs.trans takeWhile_append_dropWhile.symm)

theorem getLast?_of_commentLength (h : commentLength bs = some n) :
    (bs.take n).getLast? = some 47 := by
  fun_induction commentLength bs generalizing n with
  | case1 bs =>
    cases h
    rfl
  | case2 b bs hs ih =>
    obtain ⟨m, hm, rfl⟩ := map_eq_some_iff.1 h
    rw [take_succ_cons, getLast?_cons, ih hm, getD_some]
  | case3 => cases h

theorem getLast?_of_quotedLength (h : quotedLength bs = some n) :
    (bs.take n).getLast? = some 34 := by
  fun_induction quotedLength bs generalizing n with
  | case1 bs =>
    cases h
    rfl
  | case2 b bs ih =>
    obtain ⟨m, hm, rfl⟩ := map_eq_some_iff.1 h
    rw [take_succ_cons, take_succ_cons, getLast?_cons, getLast?_cons, ih hm, getD_some, getD_some]
  | case3 => cases h
  | case4 b bs hq hl hs ih =>
    obtain ⟨m, hm, rfl⟩ := map_eq_some_iff.1 h
    rw [take_succ_cons, getLast?_cons, ih hm, getD_some]
  | case5 => cases h

theorem getLast?_of_angledLength (h : angledLength bs = some n) :
    (bs.take n).getLast? = some 62 := by
  unfold angledLength at h
  rw [ite_none_right_eq_some] at h
  obtain ⟨hh, hn⟩ := h
  cases hn
  rw [take_add_one, ← head?_drop, hh, toList_some, getLast?_concat]

def EndsAscii (bs : Bytes) : Prop :=
  ∃ b, bs.getLast? = some b ∧ b < 128

theorem endsAscii_cons {c : UInt8} (h : bs.getLast? = some c) (hc : c < 128) : EndsAscii (b :: bs) :=
  ⟨c, by rw [getLast?_cons, h, getD_some], hc⟩

theorem endsAscii_of_all (hb : b < 128) (h : ∀ c ∈ bs, c < 128) : EndsAscii (b :: bs) := by
  cases hl : bs.getLast? with
  | none => exact ⟨b, by rw [getLast?_cons, hl, getD_none], hb⟩
  | some c => exact endsAscii_cons hl (h c (mem_of_getLast? hl))

theorem endsAscii_run {p : UInt8 → Bool} (hb : b < 128) (hp : ∀ c, p c → c < 128)
    (bs : Bytes) : EndsAscii (b :: bs.take (run p bs)) := by
  rw [take_run]
  exact endsAscii_of_all hb fun c hc => hp c (mem_takeWhile_imp hc)

/-- What may stand at the front of the bytes `b :: cs`: its class, and the number of
its bytes after `b`. -/
inductive Stands (b : UInt8) (cs : Bytes) : Token.Class → Nat → Prop where
  | space (hb : isSpace b) : Stands b cs .space (run isSpace cs)
  | lineFeed (hb : b = newline) : Stands b cs .lineFeed 0
  | lineComment (hb : b = 47) (hcs : cs.head? = some 47) :
      Stands b cs (.token .lineComment) (run (· != newline) cs)
  | word (hb : isWordStart b) : Stands b cs (.token .word) (run isWordByte cs)
  | number (hb : isDigit b) : Stands b cs (.token .number) (run isNumberByte cs)
  | blockComment {more : Bytes} {n : Nat} (hb : b = 47) (hcs : cs = 42 :: more)
      (hlen : commentLength more = some n) : Stands b cs (.token .blockComment) (n + 1)
  | directive (hb : b = 35) : Stands b cs (.token .directive) (run isWordStart cs)
  | quoted {n : Nat} (hb : b = 34) (hlen : quotedLength cs = some n) :
      Stands b cs (.token .quoted) n
  | angled {n : Nat} (hb : b = 60) (hlen : angledLength cs = some n) :
      Stands b cs (.token .angled) n
  | colons {more : Bytes} (hb : b = 58) (hcs : cs = 58 :: more) : Stands b cs (.token .operator) 1
  | operator (hb : b ∈ operators) : Stands b cs (.token .operator) 0

theorem eq_cons_of_head? (h : cs.head? = some b) : cs = b :: cs.drop 1 := by
  cases cs with
  | nil => cases h
  | cons c cs =>
    cases h
    rfl

theorem stands_of_read {c : Token.Class} (h : read b cs = some (c, n)) :
    Stands b cs c n := by
  unfold read at h
  split at h
  · next hb =>
      cases h
      exact .space hb
  split at h
  · next hb =>
      cases h
      exact .lineFeed (beq_iff_eq.1 hb)
  split at h
  · next hb =>
      cases h
      rw [Bool.and_eq_true, beq_iff_eq, beq_iff_eq] at hb
      exact .lineComment hb.1 hb.2
  split at h
  · next hb =>
      cases h
      exact .word hb
  split at h
  · next hb =>
      cases h
      exact .number hb
  simp only [orElse_eq_some, read.comment, read.directive, read.quoted, read.angled,
    ite_none_right_eq_some, map_eq_some_iff, Bool.and_eq_true, beq_iff_eq] at h
  rcases h with ⟨hb, m, hlen, hm⟩ | ⟨-, ⟨hb, hm⟩ | ⟨-, ⟨hb, m, hlen, hm⟩ | ⟨-, ⟨hb, m, hlen, hm⟩ | ⟨-, h⟩⟩⟩⟩
  · cases hm
    exact .blockComment hb.1 (eq_cons_of_head? hb.2) hlen
  · cases hm
    exact .directive hb.1
  · cases hm
    exact .quoted hb hlen
  · cases hm
    exact .angled hb hlen
  · unfold read.operator at h
    split at h
    · next hb =>
        cases h
        rw [Bool.and_eq_true, beq_iff_eq, beq_iff_eq] at hb
        exact .colons hb.1 (eq_cons_of_head? hb.2)
    · rw [ite_none_right_eq_some] at h
      cases h.2
      exact .operator (contains_iff_mem.1 h.1)

section Stands

variable {b : UInt8} {cs : Bytes} {k : Token.Kind} {n : Nat}

theorem Stands.ascii (h : Stands b cs (.token k) n) : b < 128 := by
  cases h with
  | lineComment hb => rw [hb]; decide
  | word hb => exact lt_of_isWordStart hb
  | number hb => exact lt_of_isWordByte (by rw [isWordByte, hb, Bool.or_true])
  | blockComment hb => rw [hb]; decide
  | directive hb => rw [hb]; decide
  | quoted hb => rw [hb]; decide
  | angled hb => rw [hb]; decide
  | colons hb => rw [hb]; decide
  | operator hb => exact lt_of_mem_operators hb

theorem Stands.ends (h : Stands b cs (.token k) n) :
    EndsAscii (b :: cs.take n) ∨ ∀ c ∈ (cs.drop n).head?, c = newline := by
  have hs := h.ascii
  cases h with
  | lineComment hb hcs =>
    refine .inr fun c hc => ?_
    rw [drop_run] at hc
    have hnot := head?_dropWhile_not (· != newline) cs
    rw [mem_def.1 hc] at hnot
    simpa using hnot
  | word hb => exact .inl (endsAscii_run hs (fun c hc => lt_of_isWordByte hc) cs)
  | number hb => exact .inl (endsAscii_run hs (fun c hc => lt_of_isNumberByte hc) cs)
  | blockComment hb hcs hlen =>
    rw [hcs, take_succ_cons]
    refine .inl (endsAscii_cons (c := 47) ?_ (by decide))
    rw [getLast?_cons, getLast?_of_commentLength hlen, getD_some]
  | directive hb => exact .inl (endsAscii_run hs (fun c hc => lt_of_isWordStart hc) cs)
  | quoted hb hlen => exact .inl (endsAscii_cons (getLast?_of_quotedLength hlen) (by decide))
  | angled hb hlen => exact .inl (endsAscii_cons (getLast?_of_angledLength hlen) (by decide))
  | colons hb hcs =>
    rw [hcs]
    exact .inl ⟨58, rfl, by decide⟩
  | operator hb => exact .inl ⟨b, rfl, hs⟩

/-- A token does not end with a line feed. -/
theorem Stands.getLast?_ne (h : Stands b cs (.token k) n) :
    (b :: cs.take n).getLast? ≠ some newline := by
  -- where the token is a run of bytes, none of them is a line feed
  have hrun : ∀ {p : UInt8 → Bool}, b ≠ newline → p newline = false →
      (b :: cs.take (run p cs)).getLast? ≠ some newline := by
    intro p hb hp hl
    rw [take_run] at hl
    rcases mem_cons.1 (mem_of_getLast? hl) with heq | hmem
    · exact hb heq.symm
    · rw [mem_takeWhile_imp hmem] at hp
      cases hp
  have hco : ∀ {c : UInt8} {ds : Bytes}, ds.getLast? = some c → c ≠ newline →
      (b :: ds).getLast? ≠ some newline := by
    intro c ds hds hc
    rw [getLast?_cons, hds, getD_some]
    exact fun heq => hc (some.inj heq)
  cases h with
  | lineComment hb => exact hrun (by rw [hb]; decide) (by decide)
  | word hb => exact hrun (by rintro rfl; exact absurd hb (by decide)) (by decide)
  | number hb => exact hrun (by rintro rfl; exact absurd hb (by decide)) (by decide)
  | blockComment hb hcs hlen =>
    rw [hcs, take_succ_cons]
    refine hco (c := 47) ?_ (by decide)
    rw [getLast?_cons, getLast?_of_commentLength hlen, getD_some]
  | directive hb => exact hrun (by rw [hb]; decide) (by decide)
  | quoted hb hlen => exact hco (getLast?_of_quotedLength hlen) (by decide)
  | angled hb hlen => exact hco (getLast?_of_angledLength hlen) (by decide)
  | colons hb hcs =>
    rw [hcs]
    exact hco (c := 58) rfl (by decide)
  | operator hb =>
    intro hl
    cases hl
    exact absurd hb (by decide)

end Stands

end Lexeme

namespace Token

variable {t : Token} {src : Bytes}

/-- The closing token stands at the end of the source. -/
theorem start_of_finish {offset : Nat} {p : Point} {bs : Bytes} (h : t ∈ scanFrom offset p bs)
    (hk : t.kind = .finish) : t.start = offset + bs.length ∧ t.text = [] := by
  obtain ⟨ts, k, hr⟩ := exists_resumes_of_mem h
  rcases hr.read with ⟨-, ht, rfl⟩ | ⟨b, cs, n, -, -, hre⟩
  · exact ⟨hr.start, ht⟩
  · rw [hk] at hre
    cases Lexeme.stands_of_read hre

/-- Tokens stand one behind the other. -/
theorem pairwise_scanFrom (offset : Nat) (p : Point) (bs : Bytes) :
    (scanFrom offset p bs).Pairwise (·.stop ≤ ·.start) ∧ ∀ t ∈ scanFrom offset p bs, offset ≤ t.start := by
  fun_induction scanFrom offset p bs with
  | case1 offset p => exact ⟨pairwise_singleton _ _, by simp⟩
  | case2 offset p b bs hr ih => exact ⟨ih.1, fun t ht => Nat.le_of_succ_le (ih.2 t ht)⟩
  | case3 offset p b bs n text rest kind hr ih =>
    refine ⟨pairwise_cons.2 ⟨ih.2, ih.1⟩, fun t ht => ?_⟩
    rcases mem_cons.1 ht with rfl | hl
    · exact Nat.le_refl _
    · exact Nat.le_trans (Nat.le_add_right _ _) (ih.2 t hl)
  | case4 offset p b bs cls n hr text rest hcls ih =>
    exact ⟨ih.1, fun t ht => Nat.le_trans (Nat.le_add_right _ _) (ih.2 t ht)⟩

theorem pairwise_scan (src : Bytes) : (scan src).Pairwise (·.stop ≤ ·.start) :=
  (pairwise_scanFrom 0 .origin src).1

theorem start_le_stop (t : Token) : t.start ≤ t.stop :=
  Nat.le_add_right _ _

theorem kind_ne_finish {x : String} (ht : t ∈ scan src) (h : t.spelled x)
    (hx : ofString x ≠ []) : t.kind ≠ .finish := by
  intro hk
  have hte : t.text = ofString x := beq_iff_eq.1 h
  exact hx (hte.symm.trans (start_of_finish ht hk).2)

theorem start_lt_stop (ht : t ∈ scan src) (hk : t.kind ≠ .finish) : t.start < t.stop := by
  rcases readAt_of_mem_scan ht with ⟨hf, -⟩ | ⟨b, cs, n, -, hte, -⟩
  · exact absurd hf hk
  · rw [stop, hte, length_cons]
    omega

/-- The source up to the end of a token does not end with a line feed. -/
theorem getLast?_take_stop_ne (ht : t ∈ scan src) (hk : t.kind ≠ .finish) :
    (src.take t.stop).getLast? ≠ some newline := by
  have hs := slice_of_mem_scan ht
  rcases readAt_of_mem_scan ht with ⟨hf, -⟩ | ⟨b, cs, n, -, hte, hr⟩
  · exact absurd hf hk
  · have hne : t.text ≠ [] := by
      rw [hte]
      exact cons_ne_nil _ _
    have hsp : src.take t.stop = (src.take t.stop).take t.start ++ t.text := by
      rw [← hs, slice, take_append_drop]
    rw [hsp, getLast?_append_of_ne_nil _ hne, hte]
    exact (Lexeme.stands_of_read hr).getLast?_ne

section Edges

variable {src : Bytes} {cs : List Char} {t : Token}

theorem edge_start (h : Utf8.Spells src cs) (ht : t ∈ scan src) : Utf8.Edge src t.start := by
  rcases readAt_of_mem_scan ht with ⟨hk, -⟩ | ⟨b, more, n, hd, -, hr⟩
  · refine edge_of_length_le h ?_
    rw [(start_of_finish ht hk).1, Nat.zero_add]
  · exact edge_of_ascii h (Lexeme.stands_of_read hr).ascii hd

theorem edge_stop (h : Utf8.Spells src cs) (ht : t ∈ scan src) : Utf8.Edge src t.stop := by
  rcases readAt_of_mem_scan ht with ⟨hk, hnil⟩ | ⟨b, more, n, hd, hte, hre⟩
  · have hs := edge_start h ht
    rwa [← Nat.add_zero t.start, ← length_nil, ← hnil] at hs
  · have hr : src.drop t.stop = more.drop n := by
      rw [stop, ← drop_drop, hd, hte, drop_length_cons_take]
    rcases (Lexeme.stands_of_read hre).ends with ⟨c, hl, hc⟩ | hli
    · -- the last byte is the one before the end
      rw [← hte] at hl
      obtain ⟨before, hb⟩ := getLast?_eq_some_iff.1 hl
      have hst : t.stop = t.start + before.length + 1 := by
        rw [stop, hb, length_append, length_singleton, Nat.add_assoc]
      have hall : src.drop t.start = before ++ c :: more.drop n := by
        rw [hd, ← take_append_drop n more, ← cons_append, ← hte, hb,
          append_assoc, singleton_append, take_append_drop]
      have hh : src.drop (t.start + before.length) = c :: more.drop n := by
        rw [← drop_drop, hall, drop_left]
      rw [hst]
      exact edge_after_ascii h hc hh
    · cases hn : more.drop n with
      | nil =>
        rw [hn, drop_eq_nil_iff] at hr
        exact edge_of_length_le h hr
      | cons c rest =>
        rw [hn] at hr hli
        refine edge_of_ascii h ?_ hr
        rw [hli c rfl]
        decide

end Edges

end Token

end Excerpt
