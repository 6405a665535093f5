import Excerpt.Proofs.Except
import Mathlib.Data.List.Basic

/-!
# Texts and their bytes

Bytes spell a text if they are the bytes of its characters, one after the other, and every text is read
back from its bytes (`decode_ofString`). A spelling can be put together and taken apart at the edges of
characters, and each ASCII byte stands between two such edges. So a piece of a source that starts and ends
next to ASCII bytes is a text, and its bytes are the piece again.
-/

namespace Excerpt

open List Bytes

namespace Utf8

variable {bs run more more' : Bytes} {value n v : Nat} {bounds : List (UInt8 × UInt8)} {c : Char}
  {b a x y z : UInt8} {s : String}

/-- The bytes of a character. -/
abbrev encoded (c : Char) : Bytes := String.utf8EncodeChar c

theorem toNat_ofNat (h : v.isValidChar) : (Char.ofNat v).val.toNat = v := by
  rw [Char.ofNat, dif_pos h]
  rfl

theorem encoded_ofNat (h : v.isValidChar) (hbs : bs.map UInt8.toNat = if v ≤ 127 then [v]
      else if v ≤ 2047 then [v / 64 % 32 + 192, v % 64 + 128]
      else if v ≤ 65535 then [v / 4096 % 16 + 224, v / 64 % 64 + 128, v % 64 + 128]
      else [v / 262144 % 8 + 240, v / 4096 % 64 + 128, v / 64 % 64 + 128, v % 64 + 128]) :
    encoded (Char.ofNat v) = bs := by
  have hmap : (bs.map UInt8.toNat).map UInt8.ofNat = bs := by
    rw [List.map_map]
    exact map_id'' (fun b => UInt8.ofNat_toNat) bs
  rw [← hmap, hbs, encoded, String.utf8EncodeChar, toNat_ofNat h]
  split
  · rfl
  split
  · rfl
  split
  · rfl
  · rfl

theorem continued_cons {lo hi : UInt8} (h : continued value run ((lo, hi) :: bounds) bs = .char c n) :
    ∃ b rest, bs = b :: rest ∧ lo.toNat ≤ b.toNat ∧ b.toNat ≤ hi.toNat ∧
      continued (value * 64 + b.toNat % 64) (run ++ [b]) bounds rest = .char c n := by
  cases bs with
  | nil => cases h
  | cons b rest =>
    unfold continued at h
    split at h
    · next hb =>
        rw [Bool.and_eq_true, decide_eq_true_eq, decide_eq_true_eq, UInt8.le_iff_toNat_le,
          UInt8.le_iff_toNat_le] at hb
        exact ⟨b, rest, rfl, hb.1, hb.2, h⟩
    · cases h

theorem continued_nil (h : continued value run [] bs = .char c n) :
    c = Char.ofNat value ∧ n = run.length := by
  rw [continued] at h
  cases h
  exact ⟨rfl, rfl⟩

/-- A lower bound that is raised after one byte. -/
theorem raised_le (hyz : z ≤ y) (h : (if b = x then y else z).toNat ≤ a.toNat) :
    (b.toNat = x.toNat → y.toNat ≤ a.toNat) ∧ z.toNat ≤ a.toNat := by
  rw [UInt8.le_iff_toNat_le] at hyz
  simp only [UInt8.toNat_inj]
  split at h
  · next hb => exact ⟨fun _ => h, Nat.le_trans hyz h⟩
  · next hb => exact ⟨fun heq => absurd heq hb, h⟩

/-- An upper bound that is lowered after one byte. -/
theorem le_lowered (hyz : y ≤ z) (h : a.toNat ≤ (if b = x then y else z).toNat) :
    (b.toNat = x.toNat → a.toNat ≤ y.toNat) ∧ a.toNat ≤ z.toNat := by
  rw [UInt8.le_iff_toNat_le] at hyz
  simp only [UInt8.toNat_inj]
  split at h
  · next hb => exact ⟨fun _ => h, Nat.le_trans h hyz⟩
  · next hb => exact ⟨fun heq => absurd heq hb, h⟩

/-- A byte that may hold any digit in base 64. -/
theorem continued_cons_digit (h : continued value run ((0x80, 0xBF) :: bounds) bs = .char c n) :
    ∃ b rest, bs = b :: rest ∧ 128 ≤ b.toNat ∧ b.toNat ≤ 191 ∧
      continued (value * 64 + b.toNat % 64) (run ++ [b]) bounds rest = .char c n :=
  continued_cons h

/-- A character that is read off the front is written with the bytes that were taken. -/
theorem encoded_of_piece (h : piece b bs = .char c n) :
    ∃ tail rest, bs = tail ++ rest ∧ encoded c = b :: tail ∧ n = (b :: tail).length := by
  simp only [piece, UInt8.lt_iff_toNat_lt, UInt8.reduceToNat] at h
  split at h
  · next hb =>
      cases h
      refine ⟨[], bs, rfl, encoded_ofNat (.inl (by omega)) ?_, rfl⟩
      rw [if_pos (by omega)]
      rfl
  next hb =>
  split at h
  · cases h
  next hb₁ =>
  split at h
  · next hb₂ =>
      obtain ⟨b₁, rest, rfl, hlo, hhi, h⟩ := continued_cons_digit h
      obtain ⟨rfl, rfl⟩ := continued_nil h
      refine ⟨[b₁], rest, rfl, encoded_ofNat (.inl (by omega)) ?_, rfl⟩
      rw [if_neg (by omega), if_pos (by omega)]
      simp only [map_cons, map_nil, cons.injEq, and_true]
      omega
  next hb₂ =>
  split at h
  · next hb₃ =>
      obtain ⟨b₁, rest, rfl, hlo, hhi, h⟩ := continued_cons h
      obtain ⟨b₂, rest, rfl, hlo₂, hhi₂, h⟩ := continued_cons_digit h
      obtain ⟨rfl, rfl⟩ := continued_nil h
      have hlo : (b.toNat = 224 → 160 ≤ b₁.toNat) ∧ 128 ≤ b₁.toNat := raised_le (by decide) hlo
      have hhi : (b.toNat = 237 → b₁.toNat ≤ 159) ∧ b₁.toNat ≤ 191 := le_lowered (by decide) hhi
      refine ⟨[b₁, b₂], rest, rfl, encoded_ofNat ?_ ?_, rfl⟩
      · unfold Nat.isValidChar
        omega
      · rw [if_neg (by omega), if_neg (by omega), if_pos (by omega)]
        simp only [map_cons, map_nil, cons.injEq, and_true]
        omega
  next hb₃ =>
  split at h
  · next hb₄ =>
      obtain ⟨b₁, rest, rfl, hlo, hhi, h⟩ := continued_cons h
      obtain ⟨b₂, rest, rfl, hlo₂, hhi₂, h⟩ := continued_cons_digit h
      obtain ⟨b₃, rest, rfl, hlo₃, hhi₃, h⟩ := continued_cons_digit h
      obtain ⟨rfl, rfl⟩ := continued_nil h
      have hlo : (b.toNat = 240 → 144 ≤ b₁.toNat) ∧ 128 ≤ b₁.toNat := raised_le (by decide) hlo
      have hhi : (b.toNat = 244 → b₁.toNat ≤ 143) ∧ b₁.toNat ≤ 191 := le_lowered (by decide) hhi
      refine ⟨[b₁, b₂, b₃], rest, rfl, encoded_ofNat (.inr ?_) ?_, rfl⟩
      · omega
      · rw [if_neg (by omega), if_neg (by omega), if_neg (by omega)]
        simp only [map_cons, map_nil, cons.injEq, and_true]
        omega
  · cases h

/-- The bytes are read as one character, whatever stands behind them. -/
def Letter (bs : Bytes) (c : Char) : Prop :=
  ∃ b tail, bs = b :: tail ∧ ∀ more, piece b (tail ++ more) = .char c bs.length

/-- The byte for the last digit of `v` in base 64 is read behind the other digits. -/
theorem continued_digit {lo hi : UInt8} (h : lo.toNat ≤ v % 64 + 128 ∧ v % 64 + 128 ≤ hi.toNat) :
    continued (v / 64) run ((lo, hi) :: bounds) (UInt8.ofNat (v % 64 + 128) :: bs) =
      continued v (run ++ [UInt8.ofNat (v % 64 + 128)]) bounds bs := by
  have hn : (UInt8.ofNat (v % 64 + 128)).toNat = v % 64 + 128 := UInt8.toNat_ofNat_of_lt' (show _ < 256 by omega)
  have hvalue : v / 64 * 64 + (v % 64 + 128) % 64 = v := by omega
  rw [← hn, ← UInt8.le_iff_toNat_le, ← UInt8.le_iff_toNat_le] at h
  rw [continued, if_pos (by simpa using h), hn, hvalue]

theorem continued_last : continued (v / 64) run ((0x80, 0xBF) :: bounds) (UInt8.ofNat (v % 64 + 128) :: bs) =
    continued v (run ++ [UInt8.ofNat (v % 64 + 128)]) bounds bs :=
  continued_digit ⟨Nat.le_add_left _ _, Nat.add_le_add_right (Nat.le_of_lt_succ (Nat.mod_lt _ (by decide))) 128⟩

/-- The bytes of a character are read as this character, whatever stands behind them. -/
theorem letter_encoded (c : Char) : Letter (encoded c) c := by
  have hc : Char.ofNat c.val.toNat = c := Char.ofNat_toNat c
  have hv : c.val.toNat.isValidChar := c.valid
  unfold encoded String.utf8EncodeChar
  unfold Nat.isValidChar at hv
  generalize c.val.toNat = v at hc hv
  have hbyte : ∀ n, n < 256 → ∃ b : UInt8, UInt8.ofNat n = b ∧ b.toNat = n :=
    fun n h => ⟨_, rfl, UInt8.toNat_ofNat_of_lt' h⟩
  have hlead : v / 4096 = v / 64 / 64 := (Nat.div_div_eq_div_mul v 64 64).symm
  have hlead' : v / 262144 = v / 64 / 64 / 64 := by
    rw [Nat.div_div_eq_div_mul, Nat.div_div_eq_div_mul]
  dsimp only
  split
  · obtain ⟨b, hb, hn⟩ := hbyte v (by omega)
    refine ⟨b, [], by rw [hb], fun more => ?_⟩
    rw [piece, if_pos (UInt8.lt_iff_toNat_lt.2 (by simp; omega)), hn, hc]
    rfl
  split
  · obtain ⟨b, hb, hn⟩ := hbyte (v / 64 % 32 + 192) (by omega)
    have hvalue : b.toNat % 32 = v / 64 := by omega
    refine ⟨b, [_], by rw [hb], fun more => ?_⟩
    simp only [piece, UInt8.lt_iff_toNat_lt, UInt8.reduceToNat]
    rw [if_neg (by omega), if_neg (by omega), if_pos (by omega), hvalue, cons_append, continued_last, continued,
      hc]
    rfl
  rw [hlead]
  split
  · obtain ⟨b, hb, hn⟩ := hbyte (v / 64 / 64 % 16 + 224) (by omega)
    have hvalue : b.toNat % 16 = v / 64 / 64 := by omega
    have hbounds : (b.toNat = 224 → 160 ≤ v / 64 % 64 + 128) ∧
        (b.toNat = 237 → v / 64 % 64 + 128 ≤ 159) := by omega
    refine ⟨b, [_, _], by rw [hb], fun more => ?_⟩
    simp only [piece, UInt8.lt_iff_toNat_lt, UInt8.reduceToNat, ← UInt8.toNat_inj]
    rw [if_neg (by omega), if_neg (by omega), if_neg (by omega), if_pos (by omega), hvalue, cons_append,
      cons_append, continued_digit (by split <;> split <;> simp <;> omega), continued_last, continued, hc]
    rfl
  · rw [hlead']
    obtain ⟨b, hb, hn⟩ := hbyte (v / 64 / 64 / 64 % 8 + 240) (by omega)
    have hvalue : b.toNat % 8 = v / 64 / 64 / 64 := by omega
    have hbounds : (b.toNat = 240 → 144 ≤ v / 64 / 64 % 64 + 128) ∧
        (b.toNat = 244 → v / 64 / 64 % 64 + 128 ≤ 143) := by omega
    refine ⟨b, [_, _, _], by rw [hb], fun more => ?_⟩
    simp only [piece, UInt8.lt_iff_toNat_lt, UInt8.reduceToNat, ← UInt8.toNat_inj]
    rw [if_neg (by omega), if_neg (by omega), if_neg (by omega), if_neg (by omega), if_pos (by omega), hvalue,
      cons_append, cons_append, cons_append, continued_digit (by split <;> split <;> simp <;> omega),
      continued_last, continued_last, continued, hc]
    rfl

theorem exists_letter (h : piece b bs = .char c n) :
    ∃ tail rest, bs = tail ++ rest ∧ n = (b :: tail).length ∧ Letter (b :: tail) c := by
  obtain ⟨tail, rest, rfl, hen, rfl⟩ := encoded_of_piece h
  exact ⟨tail, rest, rfl, rfl, hen ▸ letter_encoded c⟩

theorem Letter.encoded (h : Letter bs c) : encoded c = bs := by
  obtain ⟨b, tail, rfl, hp⟩ := h
  obtain ⟨tail', rest, hs, hen, hlen⟩ := encoded_of_piece (hp [])
  rw [append_nil] at hs
  rw [hs, length_cons, length_cons, length_append] at hlen
  have hr : rest = [] := eq_nil_of_length_eq_zero (by omega)
  rw [hen, hs, hr, append_nil]

theorem not_ascii_of_mem_tail (h : b ∈ (encoded c).tail) : ¬ b < 128 := by
  have hm : ∀ v : Nat, ¬ UInt8.ofNat (v % 64 + 128) < 128 := by
    intro v
    rw [UInt8.lt_iff_toNat_lt, UInt8.toNat_ofNat]
    change ¬ (v % 64 + 128) % 256 < 128
    omega
  unfold encoded String.utf8EncodeChar at h
  dsimp only at h
  split at h
  · cases h
  split at h
  · rw [tail_cons, mem_singleton] at h
    exact h ▸ hm _
  split at h
  · rw [tail_cons, mem_pair] at h
    rcases h with rfl | rfl
    · exact hm _
    · exact hm _
  · rw [tail_cons, mem_cons, mem_pair] at h
    rcases h with rfl | rfl | rfl
    · exact hm _
    · exact hm _
    · exact hm _

/-- An ASCII byte within the bytes of a character is the first of them. -/
theorem Letter.append_eq {x y : Bytes} (h : Letter bs c) (hb : b < 128) (hx : x ≠ [])
    (heq : bs ++ more = x ++ b :: y) : ∃ x', x = bs ++ x' ∧ more = x' ++ b :: y := by
  rcases append_eq_append_iff.1 heq with ⟨x', hx', hm⟩ | ⟨tail, hbs, hy⟩
  · exact ⟨x', hx', hm⟩
  · cases tail with
    | nil => exact ⟨[], by rw [hbs, append_nil, append_nil], hy.symm⟩
    | cons b' tail =>
      rw [cons_append, cons.injEq] at hy
      obtain ⟨rfl, -⟩ := hy
      refine absurd hb (not_ascii_of_mem_tail (c := c) ?_)
      rw [h.encoded, hbs, tail_append_of_ne_nil hx]
      exact mem_append_right _ mem_cons_self

/-- Only the line feed has a line feed among its bytes. -/
theorem Letter.newlines (h : Letter bs c) : bs.newlines = [c].count '\n' := by
  by_cases hc : c = '\n'
  · rw [← h.encoded, hc]
    decide
  · rw [count_cons_of_ne hc, count_nil]
    obtain ⟨b, tail, rfl, hp⟩ := id h
    refine count_eq_zero.2 fun hmem => ?_
    rcases mem_cons.1 hmem with rfl | hmem
    · exact hc (Piece.char.inj (hp [])).1.symm
    · refine absurd (by decide : newline < 128) (not_ascii_of_mem_tail (c := c) ?_)
      rwa [h.encoded]

theorem pieces_letter (h : Letter bs c) (more : Bytes) :
    pieces (bs ++ more) = .char c bs.length :: pieces more := by
  obtain ⟨b, tail, rfl, hp⟩ := h
  rw [cons_append, pieces, hp]
  simp only [Piece.size, length_cons, Nat.add_sub_cancel, drop_left]

/-- The bytes spell the characters. -/
inductive Spells : Bytes → List Char → Prop where
  | nil : Spells [] []
  | cons {bs more : Bytes} {c : Char} {cs : List Char} (hletter : Letter bs c)
      (hmore : Spells more cs) : Spells (bs ++ more) (c :: cs)

theorem spells_of_chars {cs : List Char} {offset : Nat} (h : chars offset (pieces bs) = .ok cs) :
    Spells bs cs := by
  induction bs using pieces.induct generalizing offset cs with
  | case1 =>
    rw [pieces, chars] at h
    cases h
    exact .nil
  | @case2 b bs p ih =>
    rw [pieces] at h
    cases hp : piece b bs with
    | bad fault run =>
      rw [hp] at h
      cases h
    | char c n =>
      obtain ⟨tail, rest, rfl, rfl, hl⟩ := exists_letter hp
      have hd : (tail ++ rest).drop ((b :: tail).length - 1) = rest := by
        rw [length_cons, Nat.add_sub_cancel, drop_left]
      have hs : p.size = (b :: tail).length := by
        rw [show p = .char c (b :: tail).length from hp, Piece.size]
      rw [hs, hd] at ih
      rw [hp, Piece.size, hd, chars] at h
      cases hr : chars (offset + (b :: tail).length) (pieces rest) with
      | error e =>
        rw [hr] at h
        cases h
      | ok cs =>
        rw [hr] at h
        cases h
        exact .cons hl (ih hr)

theorem spells_of_decode (h : decode bs = .ok s) : Spells bs s.toList := by
  rw [decode] at h
  cases hc : chars 0 (pieces bs) with
  | error e =>
    rw [hc] at h
    cases h
  | ok cs =>
    rw [hc] at h
    cases h
    rw [String.toList_ofList]
    exact spells_of_chars hc

namespace Spells

variable {bs more : Bytes} {cs ds : List Char} {b : UInt8}

theorem chars (h : Spells bs cs) (offset : Nat) : chars offset (pieces bs) = .ok cs := by
  induction h generalizing offset with
  | nil => rw [pieces, Utf8.chars]
  | cons hl _ ih =>
    rw [pieces_letter hl, Utf8.chars, ih]
    rfl

theorem decode (h : Spells bs cs) : decode bs = .ok (String.ofList cs) := by
  rw [Utf8.decode, h.chars]
  rfl

theorem unique (h : Spells bs cs) (h' : Spells bs ds) : cs = ds :=
  Except.ok.inj ((h.chars 0).symm.trans (h'.chars 0))

theorem append (h : Spells bs cs) (h' : Spells more ds) : Spells (bs ++ more) (cs ++ ds) := by
  induction h with
  | nil => exact h'
  | cons hl _ ih =>
    rw [append_assoc]
    exact .cons hl ih

/-- Bytes that spell characters are their bytes. -/
theorem eq_encoded (h : Spells bs cs) : bs = cs.flatMap encoded := by
  induction h with
  | nil => rfl
  | cons hl _ ih => rw [flatMap_cons, hl.encoded, ← ih]

/-- A spelling has as many line feeds as the text. -/
theorem newlines (h : Spells bs cs) : bs.newlines = cs.count '\n' := by
  induction h with
  | nil => rfl
  | @cons bs more c cs hl _ ih =>
    rw [newlines_append, hl.newlines, ih, ← count_append, singleton_append]

theorem ne_nil (h : Spells bs cs) (hbs : bs ≠ []) : cs ≠ [] := by
  cases h with
  | nil => exact absurd rfl hbs
  | cons => exact cons_ne_nil _ _

/-- Bytes behind a spelling spell what is left of the text. -/
theorem cancel (h : Spells bs cs) (h' : Spells (bs ++ more) ds) : ∃ es, ds = cs ++ es ∧ Spells more es := by
  induction h generalizing ds with
  | nil => exact ⟨ds, rfl, h'⟩
  | @cons bs rest c cs hl _ ih =>
    have hc := h'.chars 0
    rw [append_assoc, pieces_letter hl, Utf8.chars] at hc
    cases hr : Utf8.chars (0 + bs.length) (pieces (rest ++ more)) with
    | error e =>
      rw [hr] at hc
      cases hc
    | ok ds' =>
      rw [hr] at hc
      cases hc
      obtain ⟨es, rfl, hes⟩ := ih (spells_of_chars hr)
      exact ⟨es, rfl, hes⟩

/-- A spelling can be cut in front of an ASCII byte. -/
theorem cut (hb : b < 128) (h : Spells (bs ++ b :: more) cs) :
    ∃ ds es, cs = ds ++ es ∧ Spells bs ds ∧ Spells (b :: more) es := by
  generalize hall : bs ++ b :: more = all at h
  induction h generalizing bs with
  | nil => cases bs <;> cases hall
  | @cons run rest c cs hl hr ih =>
    cases bs with
    | nil =>
      refine ⟨[], c :: cs, rfl, .nil, ?_⟩
      rw [← nil_append (b :: more), hall]
      exact .cons hl hr
    | cons b' bs =>
      obtain ⟨x, hx, hs⟩ := hl.append_eq hb (cons_ne_nil _ _) hall.symm
      obtain ⟨ds, es, rfl, hds, hes⟩ := ih hs.symm
      exact ⟨c :: ds, es, rfl, by rw [hx]; exact .cons hl hds, hes⟩

theorem ascii (hb : b < 128) : Spells [b] [Char.ofNat b.toNat] := by
  have hl : Letter [b] (Char.ofNat b.toNat) := by
    refine ⟨b, [], rfl, fun more => ?_⟩
    unfold piece
    rw [if_pos hb]
    rfl
  exact .cons hl .nil

theorem head_of_ascii (hb : b < 128) (h : Spells (b :: bs) cs) : ∃ ds, cs = Char.ofNat b.toNat :: ds := by
  obtain ⟨ds, rfl, -⟩ := (ascii hb).cancel h
  exact ⟨ds, rfl⟩

/-- A spelling can be cut behind an ASCII byte. -/
theorem cut_after (hb : b < 128) (h : Spells (bs ++ b :: more) cs) :
    ∃ ds es, cs = ds ++ es ∧ Spells (bs ++ [b]) ds ∧ Spells more es := by
  obtain ⟨ds, es, rfl, hds, hes⟩ := h.cut hb
  obtain ⟨es', rfl, hes'⟩ := (ascii hb).cancel hes
  exact ⟨ds ++ [Char.ofNat b.toNat], es', by rw [append_assoc], hds.append (ascii hb), hes'⟩

theorem last_of_ascii (hb : b < 128) (h : Spells (bs ++ [b]) cs) : ∃ ds, cs = ds ++ [Char.ofNat b.toNat] := by
  obtain ⟨ds, es, rfl, -, hes⟩ := h.cut hb
  rw [hes.unique (ascii hb)]
  exact ⟨ds, rfl⟩

end Spells

theorem head_decode (hb : b < 128) (h : decode (b :: bs) = .ok s) :
    s.toList.head? = some (Char.ofNat b.toNat) := by
  obtain ⟨ds, hds⟩ := (spells_of_decode h).head_of_ascii hb
  rw [hds, head?_cons]

theorem ne_empty_of_decode (hbs : bs ≠ []) (h : decode bs = .ok s) : s ≠ "" := by
  rintro rfl
  exact (spells_of_decode h).ne_nil hbs rfl

theorem head_decodeLossy (hb : b < 128) (bs : Bytes) :
    (decodeLossy (b :: bs)).toList.head? = some (Char.ofNat b.toNat) := by
  rw [decodeLossy, pieces]
  simp only [piece, if_pos hb, map_cons, String.toList_ofList, head?_cons]

theorem decodeLossy_of_decode (h : decode bs = .ok s) : decodeLossy bs = s := by
  have hs := spells_of_decode h
  clear h
  rw [decodeLossy, ← String.ofList_toList (s := s)]
  refine congrArg String.ofList ?_
  generalize s.toList = cs at hs
  induction hs with
  | nil => rw [pieces, map_nil]
  | cons hl _ ih => rw [pieces_letter hl, map_cons, ih]

/-- The bytes of a character of the text are among the bytes. -/
theorem encoded_subset_of_decode (h : decode bs = .ok s) (hc : c ∈ s.toList) : encoded c ⊆ bs := by
  intro b hb
  rw [(spells_of_decode h).eq_encoded]
  exact mem_flatMap.2 ⟨c, hc, hb⟩

/-- A character of one byte that ends the text ends the bytes. -/
theorem getLast?_of_decode {cs : List Char} (h : decode bs = .ok s) (hs : s.toList = cs ++ [c])
    (hc : encoded c = [b]) : bs.getLast? = some b := by
  rw [(spells_of_decode h).eq_encoded, hs, flatMap_append, flatMap_singleton, hc, getLast?_concat]

theorem ofString_eq_flatMap (s : String) : ofString s = s.toList.flatMap encoded := by
  conv_lhs => rw [← String.ofList_toList (s := s)]
  rw [ofString, String.toUTF8, String.toByteArray_ofList, List.utf8Encode, toList_data_toByteArray]

/-- Every text is read back from its bytes. -/
theorem decode_ofString (s : String) : decode (ofString s) = .ok s := by
  have hs : ∀ cs : List Char, Spells (cs.flatMap encoded) cs := by
    intro cs
    induction cs with
    | nil => exact .nil
    | cons c cs ih => exact .cons (letter_encoded c) ih
  rw [ofString_eq_flatMap, (hs _).decode, String.ofList_toList]

theorem decode_eq_lossy (s : String) : decode (ofString s) = .ok (decodeLossy (ofString s)) := by
  rw [decodeLossy_of_decode (decode_ofString s), decode_ofString]

/-- ASCII bytes, each read as a character. -/
def asciiChars (bs : Bytes) : List Char :=
  bs.map fun b => Char.ofNat b.toNat

/-- The characters of a text, read off its bytes. An evaluation of the text goes over this equation,
since the bytes of a literal are at hand and its characters are not. -/
theorem toList_of_ascii (h : (ofString s).all (· < 128)) : s.toList = asciiChars (ofString s) := by
  refine (spells_of_decode (decode_ofString s)).unique ?_
  generalize ofString s = bs at h
  induction bs with
  | nil => exact .nil
  | cons b bs ih =>
    rw [all_cons, Bool.and_eq_true, decide_eq_true_eq] at h
    exact (Spells.ascii h.1).append (ih h.2)

theorem ofString_of_decode (h : decode bs = .ok s) : ofString s = bs := by
  rw [(spells_of_decode h).eq_encoded, ofString_eq_flatMap]

/-! ## Edges of characters -/

/-- The bytes up to the offset `i` of a source are a text. -/
def Edge (src : Bytes) (i : Nat) : Prop :=
  ∃ cs, Spells (src.take i) cs

section Edges

variable {src more : Bytes} {cs : List Char} {i j : Nat}

theorem edge_of_length_le (h : Spells src cs) (hi : src.length ≤ i) : Edge src i :=
  ⟨cs, by rwa [take_of_length_le hi]⟩

theorem edge_of_ascii (h : Spells src cs) (hb : b < 128)
    (hd : src.drop i = b :: more) : Edge src i := by
  rw [← take_append_drop i src, hd] at h
  obtain ⟨ds, -, -, hds, -⟩ := h.cut hb
  exact ⟨ds, hds⟩

theorem edge_after_ascii (h : Spells src cs) (hb : b < 128)
    (hd : src.drop i = b :: more) : Edge src (i + 1) := by
  rw [← take_append_drop i src, hd] at h
  obtain ⟨ds, -, -, hds, -⟩ := h.cut_after hb
  refine ⟨ds, ?_⟩
  have ht : src.take (i + 1) = src.take i ++ [b] := by
    rw [take_add, hd, take_succ_cons, take_zero]
  rwa [ht]

/-- What stands in front of an edge goes on up to the next one. -/
theorem Edge.exists_next {xs : List Char} (hj : Edge src j) (hle : i ≤ j) (hxs : Spells (src.take i) xs) :
    ∃ ys, Spells (src.slice i j) ys ∧ Spells (src.take j) (xs ++ ys) := by
  obtain ⟨ds, hds⟩ := hj
  have ht : src.take j = src.take i ++ src.slice i j := by
    have hcut := take_append_drop i (src.take j)
    rw [take_take, Nat.min_eq_left hle] at hcut
    exact hcut.symm
  obtain ⟨ys, rfl, hys⟩ := hxs.cancel (ht ▸ hds)
  exact ⟨ys, hys, hds⟩

/-- What stands between two edges is a part of the text. -/
theorem Edge.exists_spells (hi : Edge src i) (hj : Edge src j) (hle : i ≤ j) :
    ∃ xs ys, Spells (src.take i) xs ∧ Spells (src.slice i j) ys ∧ Spells (src.take j) (xs ++ ys) := by
  obtain ⟨xs, hxs⟩ := hi
  obtain ⟨ys, hys, hf⟩ := hj.exists_next hle hxs
  exact ⟨xs, ys, hxs, hys, hf⟩

/-- What stands between two edges is a text. -/
theorem Edge.exists_decode (hi : Edge src i) (hj : Edge src j) : ∃ s, decode (src.slice i j) = .ok s := by
  rcases Nat.le_total i j with hle | hle
  · obtain ⟨-, ys, -, hys, -⟩ := hi.exists_spells hj hle
    exact ⟨_, hys.decode⟩
  · have hnil : src.slice i j = [] := by
      rw [slice, drop_eq_nil_iff, length_take]
      omega
    rw [hnil]
    exact ⟨_, Spells.nil.decode⟩

/-- Two edges cut a text into three parts. -/
theorem Edge.exists_parts (hi : Edge src i) (hj : Edge src j) (hle : i ≤ j) (h : Spells src cs) :
    ∃ xs ys zs, cs = xs ++ ys ++ zs ∧ Spells (src.take i) xs ∧ Spells (src.slice i j) ys := by
  obtain ⟨xs, ys, hxs, hys, hf⟩ := hi.exists_spells hj hle
  rw [← take_append_drop j src] at h
  obtain ⟨zs, rfl, -⟩ := hf.cancel h
  exact ⟨xs, ys, zs, rfl, hxs, hys⟩

end Edges

end Utf8

end Excerpt
