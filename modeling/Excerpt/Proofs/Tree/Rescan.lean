import Excerpt.Proofs.Tree.Edge
import Excerpt.Proofs.Tree.Place

/-!
# Scanning a part of a source

A token is found by looking at its own bytes and at those behind it, but what
stands behind a token that ends before a cut does not matter: the same token is
found if the source ends at the cut. So a part of a source whose ends cut no
token has the tokens that the source has there, moved to where the part starts,
and an end token of its own.
-/

namespace Excerpt

open List Option

namespace Lexeme

variable {b : UInt8} {cs : Bytes} {m n : Nat}

theorem run_take (p : UInt8 → Bool) (cs : Bytes) (m : Nat) : run p (cs.take m) = min (run p cs) m := by
  induction cs generalizing m with
  | nil => simp [run]
  | cons c cs ih =>
    cases m with
    | zero => simp [run]
    | succ m =>
      have hrun := ih m
      unfold run at hrun ⊢
      rw [take_succ_cons]
      by_cases hc : p c
      · rw [takeWhile_cons_of_pos hc, takeWhile_cons_of_pos hc, length_cons, length_cons, hrun]
        omega
      · rw [takeWhile_cons_of_neg hc, takeWhile_cons_of_neg hc]
        simp

theorem run_le (p : UInt8 → Bool) (cs : Bytes) : run p cs ≤ cs.length :=
  (takeWhile_sublist p).length_le

theorem filter_map_succ (o : Option Nat) (k m : Nat) :
    (o.map (· + k)).filter (· ≤ m + k) = (o.filter (· ≤ m)).map (· + k) := by
  cases o with
  | none => rfl
  | some n => by_cases h : n ≤ m <;> simp [Option.filter, h]

theorem head?_of_take {c : UInt8} (h : (cs.take m).head? = some c) : cs.head? = some c := by
  rw [head?_take] at h
  exact (ite_none_left_eq_some.1 h).2

theorem commentLength_take (cs : Bytes) (m : Nat) :
    commentLength (cs.take m) = (commentLength cs).filter (· ≤ m) := by
  fun_induction commentLength cs generalizing m with
  | case1 cs =>
    rcases m with _ | _ | m
    · rfl
    · rfl
    · simp [commentLength, Option.filter]
  | case2 b cs hs ih =>
    cases m with
    | zero => cases commentLength cs <;> simp [commentLength, Option.filter]
    | succ m =>
      rw [take_succ_cons, commentLength, ih, filter_map_succ]
      intro more hb ht
      obtain ⟨rest, hr⟩ := head?_eq_some_iff.1 (head?_of_take (congrArg head? ht))
      exact hs rest hb hr
  | case3 => simp [commentLength]

theorem quotedLength_take (cs : Bytes) (m : Nat) :
    quotedLength (cs.take m) = (quotedLength cs).filter (· ≤ m) := by
  fun_induction quotedLength cs generalizing m with
  | case1 cs =>
    cases m with
    | zero => rfl
    | succ m => simp [quotedLength, Option.filter]
  | case2 b cs ih =>
    match m with
    | 0 => cases quotedLength cs <;> simp [quotedLength, Option.filter]
    | 1 => cases quotedLength cs <;> simp [quotedLength, Option.filter]
    | m + 2 =>
      rw [take_succ_cons, take_succ_cons, quotedLength, ih, filter_map_succ]
  | case3 =>
    cases m with
    | zero => rfl
    | succ m => simp [quotedLength]
  | case4 b cs hq hl hs ih =>
    have hb : b ≠ 92 := by
      intro hb
      cases cs with
      | nil => exact hs hb rfl
      | cons c cs => exact hl c cs hb rfl
    cases m with
    | zero => cases quotedLength cs <;> simp [quotedLength, Option.filter]
    | succ m =>
      rw [take_succ_cons, quotedLength, ih, filter_map_succ]
      · exact hq
      · exact fun c more hs => absurd hs hb
      · exact fun hs => absurd hs hb
  | case5 => simp [quotedLength]

theorem angledLength_take (cs : Bytes) (m : Nat) :
    angledLength (cs.take m) = (angledLength cs).filter (· ≤ m) := by
  unfold angledLength
  dsimp only
  rw [run_take, drop_take, head?_take]
  by_cases hm : run isAngledByte cs < m
  · rw [Nat.min_eq_left (Nat.le_of_lt hm), if_neg (Nat.sub_ne_zero_of_lt hm)]
    split
    · simp [Option.filter, Nat.succ_le_of_lt hm]
    · rfl
  · rw [Nat.min_eq_right (by omega), if_pos (Nat.sub_self m), if_neg (by simp)]
    split
    · rw [filter_some, if_neg]
      rw [decide_eq_true_eq]
      omega
    · rfl

theorem head?_take_of_pos (hm : 0 < m) : (cs.take m).head? = cs.head? := by
  rw [head?_take, if_neg (Nat.ne_of_gt hm)]

/-- A test of the next byte fails on fewer bytes if it fails on all. -/
theorem head?_test_take {c d : UInt8} (h : ¬ (b == c && cs.head? == some d)) :
    ¬ (b == c && (cs.take m).head? == some d) := by
  rw [Bool.and_eq_true, beq_iff_eq, beq_iff_eq] at h ⊢
  exact fun ht => h ⟨ht.1, head?_of_take ht.2⟩

theorem filter_of_le {o : Option Nat} (h : ∀ n ∈ o, n ≤ m) : o.filter (· ≤ m) = o := by
  cases o with
  | none => rfl
  | some n => simp [Option.filter, h n rfl]

/-- What is read is no longer than `m`. -/
def Short (m : Nat) (found : Option (Token.Class × Nat)) : Prop :=
  ∀ r ∈ found, r.2 ≤ m

theorem comment_take (h : Short m (read.comment b cs)) : read.comment b (cs.take m) = read.comment b cs := by
  unfold read.comment at h ⊢
  rw [drop_take, commentLength_take]
  split at h
  · next hb =>
      cases hlen : commentLength (cs.drop 1) with
      | none => simp
      | some n =>
        have hle : n + 1 ≤ m := h _ (by rw [hlen]; rfl)
        rw [head?_take_of_pos (Nat.zero_lt_of_lt hle), filter_of_le]
        rintro _ ⟨⟩
        omega
  · next hb => rw [if_neg hb, if_neg (head?_test_take hb)]

theorem directive_take (h : Short m (read.directive b cs)) :
    read.directive b (cs.take m) = read.directive b cs := by
  unfold read.directive at h ⊢
  rw [run_take]
  split at h
  · have hle : run isWordStart cs ≤ m := h _ rfl
    rw [Nat.min_eq_left hle]
  · next hb =>
      rw [if_neg hb, if_neg]
      rw [Bool.and_eq_true, decide_eq_true_eq] at hb ⊢
      exact fun ht => hb ⟨ht.1, by omega⟩

theorem quoted_take (h : Short m (read.quoted b cs)) : read.quoted b (cs.take m) = read.quoted b cs := by
  unfold read.quoted at h ⊢
  split
  · next hb =>
      rw [if_pos hb] at h
      rw [quotedLength_take, filter_of_le]
      exact fun n hn => h _ (Option.mem_map_of_mem _ hn)
  · rfl

theorem angled_take (h : Short m (read.angled b cs)) : read.angled b (cs.take m) = read.angled b cs := by
  unfold read.angled at h ⊢
  split
  · next hb =>
      rw [if_pos hb] at h
      rw [angledLength_take, filter_of_le]
      exact fun n hn => h _ (Option.mem_map_of_mem _ hn)
  · rfl

theorem operator_take (h : Short m (read.operator b cs)) :
    read.operator b (cs.take m) = read.operator b cs := by
  unfold read.operator at h ⊢
  split at h
  · next hb =>
      have hle : 1 ≤ m := h _ rfl
      rw [head?_take_of_pos hle]
  · next hb => rw [if_neg hb, if_neg (head?_test_take hb)]

theorem orElse_congr {a a' c c' : Option (Token.Class × Nat)} (h : Short m (a <|> c))
    (ha : Short m a → a' = a) (hc : Short m c → c' = c) : (a' <|> c') = (a <|> c) := by
  cases a with
  | none =>
    rw [ha (by simp [Short]), hc h]
  | some r =>
    rw [ha h]
    rfl

theorem le_of_filter_eq {o : Option Nat} (h : o = some n) (hf : o = o.filter (· ≤ m)) : n ≤ m := by
  rw [h] at hf
  simpa using (filter_eq_some_iff.1 hf.symm).2

/-- What is read are bytes that are there. -/
theorem Stands.le {c : Token.Class} (h : Stands b cs c n) : n ≤ cs.length := by
  cases h with
  | space hb => exact run_le _ _
  | lineFeed hb => exact Nat.zero_le _
  | lineComment hb hcs => exact run_le _ _
  | word hb => exact run_le _ _
  | number hb => exact run_le _ _
  | @blockComment more n hb hcs hlen =>
    have hle := le_of_filter_eq hlen (by rw [← commentLength_take, take_length])
    rw [hcs]
    exact Nat.succ_le_succ hle
  | directive hb => exact run_le _ _
  | quoted hb hlen => exact le_of_filter_eq hlen (by rw [← quotedLength_take, take_length])
  | angled hb hlen => exact le_of_filter_eq hlen (by rw [← angledLength_take, take_length])
  | colons hb hcs =>
    rw [hcs]
    exact Nat.succ_le_succ (Nat.zero_le _)
  | operator hb => exact Nat.zero_le _

/-- A reading that does not pass `m` bytes is the same if no others are there. -/
theorem read_take (h : Short m (read b cs)) : read b (cs.take m) = read b cs := by
  have hrun : ∀ {p : UInt8 → Bool} {c : Token.Class}, Short m (some (c, run p cs)) →
      run p (cs.take m) = run p cs := fun hsh => by
    rw [run_take, Nat.min_eq_left (hsh _ rfl)]
  unfold read at h ⊢
  split
  · next hb =>
      rw [if_pos hb] at h
      rw [hrun h]
  next hsp =>
  rw [if_neg hsp] at h
  split
  · rfl
  next hl =>
  rw [if_neg hl] at h
  split at h
  · next hb =>
      -- the second slash is one of the bytes
      have hpos : 0 < run (· != Bytes.newline) cs := by
        rw [Bool.and_eq_true, beq_iff_eq, beq_iff_eq] at hb
        rw [eq_cons_of_head? hb.2]
        exact Nat.succ_pos _
      rw [head?_take_of_pos (Nat.lt_of_lt_of_le hpos (h _ rfl)), if_pos hb, if_pos hb, hrun h]
  next hs =>
  rw [if_neg hs, if_neg (head?_test_take hs)]
  split
  · next hb =>
      rw [if_pos hb] at h
      rw [hrun h]
  next hw =>
  rw [if_neg hw] at h
  split
  · next hb =>
      rw [if_pos hb] at h
      rw [hrun h]
  next hd =>
  rw [if_neg hd] at h
  exact orElse_congr h comment_take fun h => orElse_congr h directive_take fun h =>
    orElse_congr h quoted_take fun h => orElse_congr h angled_take operator_take

end Lexeme

namespace Token

/-- The token `t'` is the token `t`, `d` bytes and `r` rows further to the front. -/
structure Moved (d r : Nat) (t t' : Token) : Prop where
  kind : t.kind = t'.kind
  text : t.text = t'.text
  start : t.start = t'.start + d
  row : t.point.row = t'.point.row + r

namespace Moved

variable {d r : Nat} {t t' : Token}

theorem stop (h : t.Moved d r t') : t.stop = t'.stop + d := by
  rw [Token.stop, Token.stop, h.start, h.text]
  omega

theorem spelled (h : t.Moved d r t') (s : String) : t.spelled s = t'.spelled s := by
  rw [Token.spelled, Token.spelled, h.text]

theorem spelledIn (h : t.Moved d r t') (ss : List String) : t.spelledIn ss = t'.spelledIn ss := by
  rw [Token.spelledIn, Token.spelledIn, funext h.spelled]

theorem isFinish (h : t.Moved d r t') : t.isFinish = t'.isFinish := by
  rw [Token.isFinish, Token.isFinish, h.kind]

theorem isComment (h : t.Moved d r t') : t.isComment = t'.isComment := by
  rw [Token.isComment, Token.isComment, h.kind]

end Moved

/-- The same bytes at another place have the same tokens, moved. -/
theorem moved_scanFrom (d r offset : Nat) (p q : Point) (hrow : q.row = p.row + r) (bs : Bytes) :
    List.Forall₂ (Moved d r) (scanFrom (offset + d) q bs) (scanFrom offset p bs) := by
  have ha : ∀ {p q : Point} (text : Bytes), q.row = p.row + r →
      (q.after text).row = (p.after text).row + r := by
    intro p q text hrow
    rw [Point.row_after, Point.row_after, hrow, Nat.add_right_comm]
  fun_induction scanFrom offset p bs generalizing q with
  | case1 offset p =>
    rw [scanFrom]
    exact .cons ⟨rfl, rfl, rfl, hrow⟩ .nil
  | case2 offset p b bs hr ih =>
    rw [scanFrom_none hr, Nat.add_right_comm]
    exact ih _ (ha [b] hrow)
  | case3 offset p b bs n text rest kind hr ih =>
    rw [scanFrom_token hr, Nat.add_right_comm]
    exact .cons ⟨rfl, rfl, rfl, hrow⟩ (ih _ (ha text hrow))
  | case4 offset p b bs cls n hr text rest hcls ih =>
    rw [scanFrom_blank hr hcls, Nat.add_right_comm]
    exact ih _ (ha text hrow)

theorem takeWhile_scanFrom_eq_nil {offset i : Nat} (p : Point) (bs : Bytes) (hi : i ≤ offset) :
    (scanFrom offset p bs).takeWhile (·.start < i) = [] := by
  cases hs : scanFrom offset p bs with
  | nil => rfl
  | cons t ts =>
    have hst := (pairwise_scanFrom offset p bs).2 t (by rw [hs]; exact mem_cons_self)
    rw [takeWhile_cons_of_neg]
    simp only [decide_eq_true_eq]
    omega

/-- The bytes up to the cut `k` have the tokens that start before it, and an end token. -/
def CutsAt (offset : Nat) (p : Point) (bs : Bytes) (k : Nat) : Prop :=
  scanFrom offset p (bs.take k) =
    (scanFrom offset p bs).takeWhile (·.start < offset + k) ++
      [⟨.finish, offset + k, p.after (bs.take k), []⟩]

theorem cutsAt_zero (offset : Nat) (p : Point) (bs : Bytes) : CutsAt offset p bs 0 := by
  rw [CutsAt, takeWhile_scanFrom_eq_nil p bs (Nat.le_of_eq (Nat.add_zero offset)), take_zero, scanFrom]
  rfl

section Cut

variable {offset k n : Nat} {p : Point} {b : UInt8} {bs : Bytes}

theorem length_text (hlen : n ≤ bs.length) : (b :: bs.take n).length = n + 1 := by
  rw [length_cons, length_take, Nat.min_eq_left hlen]

/-- The cut in what is left when the first `n + 1` bytes have been read. -/
theorem CutsAt.passed (hn : n ≤ k) (hlen : n ≤ bs.length)
    (h : CutsAt (offset + (b :: bs.take n).length) (p.after (b :: bs.take n)) (bs.drop n) (k - n)) :
    scanFrom (offset + (b :: bs.take n).length) (p.after (b :: bs.take n)) ((bs.take k).drop n) =
      (scanFrom (offset + (b :: bs.take n).length) (p.after (b :: bs.take n))
          (bs.drop n)).takeWhile (·.start < offset + (k + 1)) ++
        [⟨.finish, offset + (k + 1), p.after ((b :: bs).take (k + 1)), []⟩] := by
  have ho : offset + (b :: bs.take n).length + (k - n) = offset + (k + 1) := by
    rw [length_text hlen]
    omega
  rw [drop_take, h, ho, ← Point.after_append, cons_append, ← take_add,
    Nat.add_sub_cancel' hn, take_succ_cons]

theorem short_of_read {r : Class × Nat} (hr : Lexeme.read b bs = some r) (hn : r.2 ≤ k) :
    Lexeme.Short k (Lexeme.read b bs) := by
  rw [hr]
  rintro _ ⟨⟩
  exact hn

theorem cutsAt_none (hr : Lexeme.read b bs = none)
    (h : CutsAt (offset + 1) (p.step b) bs k) : CutsAt offset p (b :: bs) (k + 1) := by
  have hs : Lexeme.Short k (Lexeme.read b bs) := by simp [Lexeme.Short, hr]
  have ht := (Lexeme.read_take hs).trans hr
  rw [CutsAt, take_succ_cons, scanFrom_none ht, scanFrom_none hr, h,
    Nat.add_right_comm offset, Nat.add_assoc]
  rfl

theorem cutsAt_token {kind : Kind} (hr : Lexeme.read b bs = some (.token kind, n)) (hn : n ≤ k)
    (h : CutsAt (offset + (b :: bs.take n).length) (p.after (b :: bs.take n)) (bs.drop n) (k - n)) :
    CutsAt offset p (b :: bs) (k + 1) := by
  have ht := (Lexeme.read_take (short_of_read hr hn)).trans hr
  rw [CutsAt, take_succ_cons, scanFrom_token ht, scanFrom_token hr, take_take,
    Nat.min_eq_left hn, h.passed hn (Lexeme.stands_of_read hr).le, takeWhile_cons_of_pos]
  · rfl
  · simp

theorem cutsAt_blank {c : Class} (hr : Lexeme.read b bs = some (c, n))
    (hc : ∀ kind, c ≠ .token kind) (hk : k ≤ bs.length)
    (h : CutsAt (offset + (b :: bs.take n).length) (p.after (b :: bs.take n)) (bs.drop n) (k - n)) :
    CutsAt offset p (b :: bs) (k + 1) := by
  rw [CutsAt, take_succ_cons, scanFrom_blank hr hc]
  by_cases hn : n ≤ k
  · have ht := (Lexeme.read_take (short_of_read hr hn)).trans hr
    rw [scanFrom_blank ht hc, take_take, Nat.min_eq_left hn, h.passed hn (Lexeme.stands_of_read hr).le]
    rfl
  · -- the cut lies within a run of blanks
    cases Lexeme.stands_of_read hr with
    | space hb =>
      have ht : Lexeme.read b (bs.take k) = some (.space, k) := by
        rw [Lexeme.read, if_pos hb, Lexeme.run_take, Nat.min_eq_right (by omega)]
      rw [scanFrom_blank ht hc, take_take, Nat.min_self, drop_take, Nat.sub_self,
        take_zero, scanFrom, takeWhile_scanFrom_eq_nil]
      · rw [length_text hk]
        rfl
      · rw [length_text (Lexeme.run_le _ _)]
        omega
    | lineFeed hb => exact absurd (Nat.zero_le k) hn
    | _ => exact absurd rfl (hc _)

end Cut

/-- The bytes up to a cut that no token straddles have the tokens that start before it. -/
theorem cutsAt_of_stop_le {offset : Nat} {p : Point} {bs : Bytes} (k : Nat) (hk : k ≤ bs.length)
    (h : ∀ t ∈ scanFrom offset p bs, t.start < offset + k → t.stop ≤ offset + k) : CutsAt offset p bs k := by
  fun_induction scanFrom offset p bs generalizing k with
  | case1 offset p =>
    cases k with
    | zero => exact cutsAt_zero offset p []
    | succ k => cases hk
  | case2 offset p b bs hr ih =>
    cases k with
    | zero => exact cutsAt_zero offset p _
    | succ k =>
      refine cutsAt_none hr (ih k (Nat.le_of_succ_le_succ hk) fun t ht hlt => ?_)
      have hs := h t ht (by omega)
      omega
  | case3 offset p b bs n text rest kind hr ih =>
    cases k with
    | zero => exact cutsAt_zero offset p _
    | succ k =>
      have hte : text.length = n + 1 := length_text (Lexeme.stands_of_read hr).le
      rw [length_cons, Nat.succ_le_succ_iff] at hk
      have hn : n ≤ k := by
        have hs := h _ mem_cons_self (Nat.lt_add_of_pos_right (Nat.succ_pos k))
        rw [stop] at hs
        dsimp only at hs
        omega
      refine cutsAt_token hr hn (ih (k - n) ?_ fun t ht hlt => ?_)
      · rw [length_drop]
        omega
      · have hs := h t (mem_cons_of_mem _ ht) (by omega)
        omega
  | case4 offset p b bs cls n hr text rest hcls ih =>
    cases k with
    | zero => exact cutsAt_zero offset p _
    | succ k =>
      have hte : text.length = n + 1 := length_text (Lexeme.stands_of_read hr).le
      rw [length_cons, Nat.succ_le_succ_iff] at hk
      refine cutsAt_blank hr hcls hk (ih (k - n) ?_ fun t ht hlt => ?_)
      · rw [length_drop]
        omega
      · have hst := (pairwise_scanFrom _ _ _).2 t ht
        have hs := h t ht (by omega)
        omega

section Part

variable {src : Bytes} {t : Token} {ts : List Token}

theorem resumes_scan (h : t :: ts <:+ scan src) : Resumes 0 .origin src t ts t.start := by
  obtain ⟨k, hk⟩ := exists_resumes h
  have hs : t.start = k := by rw [hk.start, Nat.zero_add]
  rwa [hs]

/-- A token starts on the row that the line feeds before it give. -/
theorem row_eq_newlines (h : t ∈ scan src) : t.point.row = Bytes.newlines (src.take t.start) := by
  rw [point_eq h, Point.row_ofOffset]

/-- The tokens of a part of a source are those of the source, moved, if its end cuts none. -/
theorem moved_scan_slice {stop : Nat} (h : t :: ts <:+ scan src) (hs : t.start ≤ stop)
    (hst : stop ≤ src.length) (hcut : ∀ u ∈ t :: ts, u.start < stop → u.stop ≤ stop) :
    ∃ finish : Token, finish.kind = .finish ∧ finish.text = [] ∧ List.Forall₂ (Moved t.start t.point.row)
        ((t :: ts).takeWhile (·.start < stop) ++ [finish]) (scan (src.slice t.start stop)) := by
  have ht := (resumes_scan h).tokens
  have hend : t.start + (stop - t.start) = stop := Nat.add_sub_cancel' hs
  have hc : CutsAt t.start t.point (src.drop t.start) (stop - t.start) := by
    refine cutsAt_of_stop_le _ ?_ ?_
    · rw [length_drop]
      omega
    · rw [← ht, hend]
      exact hcut
  rw [CutsAt, ← ht, hend] at hc
  have hm := moved_scanFrom t.start t.point.row 0 .origin t.point
    (Nat.zero_add t.point.row).symm ((src.drop t.start).take (stop - t.start))
  rw [Nat.zero_add, hc, ← drop_take] at hm
  exact ⟨_, rfl, rfl, hm⟩

end Part

end Token

end Excerpt
