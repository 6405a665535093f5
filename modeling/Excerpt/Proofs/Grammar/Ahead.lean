import Excerpt.Proofs.Grammar.Reading
import Excerpt.Proofs.Tree.Edge

/-!
# What is left lies ahead

What has been read ends before the tokens that are left. A definition ends with
its line, and the tokens on that line are passed over.
-/

namespace Excerpt

open Node List

/-- The tokens start at the offset or behind it. -/
def Tokens.Ahead (ts : List Token) (i : Nat) : Prop :=
  ∀ t ∈ ts, i ≤ t.start

namespace Tokens

variable {ts us : List Token} {i : Nat}

theorem Ahead.suffix (h : Ahead ts i) (hus : us <:+ ts) : Ahead us i :=
  fun t ht => h t (hus.subset ht)

theorem ahead_of_cons {t : Token} (h : (t :: ts).Pairwise (·.stop ≤ ·.start)) : Ahead ts t.stop :=
  (pairwise_cons.1 h).1

section Scan

variable {src : Bytes} {t : Token}

theorem ahead_tail (hts : t :: ts <:+ Token.scan src) : Ahead ts t.stop :=
  ahead_of_cons ((Token.pairwise_scan src).sublist hts.sublist)

/-- The first of some tokens lies at its own offset, and the others lie behind it. -/
theorem ahead_self (hts : t :: ts <:+ Token.scan src) : Ahead (t :: ts) t.start :=
  forall_mem_cons.2 ⟨Nat.le_refl _, fun u hu =>
    Nat.le_trans t.start_le_stop (ahead_tail hts u hu)⟩

/-- Behind the tokens that start before an offset, all start behind it. -/
theorem ahead_skipTo (hts : ts <:+ Token.scan src) (hi : i ≤ src.length) :
    Ahead (skipTo (i ≤ ·.start) ts) i := by
  have hs := (skipTo_suffix (i ≤ ·.start) ts).trans hts
  have hh := head?_dropWhile_not (fun t : Token => !(decide (i ≤ t.start) || t.isFinish)) ts
  unfold skipTo at hs ⊢
  generalize ts.dropWhile _ = us at hs hh ⊢
  cases us with
  | nil => exact fun t ht => nomatch ht
  | cons u us =>
    have hu : i ≤ u.start := by
      simp only [head?_cons, Bool.not_eq_false', Bool.or_eq_true, decide_eq_true_eq] at hh
      rcases hh with hle | hf
      · exact hle
      · have hst := (Token.start_of_finish (hs.subset mem_cons_self) (beq_iff_eq.1 hf)).1
        omega
    exact fun t ht => Nat.le_trans hu (ahead_self hs t ht)

end Scan

end Tokens

/-- A token ends within the source. -/
theorem Token.stop_le_length {src : Bytes} {t : Token} (h : t ∈ scan src) : t.stop ≤ src.length := by
  rcases readAt_of_mem_scan h with ⟨hk, hnil⟩ | ⟨b, cs, n, hd, ht, -⟩
  · rw [stop, hnil, (start_of_finish h hk).1, length_nil]
    omega
  · have hlen := congrArg List.length hd
    rw [length_drop, length_cons] at hlen
    rw [stop, ht, length_cons, length_take]
    omega

theorem BlockOwner.close_stop (owner : BlockOwner) (body : Node) : (owner.close body).stop = body.stop := by
  cases owner with
  | nobody => rfl
  | space keyword name => cases name <;> rfl
  | record keyword name => cases name <;> rfl
  | function first declarator => rfl
  | message keyword name => rfl

/-- The offset is the end of a token, or the end of a definition in which it stands. -/
def Node.EndsAt (src : Bytes) (i : Nat) : Prop :=
  ∃ t ∈ Token.scan src, i = t.stop ∨ i = t.stop + Grammar.definitionLength (src.drop t.stop)

namespace Grammar

theorem definitionLength_le (bs : Bytes) : definitionLength bs ≤ bs.length := by
  fun_induction definitionLength bs with
  | case1 => exact Nat.le_refl _
  | case2 bs ih => exact Nat.succ_le_succ (Nat.succ_le_succ ih)
  | case3 bs => exact Nat.succ_le_succ (Nat.zero_le _)
  | case4 b bs hlo hl ih => exact Nat.succ_le_succ ih

theorem endsAt_le {src : Bytes} {i : Nat} (h : EndsAt src i) : i ≤ src.length := by
  obtain ⟨t, ht, hi⟩ := h
  have hs := Token.stop_le_length ht
  rcases hi with rfl | rfl
  · exact hs
  · have hlen := definitionLength_le (src.drop t.stop)
    rw [length_drop] at hlen
    omega

end Grammar

end Excerpt
