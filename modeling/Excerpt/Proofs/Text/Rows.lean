import Excerpt.Proofs.Text.Lines
import Excerpt.Proofs.Text.Split

/-!
# Lines and rows

Rows are counted by line feeds, and lines end at other characters too. In a text
whose line ends are line feeds, alone or behind a carriage return, the two agree:
each line feed ends a line. So the lines of a part of the text that have a line
feed of the part on either side are lines of the text, as many rows further down
as there are line feeds before the part.
-/

namespace Excerpt.Text

open List

/-- Whether each line end is a line feed, alone or behind a carriage return. -/
def plainEnds : List Char → Bool
  | [] => true
  | c :: cs => (!isLineEnd c || c == '\n' || (c == '\r' && cs.head? == some '\n')) && plainEnds cs

variable {c : Char} {cs xs ys zs line : List Char} {lines : List (List Char)}

/-- A character that ends a line starts a new one, except that a carriage return leaves this to a line
feed behind it. Any other character goes to the first line. -/
theorem linesOf_cons_eq (c : Char) (cs : List Char) : linesOf (c :: cs) =
      if isLineEnd c then if c = '\r' ∧ cs.head? = some '\n' then linesOf cs else [] :: linesOf cs
      else consHead c (linesOf cs) := by
  split
  · next hend =>
      split
      · next hc =>
          obtain ⟨rfl, hh⟩ := hc
          cases cs with
          | nil => cases hh
          | cons d cs =>
            cases hh
            rw [linesOf, linesOf]
            · rfl
            · simp
      · next hc =>
          rw [linesOf]
          · rw [if_pos hend]
          · rintro ds rfl rfl
            exact hc ⟨rfl, rfl⟩
  · next hend => exact linesOf_cons (Bool.not_eq_true _ ▸ hend) cs

theorem linesOf_feed (cs : List Char) : linesOf ('\n' :: cs) = [] :: linesOf cs := by
  rw [linesOf_cons_eq, if_pos (by decide), if_neg (fun h => absurd h.1 (by decide))]

theorem linesOf_cons_ne_nil (c : Char) (cs : List Char) : linesOf (c :: cs) ≠ [] := by
  induction cs generalizing c with
  | nil =>
    rw [linesOf_cons_eq]
    split
    · rw [if_neg (fun h => nomatch h.2)]
      exact cons_ne_nil _ _
    · exact cons_ne_nil _ _
  | cons d cs ih =>
    rw [linesOf_cons_eq]
    split
    · split
      · exact ih d
      · exact cons_ne_nil _ _
    · cases linesOf (d :: cs) with
      | nil => exact cons_ne_nil _ _
      | cons l ls => exact cons_ne_nil _ _

theorem exists_of_linesOf_eq_cons
    (h : linesOf cs = line :: lines) : ∃ rest, cs = line ++ rest ∧ ∀ c ∈ rest.head?, isLineEnd c := by
  fun_induction linesOf cs generalizing line lines with
  | case1 => cases h
  | case2 cs ih =>
    cases h
    refine ⟨_, rfl, ?_⟩
    rintro c ⟨⟩
    decide
  | case3 c cs _ hc ih =>
    cases h
    refine ⟨_, rfl, ?_⟩
    rintro d ⟨⟩
    exact hc
  | case4 c cs _ hc hnil ih =>
    cases h
    cases cs with
    | nil => exact ⟨[], rfl, by simp⟩
    | cons d cs => exact absurd hnil (linesOf_cons_ne_nil d cs)
  | case5 c cs _ hc first more hco ih =>
    cases h
    obtain ⟨rest, rfl, hr⟩ := ih hco
    exact ⟨rest, rfl, hr⟩

theorem exists_linesOf_end (hc : isLineEnd c) (cs : List Char) :
    ∃ lines, linesOf (c :: cs) = [] :: lines := by
  rw [linesOf_cons_eq, if_pos hc]
  split
  · next hcr =>
      cases cs with
      | nil => cases hcr.2
      | cons d cs =>
        cases hcr.2
        exact ⟨_, linesOf_feed cs⟩
  · exact ⟨_, rfl⟩

/-- A line is the first line of a text that goes on with a line end, or not at all. -/
theorem exists_linesOf_append {rest : List Char} (hl : ∀ c ∈ line, isLineEnd c = false)
    (hne : line ≠ []) (hr : ∀ c ∈ rest.head?, isLineEnd c) :
    ∃ lines, linesOf (line ++ rest) = line :: lines := by
  cases rest with
  | nil =>
    rw [append_nil]
    exact ⟨[], linesOf_of_no_end hl hne⟩
  | cons c rest =>
    obtain ⟨lines, hli⟩ := exists_linesOf_end (hr c rfl) rest
    refine ⟨lines, ?_⟩
    clear hne
    induction line with
    | nil => exact hli
    | cons d line ih =>
      obtain ⟨hd, hl⟩ := forall_mem_cons.1 hl
      rw [cons_append, linesOf_cons hd, ih hl, consHead]

/-- The first line of a text is the first line of a part at the front that holds it. -/
theorem exists_linesOf_front {more : List Char} (hne : line ≠ [])
    (h : linesOf (line ++ more ++ zs) = line :: lines) :
    ∃ lines', linesOf (line ++ more) = line :: lines' := by
  have hl : ∀ c ∈ line, isLineEnd c = false := linesOf_no_end _ line (h ▸ mem_cons_self)
  obtain ⟨rest, hr, hh⟩ := exists_of_linesOf_eq_cons h
  rw [append_assoc, append_cancel_left_eq] at hr
  refine exists_linesOf_append hl hne fun c hc => hh c ?_
  cases more with
  | nil => cases hc
  | cons d more => exact hr ▸ hc

theorem linesOf_concat_ne_nil (xs : List Char) : linesOf (xs ++ ['\n']) ≠ [] := by
  cases xs with
  | nil => exact linesOf_cons_ne_nil _ _
  | cons x xs => exact linesOf_cons_ne_nil _ _

/-- A carriage return ends a line as a line feed does. -/
theorem linesOf_unifyEndsOf (cs : List Char) : linesOf (unifyEndsOf cs) = linesOf cs := by
  fun_induction unifyEndsOf cs with
  | case1 => rfl
  | case2 cs ih =>
    rw [linesOf_feed, linesOf_cons_eq '\r', if_pos (by decide), if_pos ⟨rfl, rfl⟩, linesOf_feed, ih]
  | case3 c cs hc ih =>
    rw [linesOf_cons_eq c]
    by_cases hr : c = '\r'
    · have hnot : ¬ (c = '\r' ∧ cs.head? = some '\n') := by
        rintro ⟨-, hh⟩
        cases cs with
        | nil => cases hh
        | cons d cs =>
          cases hh
          exact hc cs hr rfl
      rw [if_pos (beq_iff_eq.2 hr), linesOf_feed, ih, if_pos (hr ▸ rfl), if_neg hnot]
    · rw [if_neg (by simpa using hr), linesOf_cons_eq, ih]
      simp only [hr, false_and, if_false]

theorem linesOf_append_feed (xs ys : List Char) :
    linesOf (xs ++ '\n' :: ys) = linesOf (xs ++ ['\n']) ++ linesOf ys := by
  induction xs with
  | nil =>
    rw [nil_append, nil_append, linesOf_feed, linesOf_feed]
    rfl
  | cons x xs ih =>
    have hh : (xs ++ '\n' :: ys).head? = (xs ++ ['\n']).head? := by simp
    rw [cons_append, cons_append, linesOf_cons_eq, linesOf_cons_eq, hh, ih]
    split
    · split
      · rfl
      · rfl
    · cases hl : linesOf (xs ++ ['\n']) with
      | nil => exact absurd hl (linesOf_concat_ne_nil xs)
      | cons l ls => rfl

theorem plainEnds_of_append (xs : List Char) (h : plainEnds (xs ++ ys)) : plainEnds ys := by
  induction xs with
  | nil => exact h
  | cons x xs ih =>
    rw [cons_append, plainEnds, Bool.and_eq_true] at h
    exact ih h.2

theorem plainEnds_concat (h : plainEnds (xs ++ '\n' :: ys)) : plainEnds (xs ++ ['\n']) := by
  induction xs with
  | nil => rfl
  | cons x xs ih =>
    have hh : (xs ++ '\n' :: ys).head? = (xs ++ ['\n']).head? := by simp
    rw [cons_append, plainEnds, hh, Bool.and_eq_true] at h
    rw [cons_append, plainEnds, Bool.and_eq_true]
    exact ⟨h.1, ih h.2⟩

theorem length_linesOf_concat (h : plainEnds (xs ++ ['\n'])) :
    (linesOf (xs ++ ['\n'])).length = xs.count '\n' + 1 := by
  induction xs with
  | nil => rfl
  | cons x xs ih =>
    rw [cons_append, plainEnds, Bool.and_eq_true] at h
    obtain ⟨hx, hxs⟩ := h
    have hlen := ih hxs
    rw [cons_append, linesOf_cons_eq]
    split
    · next hend =>
        split
        · next hc =>
            rw [hlen, hc.1, count_cons_of_ne (by decide)]
        · next hc =>
            have hf : x = '\n' := by
              simp only [hend, Bool.not_true, Bool.false_or, Bool.or_eq_true, Bool.and_eq_true,
                beq_iff_eq] at hx
              exact hx.resolve_right hc
            rw [length_cons, hlen, hf, count_cons_self]
    · next hend =>
        have hne : x ≠ '\n' := fun heq => hend (heq ▸ rfl)
        rw [count_cons_of_ne hne, ← hlen]
        cases hl : linesOf (xs ++ ['\n']) with
        | nil => exact absurd hl (linesOf_concat_ne_nil xs)
        | cons l ls => rfl

/-- A row without its line feed is the line that it ends, up to a carriage return. -/
theorem exists_linesOf_row (h : plainEnds (xs ++ ['\n'])) (hxs : '\n' ∉ xs) :
    ∃ line, linesOf (xs ++ ['\n']) = [line] ∧ (xs = line ∨ xs = line ++ ['\r']) := by
  induction xs with
  | nil => exact ⟨[], rfl, .inl rfl⟩
  | cons x xs ih =>
    rw [mem_cons, not_or] at hxs
    rw [cons_append, plainEnds, Bool.and_eq_true] at h
    obtain ⟨hx, hen⟩ := h
    rw [cons_append]
    by_cases hend : isLineEnd x
    · simp only [hend, Bool.not_true, Bool.false_or, Bool.or_eq_true, Bool.and_eq_true, beq_iff_eq] at hx
      obtain ⟨rfl, hh⟩ := hx.resolve_left (Ne.symm hxs.1)
      cases xs with
      | nil => exact ⟨[], rfl, .inr rfl⟩
      | cons y ys =>
        cases hh
        exact absurd mem_cons_self hxs.2
    · obtain ⟨line, hl, hrow⟩ := ih hen hxs.2
      rw [linesOf_cons (eq_false_of_ne_true hend), hl]
      exact ⟨x :: line, rfl, hrow.imp (congrArg _) (congrArg _)⟩

theorem no_end_of_plainEnds (h : plainEnds xs) (hxs : '\n' ∉ xs) : ∀ c ∈ xs, isLineEnd c = false := by
  induction xs with
  | nil => simp
  | cons x xs ih =>
    rw [mem_cons, not_or] at hxs
    rw [plainEnds, Bool.and_eq_true] at h
    obtain ⟨hx, hen⟩ := h
    refine forall_mem_cons.2 ⟨?_, ih hen hxs.2⟩
    by_contra hend
    simp only [eq_true_of_ne_false hend, Bool.not_true, Bool.false_or, Bool.or_eq_true,
      Bool.and_eq_true, beq_iff_eq] at hx
    obtain ⟨-, hh⟩ := hx.resolve_left (Ne.symm hxs.1)
    exact hxs.2 (mem_of_head? hh)

/-- A row that holds something is a line, up to a carriage return. -/
theorem exists_line_of_row {r : Nat} {row : List Char} (h : plainEnds cs)
    (hrow : (partsFrom ['\n'] 0 cs)[r]? = some row) (hne : row ≠ []) :
    ∃ line, (linesOf cs)[r]? = some line ∧ (row = line ∨ row = line ++ ['\r']) := by
  induction r generalizing cs with
  | zero =>
    by_cases hmem : '\n' ∈ cs
    · obtain ⟨xs, ys, rfl, hxs⟩ := eq_append_cons_of_mem hmem
      rw [partsFrom_append hxs] at hrow
      cases hrow
      obtain ⟨line, hl, hrow⟩ := exists_linesOf_row (plainEnds_concat h) hxs
      rw [linesOf_append_feed, hl]
      exact ⟨line, rfl, hrow⟩
    · rw [partsFrom_of_not_mem hmem] at hrow
      cases hrow
      rw [linesOf_of_no_end (no_end_of_plainEnds h hmem) hne]
      exact ⟨_, rfl, .inl rfl⟩
  | succ r ih =>
    by_cases hmem : '\n' ∈ cs
    · obtain ⟨xs, ys, rfl, hxs⟩ := eq_append_cons_of_mem hmem
      rw [partsFrom_append hxs, getElem?_cons_succ] at hrow
      obtain ⟨line, hl, -⟩ := exists_linesOf_row (plainEnds_concat h) hxs
      rw [linesOf_append_feed, hl]
      exact ih (plainEnds_of_append (xs ++ ['\n']) (by simpa using h)) hrow
    · rw [partsFrom_of_not_mem hmem] at hrow
      cases hrow

/-- The lines that end within a part at the front are lines of the part. -/
theorem take_linesOf_append (h : plainEnds (xs ++ ys)) {m : Nat} (hm : m ≤ xs.count '\n') :
    (linesOf (xs ++ ys)).take m = (linesOf xs).take m := by
  induction m generalizing xs with
  | zero => rw [take_zero, take_zero]
  | succ m ih =>
    have hmem : '\n' ∈ xs := count_pos_iff.1 (Nat.lt_of_lt_of_le (Nat.succ_pos m) hm)
    obtain ⟨line, more, rfl, hl⟩ := eq_append_cons_of_mem hmem
    rw [append_assoc, cons_append] at h ⊢
    have hlen := length_linesOf_concat (plainEnds_concat h)
    rw [count_eq_zero.2 hl] at hlen
    rw [count_append, count_eq_zero.2 hl, count_cons_self] at hm
    have hmo := ih (plainEnds_of_append (line ++ ['\n']) (by simpa using h))
      (show m ≤ more.count '\n' by omega)
    rw [linesOf_append_feed, linesOf_append_feed line more, take_append, take_append, hlen,
      Nat.zero_add, Nat.add_sub_cancel, hmo]

/-- The lines of a part that have a line feed of the part on either side are lines of the text. -/
theorem between_linesOf_append (h : plainEnds (xs ++ ys ++ zs)) {a b : Nat} (ha : 0 < a)
    (hb : b ≤ ys.count '\n') :
    ((linesOf (xs ++ ys ++ zs)).take (b + xs.count '\n')).drop (a + xs.count '\n') =
      ((linesOf ys).take b).drop a := by
  by_cases hab : b ≤ a
  · -- there are no lines between
    have hn : ∀ (ls : List (List Char)) (k : Nat), (ls.take (b + k)).drop (a + k) = [] := by
      intro ls k
      rw [drop_eq_nil_iff, length_take]
      omega
    rw [hn, ← hn (linesOf ys) 0, Nat.add_zero, Nat.add_zero]
  · have hmem : '\n' ∈ ys := count_pos_iff.1 (by omega)
    obtain ⟨line, more, rfl, hl⟩ := eq_append_cons_of_mem hmem
    have hn := count_eq_zero.2 hl
    rw [count_append, hn, count_cons_self, Nat.zero_add] at hb
    have hs : xs ++ (line ++ '\n' :: more) ++ zs = (xs ++ line) ++ '\n' :: (more ++ zs) := by
      simp
    rw [hs] at h ⊢
    have hlen := length_linesOf_concat (plainEnds_concat h)
    rw [count_append, hn, Nat.add_zero] at hlen
    have hlen' := length_linesOf_concat (plainEnds_of_append xs (by simpa using plainEnds_concat h))
    rw [hn, Nat.zero_add] at hlen'
    have hm : (linesOf (more ++ zs)).take (b - 1) = (linesOf more).take (b - 1) :=
      take_linesOf_append (plainEnds_of_append (xs ++ line ++ ['\n']) (by simpa using h))
        (by omega)
    rw [linesOf_append_feed, linesOf_append_feed line more]
    have hcut : ∀ (front back : List (List Char)) (k : Nat), front.length = k + 1 →
        ((front ++ back).take (b + k)).drop (a + k) = (back.take (b - 1)).drop (a - 1) := by
      intro front back k hf
      rw [show b + k = front.length + (b - 1) by omega, show a + k = front.length + (a - 1) by omega,
        take_length_add_append, drop_length_add_append]
    rw [hcut _ _ _ hlen, hm, ← hcut _ (linesOf more) 0 hlen', Nat.add_zero, Nat.add_zero]

/-- The text is empty or ends with a line feed. -/
def WholeLines (xs : List Char) : Prop :=
  xs = [] ∨ ∃ front, xs = front ++ ['\n']

namespace WholeLines

theorem of_append (h : WholeLines (xs ++ ys)) : WholeLines ys := by
  rcases eq_nil_or_concat' ys with hnil | ⟨front, c, rfl⟩
  · exact .inl hnil
  · rcases h with h | ⟨front', h⟩
    · simp at h
    · rw [← append_assoc] at h
      obtain ⟨-, hc⟩ := append_inj' h rfl
      exact .inr ⟨front, by rw [hc]⟩

variable (h : WholeLines xs)

include h

theorem linesOf_append (ys : List Char) : linesOf (xs ++ ys) = linesOf xs ++ linesOf ys := by
  rcases h with rfl | ⟨front, rfl⟩
  · rfl
  · rw [append_assoc, singleton_append, linesOf_append_feed]

theorem plainEnds_front (hen : plainEnds (xs ++ ys)) : plainEnds xs := by
  rcases h with rfl | ⟨front, rfl⟩
  · rfl
  · rw [append_assoc, singleton_append] at hen
    exact plainEnds_concat hen

theorem length_linesOf (hen : plainEnds xs) : (linesOf xs).length = xs.count '\n' := by
  rcases h with rfl | ⟨front, rfl⟩
  · rfl
  · rw [length_linesOf_concat hen, count_append, count_singleton_self]

end WholeLines

/-- Of a part at the end that is made of whole lines, all lines but the first are lines of the text. -/
theorem mem_linesOf_append (h : plainEnds (xs ++ ys)) (hys : WholeLines ys)
    (hl : line ∈ (linesOf ys).tail) : line ∈ linesOf (xs ++ ys) := by
  have hen : plainEnds (xs ++ ys ++ []) := by rwa [append_nil]
  have hb := between_linesOf_append hen Nat.one_pos (Nat.le_refl (ys.count '\n'))
  have hlen := hys.length_linesOf (plainEnds_of_append xs h)
  rw [append_nil, ← hlen, take_length, drop_one] at hb
  rw [← hb] at hl
  exact mem_of_mem_take (mem_of_mem_drop hl)

end Excerpt.Text
