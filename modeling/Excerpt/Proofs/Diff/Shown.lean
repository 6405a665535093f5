import Excerpt.Proofs.Diff.Unified
import Mathlib.Algebra.Order.Ring.Int
import Mathlib.Tactic.Linarith

/-!
# What lines say about the new text

`shown o n ls k` reads off lines, the first of which stand at line `o` of the old
and line `n` of the new text, what they say about line `k` of the new text:
nothing, that it was added, or its number in the old text. For all lines of both
texts this is the relation `KeptAt`; for the lines of one hunk it is what reading
the hunk enters into a line map.
-/

namespace Excerpt

open List Option

namespace Unified

variable {old new : Nat} {ls : List Line} {k m : Int}

namespace Line

/-- How many lines of the old text a line stands for. -/
def oldCount (l : Line) : Nat :=
  if l.old?.isSome then 1 else 0

/-- How many lines of the new text a line stands for. -/
def newCount (l : Line) : Nat :=
  if l.new?.isSome then 1 else 0

theorem newCount_le_one (l : Line) : l.newCount ≤ 1 := by
  unfold newCount
  split <;> omega

theorem isKept_iff (l : Line) : l.isKept ↔ l.oldCount = 1 ∧ l.newCount = 1 := by
  cases l <;> simp [isKept, oldCount, newCount, old?, new?]

end Line

/-- What lines that start at `old` and `new` say about line `k` of the new
text. -/
def shown (old new : Nat) : List Line → Int → Option (Option Int)
  | [], _ => none
  | l :: ls, k =>
    if l.newCount = 1 ∧ k = new then some (if l.isKept then some old else none)
    else shown (old + l.oldCount) (new + l.newCount) ls k

attribute [local simp] shown

theorem length_olds_cons (l : Line) (ls : List Line) :
    (olds (l :: ls)).length = l.oldCount + (olds ls).length := by
  cases l <;> simp [olds, Line.old?, Line.oldCount, filterMap_cons] <;> omega

theorem length_news_cons (l : Line) (ls : List Line) :
    (news (l :: ls)).length = l.newCount + (news ls).length := by
  cases l <;> simp [news, Line.new?, Line.newCount, filterMap_cons] <;> omega

theorem olds_append (as bs : List Line) : olds (as ++ bs) = olds as ++ olds bs :=
  filterMap_append

theorem news_append (as bs : List Line) : news (as ++ bs) = news as ++ news bs :=
  filterMap_append

@[simp] theorem olds_map_kept (ts : List (List Char)) : olds (ts.map Line.kept) = ts := by
  induction ts with
  | nil => rfl
  | cons t ts ih => simpa [olds, Line.old?] using ih

@[simp] theorem news_map_kept (ts : List (List Char)) : news (ts.map Line.kept) = ts := by
  induction ts with
  | nil => rfl
  | cons t ts ih => simpa [news, Line.new?] using ih

theorem length_olds_lines (b : Block) : (olds b.lines).length = b.gap.length + (olds b.body).length := by
  rw [Block.lines, olds_append, olds_map_kept, length_append]

theorem length_news_lines (b : Block) : (news b.lines).length = b.gap.length + (news b.body).length := by
  rw [Block.lines, news_append, news_map_kept, length_append]

/-- Lines speak of the lines of the new text that they hold, and of no others. -/
theorem shown_isSome_iff (old new : Nat) (ls : List Line) (k : Int) :
    (shown old new ls k).isSome ↔ (new : Int) ≤ k ∧ k < new + (news ls).length := by
  induction ls generalizing old new with
  | nil =>
    simp only [shown, news, filterMap_nil, length_nil]
    simp
  | cons l ls ih =>
    have hle := l.newCount_le_one
    rw [length_news_cons, shown]
    split
    · simp only [isSome_some, true_iff]
      omega
    · rw [ih]
      omega

theorem shown_eq_none_of_lt (h : k < new) : shown old new ls k = none := by
  rw [← not_isSome_iff_eq_none, shown_isSome_iff]
  omega

theorem shown_eq_none_of_ge (h : (new : Int) + (news ls).length ≤ k) :
    shown old new ls k = none := by
  rw [← not_isSome_iff_eq_none, shown_isSome_iff]
  omega

theorem shown_append (old new : Nat) (as bs : List Line) (k : Int) : shown old new (as ++ bs) k =
      (shown old new as k).or (shown (old + (olds as).length) (new + (news as).length) bs k) := by
  induction as generalizing old new with
  | nil => simp [olds, news]
  | cons l as ih =>
    rw [cons_append, length_olds_cons, length_news_cons, shown, shown, ih]
    split
    · rfl
    · simp only [Nat.add_assoc]

theorem shown_head_of_isKept (old new : Nat) (h : (ls.head?.any Line.isKept)) :
    shown old new ls new = some (some (old : Int)) := by
  cases ls with
  | nil => exact absurd h (by simp)
  | cons l ls =>
    have hl : l.isKept := by simpa using h
    rw [shown, if_pos ⟨(l.isKept_iff.1 hl).2, rfl⟩, if_pos hl]

theorem shown_map_kept (old new : Nat) (ts : List (List Char)) (k : Int) :
    shown old new (ts.map Line.kept) k =
      if (new : Int) ≤ k ∧ k < new + ts.length then some (some (old + (k - new))) else none := by
  induction ts generalizing old new with
  | nil =>
    rw [if_neg (by simp)]
    rfl
  | cons t ts ih =>
    rw [map_cons, shown, ih, length_cons]
    simp only [Line.newCount, Line.oldCount, Line.isKept, Line.old?, Line.new?,
      isSome_some, if_true, Bool.and_self, true_and]
    push_cast
    by_cases hk : k = new
    · rw [if_pos hk, if_pos (by omega), hk, Int.sub_self, Int.add_zero]
    · rw [if_neg hk]
      by_cases hin : (new : Int) ≤ k ∧ k < new + (ts.length + 1)
      · rw [if_pos hin, if_pos (by omega)]
        congr 2
        omega
      · rw [if_neg hin, if_neg (by omega)]

/-- A kept line found by its numbers: what stands before it says where it is. -/
theorem shown_eq_some_some_iff (old new : Nat) (ls : List Line) (k m : Int) :
    shown old new ls k = some (some m) ↔ ∃ (before : List Line) (l : Line) (after : List Line),
        ls = before ++ l :: after ∧ l.isKept ∧
        k = new + (news before).length ∧ m = old + (olds before).length := by
  constructor
  · intro h
    induction ls generalizing old new with
    | nil => exact absurd h (by simp)
    | cons l ls ih =>
      rw [shown] at h
      split at h
      · next hk =>
        split at h
        · next hke =>
          refine ⟨[], l, ls, rfl, hke, ?_, ?_⟩
          · simpa [news] using hk.2
          · simpa [olds] using h.symm
        · cases h
      · obtain ⟨before, l', after, rfl, hl', hk, hm⟩ := ih _ _ h
        refine ⟨l :: before, l', after, rfl, hl', ?_, ?_⟩
        · rw [hk, length_news_cons]
          omega
        · rw [hm, length_olds_cons]
          omega
  · rintro ⟨before, l, after, rfl, hl, rfl, rfl⟩
    have hc := (l.isKept_iff.1 hl).2
    rw [shown_append, shown_eq_none_of_ge le_rfl, none_or, shown,
      if_pos ⟨hc, by push_cast; rfl⟩, if_pos hl]
    rfl

theorem keptAt_iff_shown (ls : List Line) (n m : Nat) :
    KeptAt ls n m ↔ shown 1 1 ls n = some (some (m : Int)) := by
  rw [shown_eq_some_some_iff]
  constructor
  · rintro ⟨before, l, after, rfl, hl, rfl, rfl⟩
    exact ⟨before, l, after, rfl, hl, by push_cast; omega, by push_cast; omega⟩
  · rintro ⟨before, l, after, rfl, hl, hn, hm⟩
    exact ⟨before, l, after, rfl, hl, by omega, by omega⟩

/-- A kept line has a number in the old text that the lines before it leave
room for. -/
theorem exists_keptAt_of_shown {n : Nat} (h : shown 1 1 ls n = some (some m)) :
    ∃ m' : Nat, m = m' ∧ 1 ≤ m' ∧ KeptAt ls n m' := by
  obtain ⟨before, l, after, rfl, hl, hn, hm⟩ := (shown_eq_some_some_iff 1 1 ls n m).1 h
  exact ⟨(olds before).length + 1, by push_cast; omega, by omega, before, l, after, rfl, hl, by omega, rfl⟩

/-- Kept lines come in the same order in both texts. -/
theorem shown_le_of_le {j m' : Int} (hj : shown old new ls j = some (some m))
    (hk : shown old new ls k = some (some m')) (hjk : j ≤ k) : m ≤ m' := by
  induction ls generalizing old new with
  | nil => exact absurd hj (by simp)
  | cons l ls ih =>
    have hlow : ∀ {i v : Int}, shown (old + l.oldCount) (new + l.newCount) ls i = some (some v) →
        (old : Int) ≤ v := by
      intro i v hi
      obtain ⟨before, -, -, -, -, -, rfl⟩ := (shown_eq_some_some_iff _ _ _ _ _).1 hi
      omega
    have hf : ∀ {i v : Int}, shown (old + l.oldCount) (new + l.newCount) ls i = some (some v) →
        (new : Int) ≤ i := by
      intro i v hi
      obtain ⟨before, -, -, -, -, rfl, -⟩ := (shown_eq_some_some_iff _ _ _ _ _).1 hi
      omega
    rw [shown] at hj hk
    split at hj
    · next hjn =>
      have hm : m = old := by
        split at hj
        · simpa using hj.symm
        · cases hj
      split at hk
      · have hm' : m' = old := by
          split at hk
          · simpa using hk.symm
          · cases hk
        omega
      · exact hm ▸ hlow hk
    · next hjn =>
      split at hk
      · next hkn =>
        have hj' := hf hj
        exact absurd ⟨hkn.1, by omega⟩ hjn
      · exact ih hj hk

/-- Before an added line, either a kept line comes first, or all lines are
added. -/
theorem shown_before_added (h : shown old new ls k = some none) :
    (∃ j m : Int, new ≤ j ∧ j < k ∧ shown old new ls j = some (some m) ∧
      ∀ i, j < i → i < k → shown old new ls i = some none) ∨
    ∀ i, (new : Int) ≤ i → i < k → shown old new ls i = some none := by
  induction ls generalizing old new with
  | nil => exact absurd h (by simp)
  | cons l ls ih =>
    have hle := l.newCount_le_one
    by_cases hk : l.newCount = 1 ∧ k = new
    · -- the first line is the added one
      refine .inr fun i hi hik => ?_
      omega
    · have hr : ∀ i : Int, ¬ (l.newCount = 1 ∧ i = new) →
          shown old new (l :: ls) i = shown (old + l.oldCount) (new + l.newCount) ls i := by
        intro i hi
        rw [shown, if_neg hi]
      rw [hr k hk] at h
      rcases ih h with ⟨j, m, hj, hjk, hjm, hb⟩ | hall
      · have hnew : (new : Int) ≤ j := by push_cast at hj; omega
        have hne : ∀ i : Int, j ≤ i → ¬ (l.newCount = 1 ∧ i = new) := by
          intro i hi
          omega
        refine .inl ⟨j, m, hnew, hjk, (hr j (hne j le_rfl)).trans hjm, ?_⟩
        intro i hji hik
        rw [hr i (hne i (by omega))]
        exact hb i hji hik
      · have hl : ∀ i : Int, (new : Int) + l.newCount ≤ i → i < k →
            shown old new (l :: ls) i = some none := by
          intro i hi hik
          rw [hr i (by omega)]
          exact hall i (by push_cast; omega) hik
        have hkn : (new : Int) + l.newCount ≤ k := by
          have hs := (shown_isSome_iff _ _ _ _).1 (isSome_iff_exists.2 ⟨_, h⟩)
          exact hs.1
        by_cases hke : l.isKept
        · have hc := (l.isKept_iff.1 hke).2
          refine .inl ⟨new, old, le_rfl, by omega, ?_, fun i hi hik => hl i (by omega) hik⟩
          rw [shown, if_pos ⟨hc, rfl⟩, if_pos hke]
        · refine .inr fun i hi hik => ?_
          by_cases hin : l.newCount = 1 ∧ i = new
          · rw [shown, if_pos hin, if_neg hke]
          · exact hl i (by omega) hik

end Unified

end Excerpt
