import Mathlib.Data.List.Induction
import Mathlib.Order.Lattice.Nat

/-!
# The last pair of directives

For the section of one name, each comment of a pass plays a role: it opens the
section, closes it, makes the pass forget that it is open, or does nothing. What the
pass knows in the end is told by the roles: the section is the one between the last
comment that closes it while it is open and the latest comment before it that opened
it (`pair_after_iff`).
-/

namespace Excerpt.Marker

open List Option

/-- What a comment does to the section of one name. -/
inductive Role where
  | opens
  | closes
  | breaks
  | passes
deriving DecidableEq, Repr

variable {α : Type} {role : α → Role} {cs : List α} {c a b : α} {i j : Nat}

/-- What is known about the section of one name: the comments of the pair that closed it last, and the one
that opened it if it is open. -/
structure Known (α : Type) where
  pair : Option (α × α)
  opened : Option α

namespace Known

/-- Nothing seen yet. -/
def start : Known α := ⟨none, none⟩

/-- What is known after one more comment. -/
def see (role : α → Role) (k : Known α) (c : α) : Known α :=
  match role c with
  | .opens => ⟨k.pair, some c⟩
  | .closes => ⟨k.opened.elim k.pair fun a => some (a, c), none⟩
  | .breaks => ⟨k.pair, none⟩
  | .passes => k

def after (role : α → Role) (cs : List α) : Known α :=
  cs.foldl (see role) start

theorem see_opens (k : Known α) (h : role c = .opens) : k.see role c = ⟨k.pair, some c⟩ := by
  simp [see, h]

theorem see_closes (k : Known α) (h : role c = .closes) :
    k.see role c = ⟨k.opened.elim k.pair fun a => some (a, c), none⟩ := by
  simp [see, h]

theorem see_breaks (k : Known α) (h : role c = .breaks) : k.see role c = ⟨k.pair, none⟩ := by
  simp [see, h]

theorem see_passes (k : Known α) (h : role c = .passes) : k.see role c = k := by
  simp [see, h]

theorem after_concat (cs : List α) (c : α) : after role (cs ++ [c]) = (after role cs).see role c := by
  rw [after, foldl_concat, after]

/-- Comments that do nothing can be left out. -/
theorem after_filter {keep : α → Bool} (hk : ∀ c, keep c = false → role c = .passes) (cs : List α) :
    after role (cs.filter keep) = after role cs := by
  have hf : ∀ k : Known α, (cs.filter keep).foldl (see role) k = cs.foldl (see role) k := by
    induction cs with
    | nil => exact fun k => rfl
    | cons c cs ih =>
      intro k
      rw [filter_cons, foldl_cons]
      split
      · rw [foldl_cons, ih]
      · next hnot => rw [see_passes k (hk c (Bool.eq_false_of_not_eq_true hnot)), ih]
  exact hf start

end Known

/-- The comment at place `i` opens the section, and it stays open up to place `j`. -/
structure OpenUntil (role : α → Role) (cs : List α) (i j : Nat) : Prop where
  lt : i < j
  opens : ∃ c, cs[i]? = some c ∧ role c = .opens
  stays : ∀ k c, i < k → k < j → cs[k]? = some c → role c ≠ .closes ∧ role c ≠ .breaks

/-- The comment at place `j` closes the section that the comment at place `i` opened, and none between them
does. -/
structure Paired (role : α → Role) (cs : List α) (i j : Nat) : Prop extends OpenUntil role cs i j where
  closes : ∃ c, cs[j]? = some c ∧ role c = .closes

/-- The last place at which the open section is closed, and the latest place at which it was opened. -/
structure LastPair (role : α → Role) (cs : List α) (i j : Nat) : Prop where
  last : IsGreatest {j | ∃ i, Paired role cs i j} j
  latest : IsGreatest {i | Paired role cs i j} i

def IsLastPair (role : α → Role) (cs : List α) (a b : α) : Prop :=
  ∃ i j, LastPair role cs i j ∧ cs[i]? = some a ∧ cs[j]? = some b

/-- The comment is the latest that opened the section, which is open behind all comments. -/
def IsUnclosed (role : α → Role) (cs : List α) (a : α) : Prop :=
  ∃ i, IsGreatest {i | OpenUntil role cs i cs.length} i ∧ cs[i]? = some a

theorem Paired.lt_length (h : Paired role cs i j) : j < cs.length := by
  obtain ⟨d, hd, -⟩ := h.closes
  exact (List.getElem?_eq_some_iff.1 hd).1

section Concat

theorem getElem?_concat_of_lt {k : Nat} (h : k < cs.length) : (cs ++ [c])[k]? = cs[k]? :=
  getElem?_append_left h

/-- What is open at a place does not depend on the comments behind it. -/
theorem openUntil_concat (hj : j ≤ cs.length) : OpenUntil role (cs ++ [c]) i j ↔ OpenUntil role cs i j := by
  constructor
  · rintro ⟨hlt, ho, hs⟩
    rw [getElem?_concat_of_lt (by omega)] at ho
    refine ⟨hlt, ho, fun k d hk hkj hd => hs k d hk hkj ?_⟩
    rwa [getElem?_concat_of_lt (by omega)]
  · rintro ⟨hlt, ho, hs⟩
    refine ⟨hlt, by rwa [getElem?_concat_of_lt (by omega)], fun k d hk hkj hd => hs k d hk hkj ?_⟩
    rwa [getElem?_concat_of_lt (by omega)] at hd

/-- A pair ends with the new comment, or it is a pair of the earlier ones. -/
theorem paired_concat : Paired role (cs ++ [c]) i j ↔
      Paired role cs i j ∨ j = cs.length ∧ OpenUntil role cs i cs.length ∧ role c = .closes := by
  constructor
  · rintro ⟨ho, d, hd, hc⟩
    have hlt := (List.getElem?_eq_some_iff.1 hd).1
    rw [length_append, length_singleton] at hlt
    by_cases hj : j < cs.length
    · rw [getElem?_concat_of_lt hj] at hd
      exact .inl ⟨(openUntil_concat (by omega)).1 ho, d, hd, hc⟩
    · obtain rfl : j = cs.length := by omega
      rw [getElem?_concat_length] at hd
      cases hd
      exact .inr ⟨rfl, (openUntil_concat (Nat.le_refl _)).1 ho, hc⟩
  · rintro (h | ⟨rfl, ho, hc⟩)
    · have hj := h.lt_length
      obtain ⟨d, hd, hc⟩ := h.closes
      exact ⟨(openUntil_concat (by omega)).2 h.toOpenUntil, d, by rwa [getElem?_concat_of_lt hj], hc⟩
    · exact ⟨(openUntil_concat (Nat.le_refl _)).2 ho, c, getElem?_concat_length, hc⟩

/-- A comment that closes nothing ends no pair. -/
theorem isLastPair_concat_of_not (h : role c = .closes → ∀ i, ¬ OpenUntil role cs i cs.length) :
    IsLastPair role (cs ++ [c]) a b ↔ IsLastPair role cs a b := by
  have hp : ∀ i j, Paired role (cs ++ [c]) i j ↔ Paired role cs i j := by
    intro i j
    rw [paired_concat, or_iff_left]
    rintro ⟨-, ho, hc⟩
    exact h hc i ho
  have hla : ∀ i j, LastPair role (cs ++ [c]) i j ↔ LastPair role cs i j := by
    intro i j
    constructor
    · rintro ⟨hla, hl⟩
      simp only [hp] at hla hl
      exact ⟨hla, hl⟩
    · rintro ⟨hla, hl⟩
      simp only [← hp] at hla hl
      exact ⟨hla, hl⟩
  unfold IsLastPair
  simp only [hla]
  refine exists_congr fun i => exists_congr fun j => and_congr_right fun hpa => ?_
  have hj := hpa.latest.1.lt_length
  have hi := hpa.latest.1.lt
  rw [getElem?_concat_of_lt hj, getElem?_concat_of_lt (by omega)]

/-- A comment that closes the open section ends the last pair. -/
theorem isLastPair_concat_of_closes {a' : α} (hc : role c = .closes) (h : IsUnclosed role cs a') :
    IsLastPair role (cs ++ [c]) a b ↔ a = a' ∧ b = c := by
  obtain ⟨i, hg, ha'⟩ := h
  have hi := hg.1.lt
  have hp : Paired role (cs ++ [c]) i cs.length := paired_concat.2 (.inr ⟨rfl, hg.1, hc⟩)
  have hl : LastPair role (cs ++ [c]) i cs.length := by
    refine ⟨⟨⟨i, hp⟩, ?_⟩, hp, ?_⟩
    · rintro j ⟨i', hp'⟩
      rcases paired_concat.1 hp' with hp' | ⟨rfl, -⟩
      · exact Nat.le_of_lt hp'.lt_length
      · exact Nat.le_refl _
    · intro i' hp'
      rcases paired_concat.1 hp' with hp' | ⟨-, ho, -⟩
      · exact absurd hp'.lt_length (Nat.lt_irrefl _)
      · exact hg.2 ho
  constructor
  · rintro ⟨i', j', hpa, ha, hb⟩
    obtain rfl := hpa.last.unique hl.last
    obtain rfl := hpa.latest.unique hl.latest
    rw [getElem?_concat_of_lt hi, ha'] at ha
    rw [getElem?_concat_length] at hb
    exact ⟨(some.inj ha).symm, (some.inj hb).symm⟩
  · rintro ⟨rfl, rfl⟩
    exact ⟨i, cs.length, hl, by rwa [getElem?_concat_of_lt hi], getElem?_concat_length⟩

theorem openUntil_concat_length (hc : role c ≠ .opens) : OpenUntil role (cs ++ [c]) i (cs ++ [c]).length ↔
      OpenUntil role cs i cs.length ∧ role c ≠ .closes ∧ role c ≠ .breaks := by
  rw [length_append, length_singleton]
  constructor
  · rintro ⟨hlt, ⟨a, ha, ho⟩, hs⟩
    have hne : i ≠ cs.length := by
      rintro rfl
      rw [getElem?_concat_length] at ha
      cases ha
      exact hc ho
    have hi : i < cs.length := by omega
    exact ⟨(openUntil_concat (Nat.le_refl _)).1 ⟨hi, ⟨a, ha, ho⟩, fun k d hk hkj =>
      hs k d hk (by omega)⟩, hs cs.length c hi (by omega) getElem?_concat_length⟩
  · rintro ⟨hop, hen⟩
    obtain ⟨hlt, ho, hs⟩ := (openUntil_concat (c := c) (Nat.le_refl cs.length)).2 hop
    refine ⟨by omega, ho, fun k d hk hkj hd => ?_⟩
    by_cases hl : k = cs.length
    · rw [hl, getElem?_concat_length] at hd
      cases hd
      exact hen
    · exact hs k d hk (by omega) hd

theorem isUnclosed_concat_of_opens (hc : role c = .opens) : IsUnclosed role (cs ++ [c]) a ↔ a = c := by
  have hg : IsGreatest {i | OpenUntil role (cs ++ [c]) i (cs ++ [c]).length} cs.length := by
    rw [length_append, length_singleton]
    refine ⟨⟨Nat.lt_succ_self _, ⟨c, getElem?_concat_length, hc⟩, fun k d hk hkj => ?_⟩, fun i hi => ?_⟩
    · omega
    · exact Nat.le_of_lt_succ hi.lt
  constructor
  · rintro ⟨i, hi, ha⟩
    obtain rfl := hi.unique hg
    rw [getElem?_concat_length] at ha
    exact (some.inj ha).symm
  · rintro rfl
    exact ⟨cs.length, hg, getElem?_concat_length⟩

theorem not_isUnclosed_concat (hc : role c = .closes ∨ role c = .breaks) :
    ¬ IsUnclosed role (cs ++ [c]) a := by
  rintro ⟨i, hi, -⟩
  have ho : role c ≠ .opens := by
    rintro ho
    rcases hc with hc | hc
    · cases ho.symm.trans hc
    · cases ho.symm.trans hc
  obtain ⟨-, hcl, hb⟩ := (openUntil_concat_length ho).1 hi.1
  exact hc.elim hcl hb

theorem isUnclosed_concat_of_passes (hc : role c = .passes) :
    IsUnclosed role (cs ++ [c]) a ↔ IsUnclosed role cs a := by
  have ho : ∀ i, OpenUntil role (cs ++ [c]) i (cs ++ [c]).length ↔ OpenUntil role cs i cs.length := by
    intro i
    rw [openUntil_concat_length (by simp [hc])]
    simp [hc]
  unfold IsUnclosed
  simp only [ho]
  refine exists_congr fun i => and_congr_right fun hi => ?_
  rw [getElem?_concat_of_lt hi.1.lt]

end Concat

theorem exists_isGreatest {S : Set Nat} (hne : S.Nonempty) (hb : BddAbove S) : ∃ i, IsGreatest S i :=
  ⟨sSup S, Nat.sSup_mem hne hb, fun _ hi => le_csSup hb hi⟩

/-- A section that is open behind all comments was opened by some comment. -/
theorem exists_isUnclosed (h : OpenUntil role cs i cs.length) : ∃ a, IsUnclosed role cs a := by
  obtain ⟨i, hi⟩ := exists_isGreatest (S := {i | OpenUntil role cs i cs.length}) ⟨i, h⟩
    ⟨cs.length, fun k hk => Nat.le_of_lt hk.lt⟩
  obtain ⟨a, ha, -⟩ := hi.1.opens
  exact ⟨a, i, hi, ha⟩

theorem exists_isLastPair (h : Paired role cs i j) : ∃ a b, IsLastPair role cs a b := by
  obtain ⟨j, hj⟩ := exists_isGreatest (S := {j | ∃ i, Paired role cs i j}) ⟨j, i, h⟩
    ⟨cs.length, fun k hk => Nat.le_of_lt hk.choose_spec.lt_length⟩
  obtain ⟨i, hi⟩ := exists_isGreatest (S := {i | Paired role cs i j}) hj.1
    ⟨cs.length, fun k hk => Nat.le_of_lt (Nat.lt_trans hk.lt hk.lt_length)⟩
  obtain ⟨a, ha, -⟩ := hi.1.opens
  obtain ⟨b, hb, -⟩ := hi.1.closes
  exact ⟨a, b, i, j, ⟨hj, hi⟩, ha, hb⟩

/-- The pair known after some comments is the last pair among them, and the comment known to have opened
the section is the latest that did. -/
theorem after_iff (role : α → Role) (cs : List α) :
    (∀ a b, (Known.after role cs).pair = some (a, b) ↔ IsLastPair role cs a b) ∧
      ∀ a, (Known.after role cs).opened = some a ↔ IsUnclosed role cs a := by
  -- what the last comment adds decides, so the comments are taken from the end
  induction cs using List.reverseRecOn with
  | nil =>
    refine ⟨fun a b => iff_of_false (some_ne_none _).symm ?_, fun a => iff_of_false (some_ne_none _).symm ?_⟩
    · rintro ⟨i, j, -, ha, -⟩
      cases ha
    · rintro ⟨i, -, ha⟩
      cases ha
  | append_singleton cs c ih =>
    obtain ⟨hp, ho⟩ := ih
    rw [Known.after_concat]
    cases hc : role c with
    | opens =>
      rw [Known.see_opens _ hc]
      refine ⟨fun a b => ?_, fun a => ?_⟩
      · rw [hp, isLastPair_concat_of_not (by simp [hc])]
      · rw [isUnclosed_concat_of_opens hc, some.injEq, eq_comm]
    | closes =>
      rw [Known.see_closes _ hc]
      refine ⟨fun a b => ?_, fun a =>
        iff_of_false (some_ne_none a).symm (not_isUnclosed_concat (.inl hc))⟩
      cases hk : (Known.after role cs).opened with
      | none =>
        have hn : ∀ i, ¬ OpenUntil role cs i cs.length := by
          intro i hi
          obtain ⟨a, ha⟩ := exists_isUnclosed hi
          rw [(ho a).2 ha] at hk
          cases hk
        rw [elim_none, hp, isLastPair_concat_of_not fun _ => hn]
      | some a' =>
        rw [elim_some, isLastPair_concat_of_closes hc ((ho a').1 hk),
          some.injEq, Prod.mk.injEq, eq_comm, @eq_comm _ c]
    | breaks =>
      rw [Known.see_breaks _ hc]
      refine ⟨fun a b => ?_, fun a =>
        iff_of_false (some_ne_none a).symm (not_isUnclosed_concat (.inr hc))⟩
      rw [hp, isLastPair_concat_of_not (by simp [hc])]
    | passes =>
      rw [Known.see_passes _ hc]
      refine ⟨fun a b => ?_, fun a => ?_⟩
      · rw [hp, isLastPair_concat_of_not (by simp [hc])]
      · rw [ho, isUnclosed_concat_of_passes hc]

theorem pair_after_iff : (Known.after role cs).pair = some (a, b) ↔ IsLastPair role cs a b :=
  (after_iff role cs).1 a b

theorem exists_pair_after_iff : (∃ ab, (Known.after role cs).pair = some ab) ↔ ∃ i j, Paired role cs i j := by
  constructor
  · rintro ⟨⟨a, b⟩, h⟩
    obtain ⟨i, j, hl, -⟩ := pair_after_iff.1 h
    exact ⟨i, j, hl.latest.1⟩
  · rintro ⟨i, j, h⟩
    obtain ⟨a, b, hl⟩ := exists_isLastPair h
    exact ⟨(a, b), pair_after_iff.2 hl⟩

end Excerpt.Marker
