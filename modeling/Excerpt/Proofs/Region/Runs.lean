import Excerpt.Region.Basic
import Mathlib.Data.Int.Interval
import Mathlib.Tactic.Tauto

/-!
# The runs of a file

`covers rs n` says that the line `n` lies in one of the runs `rs`. Runs are
canonical if each of them holds a line and a line is left free between two
neighbours. Inserting and merging adds the lines of a run, cutting takes them
out, and both keep runs canonical: merging because the runs come in by their
first lines, cutting because the pieces of a run stay within it. Canonical runs
are determined by the lines they cover.
-/

namespace Excerpt

open List

namespace LineRange

variable {r s cut : LineRange} {rs ss : List LineRange}

/-- The line `n` lies in one of the runs. -/
def covers (rs : List LineRange) (n : Int) : Prop :=
  ∃ r ∈ rs, r.first ≤ n ∧ n ≤ r.last

@[simp] theorem covers_nil (n : Int) : ¬ covers [] n := by
  simp [covers]

@[simp] theorem covers_cons (r : LineRange) (rs : List LineRange) (n : Int) :
    covers (r :: rs) n ↔ (r.first ≤ n ∧ n ≤ r.last) ∨ covers rs n := by
  simp [covers]

@[simp] theorem covers_append (rs ss : List LineRange) (n : Int) :
    covers (rs ++ ss) n ↔ covers rs n ∨ covers ss n := by
  simp [covers, or_and_right, exists_or]

theorem first_between (a b : Int) : (between a b).first = min a b := by
  unfold between
  split <;> simp only [] <;> omega

theorem last_between (a b : Int) : (between a b).last = max a b := by
  unfold between
  split <;> simp only [] <;> omega

/-- At least one line lies free between `r` and the later run `s`. -/
def apart (r s : LineRange) : Prop :=
  r.last + 2 ≤ s.first

/-- Runs that hold a line each and leave a line free between two of them, in
increasing order. -/
structure Canonical (rs : List LineRange) : Prop where
  proper : ∀ r ∈ rs, r.first ≤ r.last
  apart : rs.Pairwise apart

theorem canonical_nil : Canonical [] :=
  ⟨by simp, List.Pairwise.nil⟩

theorem canonical_cons : Canonical (r :: rs) ↔ r.first ≤ r.last ∧ (∀ s ∈ rs, r.apart s) ∧ Canonical rs := by
  constructor
  · intro h
    have ha := pairwise_cons.1 h.apart
    exact ⟨h.proper r (by simp), ha.1, fun s hs => h.proper s (by simp [hs]), ha.2⟩
  · rintro ⟨hr, hrs, h⟩
    refine ⟨?_, pairwise_cons.2 ⟨hrs, h.apart⟩⟩
    intro s hs
    rcases mem_cons.1 hs with rfl | hs
    · exact hr
    · exact h.proper s hs

theorem Canonical.ordered (h : Canonical rs) : rs.Pairwise fun r s => r.first ≤ s.first := by
  refine h.apart.imp_of_mem ?_
  intro r s hr _ hrs
  have hp := h.proper r hr
  unfold LineRange.apart at hrs
  omega

/-! ## Adding a run -/

theorem mem_insert (r s : LineRange) (rs : List LineRange) : s ∈ insert r rs ↔ s = r ∨ s ∈ rs := by
  induction rs with
  | nil => simp [insert]
  | cons t rs ih =>
    unfold insert
    split
    · simp only [mem_cons, ih]
      tauto
    · simp

theorem covers_insert (r : LineRange) (rs : List LineRange) (n : Int) :
    covers (insert r rs) n ↔ (r.first ≤ n ∧ n ≤ r.last) ∨ covers rs n := by
  simp [covers, mem_insert]

theorem first_le_of_le (h : r.le s) : r.first ≤ s.first := by
  simp only [le, Bool.or_eq_true, Bool.and_eq_true, decide_eq_true_eq, beq_iff_eq] at h
  omega

theorem first_le_of_not_le (h : ¬ r.le s) : s.first ≤ r.first := by
  simp only [le, Bool.or_eq_true, Bool.and_eq_true, decide_eq_true_eq, beq_iff_eq] at h
  omega

theorem ordered_insert (r : LineRange) (h : rs.Pairwise fun r s => r.first ≤ s.first) :
    (insert r rs).Pairwise fun r s => r.first ≤ s.first := by
  induction rs with
  | nil => simp [insert]
  | cons t rs ih =>
    obtain ⟨ht, hrs⟩ := pairwise_cons.1 h
    unfold insert
    split
    · next hle =>
      refine pairwise_cons.2 ⟨?_, ih hrs⟩
      intro s hs
      rcases (mem_insert r s rs).1 hs with rfl | hs
      · exact first_le_of_le hle
      · exact ht s hs
    · next hle =>
      have hrt := first_le_of_not_le hle
      refine pairwise_cons.2 ⟨?_, h⟩
      intro s hs
      rcases mem_cons.1 hs with rfl | hs
      · exact hrt
      · exact le_trans hrt (ht s hs)

theorem first_le_of_mem_mergeFrom (r : LineRange) (rs : List LineRange)
    (hrs : ∀ s ∈ rs, r.first ≤ s.first) (hord : rs.Pairwise fun r s => r.first ≤ s.first) :
    ∀ s ∈ mergeFrom r rs, r.first ≤ s.first := by
  induction rs generalizing r with
  | nil => simp [mergeFrom]
  | cons s rs ih =>
    obtain ⟨hs, hord'⟩ := pairwise_cons.1 hord
    have hrs' := forall_mem_cons.1 hrs
    unfold mergeFrom
    split
    · exact ih ⟨r.first, max r.last s.last⟩ hrs'.2 hord'
    · intro t ht
      rcases mem_cons.1 ht with rfl | ht
      · exact le_rfl
      · exact le_trans hrs'.1 (ih s hs hord' t ht)

/-- Merging runs that are ordered by their first lines makes them canonical, and keeps their lines. -/
theorem canonical_mergeFrom (r : LineRange) (rs : List LineRange)
    (hrs : ∀ s ∈ rs, r.first ≤ s.first) (hord : rs.Pairwise fun r s => r.first ≤ s.first)
    (hr : r.first ≤ r.last) (hp : ∀ s ∈ rs, s.first ≤ s.last) :
    Canonical (mergeFrom r rs) ∧ ∀ n, covers (mergeFrom r rs) n ↔ covers (r :: rs) n := by
  induction rs generalizing r with
  | nil => exact ⟨canonical_cons.2 ⟨hr, by simp, canonical_nil⟩, fun _ => Iff.rfl⟩
  | cons s rs ih =>
    obtain ⟨hs, hord'⟩ := pairwise_cons.1 hord
    have hrs' := forall_mem_cons.1 hrs
    have hp' := forall_mem_cons.1 hp
    unfold mergeFrom
    split
    · next ht =>
      have hm : r.first ≤ max r.last s.last := by omega
      obtain ⟨hca, hco⟩ := ih ⟨r.first, max r.last s.last⟩ hrs'.2 hord' hm hp'.2
      refine ⟨hca, fun n => ?_⟩
      -- the merged run covers what the two runs do, since nothing lies between them
      rw [hco]
      simp only [covers_cons]
      have hb : (r.first ≤ n ∧ n ≤ max r.last s.last) ↔
          (r.first ≤ n ∧ n ≤ r.last) ∨ (s.first ≤ n ∧ n ≤ s.last) := by
        have hs := hp'.1
        omega
      rw [hb, or_assoc]
    · next hfar =>
      obtain ⟨hca, hco⟩ := ih s hs hord' hp'.1 hp'.2
      refine ⟨canonical_cons.2 ⟨hr, ?_, hca⟩, fun n => by rw [covers_cons, hco, covers_cons (r := r)]⟩
      intro t ht
      have hst := first_le_of_mem_mergeFrom s rs hs hord' t ht
      unfold LineRange.apart
      omega

theorem mergeFrom_ne_nil (r : LineRange) (rs : List LineRange) : mergeFrom r rs ≠ [] := by
  induction rs generalizing r with
  | nil => simp [mergeFrom]
  | cons s rs ih =>
    unfold mergeFrom
    split
    · exact ih _
    · simp

theorem merge_insert_ne_nil (r : LineRange) (rs : List LineRange) : merge (insert r rs) ≠ [] := by
  cases h : insert r rs with
  | nil =>
    have hr := (mem_insert r r rs).2 (.inl rfl)
    rw [h] at hr
    cases hr
  | cons s ss => exact mergeFrom_ne_nil s ss

theorem canonical_merge (hord : rs.Pairwise fun r s => r.first ≤ s.first) (hp : ∀ r ∈ rs, r.first ≤ r.last) :
    Canonical (merge rs) ∧ ∀ n, covers (merge rs) n ↔ covers rs n := by
  cases rs with
  | nil => exact ⟨canonical_nil, fun _ => Iff.rfl⟩
  | cons r rs =>
    obtain ⟨hr, hord'⟩ := pairwise_cons.1 hord
    have hp' := forall_mem_cons.1 hp
    exact canonical_mergeFrom r rs hr hord' hp'.1 hp'.2

theorem proper_insert (hr : r.first ≤ r.last) (h : Canonical rs) : ∀ s ∈ insert r rs, s.first ≤ s.last := by
  intro s hs
  rcases (mem_insert r s rs).1 hs with rfl | hs
  · exact hr
  · exact h.proper s hs

/-- Adding a run to canonical runs adds its lines. -/
theorem covers_merge_insert (hr : r.first ≤ r.last) (h : Canonical rs) (n : Int) :
    covers (merge (insert r rs)) n ↔ (r.first ≤ n ∧ n ≤ r.last) ∨ covers rs n := by
  rw [(canonical_merge (ordered_insert r h.ordered) (proper_insert hr h)).2, covers_insert]

theorem canonical_merge_insert (hr : r.first ≤ r.last) (h : Canonical rs) : Canonical (merge (insert r rs)) :=
  (canonical_merge (ordered_insert r h.ordered) (proper_insert hr h)).1

/-! ## Cutting a run out -/

theorem covers_minus (r cut : LineRange) (n : Int) : covers (r.minus cut) n ↔
      (r.first ≤ n ∧ n ≤ r.last) ∧ ¬ (cut.first ≤ n ∧ n ≤ cut.last) := by
  unfold minus
  split
  · next hout =>
    simp only [Bool.or_eq_true, decide_eq_true_eq] at hout
    simp only [covers_cons, covers_nil, or_false]
    omega
  · next hm =>
    simp only [Bool.or_eq_true, decide_eq_true_eq, not_or] at hm
    split <;> split <;>
      simp only [nil_append, append_nil, cons_append, covers_cons, covers_nil, or_false, false_iff] <;>
      omega

/-- What is left of a run lies within it. -/
theorem within_of_mem_minus (h : s ∈ r.minus cut) : r.first ≤ s.first ∧ s.last ≤ r.last := by
  unfold minus at h
  split at h
  · rw [mem_singleton.1 h]
    exact ⟨le_rfl, le_rfl⟩
  · next hm =>
    simp only [Bool.or_eq_true, decide_eq_true_eq, not_or] at hm
    rcases mem_append.1 h with h | h
    · split at h
      · rw [mem_singleton.1 h]
        simp only []
        omega
      · simp at h
    · split at h
      · rw [mem_singleton.1 h]
        simp only []
        omega
      · simp at h

theorem canonical_minus (hr : r.first ≤ r.last) (hcut : cut.first ≤ cut.last) : Canonical (r.minus cut) := by
  unfold minus
  split
  · exact canonical_cons.2 ⟨hr, by simp, canonical_nil⟩
  · split <;> split <;>
      simp [canonical_cons, canonical_nil, LineRange.apart] <;>
      omega

theorem minus_eq_self (hr : r.first ≤ r.last) (hcut : cut.first ≤ cut.last)
    (h : ∀ n, r.first ≤ n → n ≤ r.last → ¬ (cut.first ≤ n ∧ n ≤ cut.last)) : r.minus cut = [r] := by
  have ha : cut.last < r.first ∨ r.last < cut.first := by
    by_contra hm
    -- the later one of the two first lines lies in both runs
    exact h (max r.first cut.first) (by omega) (by omega) (by omega)
  simp [minus, ha]

theorem covers_flatMap_minus (rs : List LineRange) (cut : LineRange) (n : Int) :
    covers (rs.flatMap (·.minus cut)) n ↔ covers rs n ∧ ¬ (cut.first ≤ n ∧ n ≤ cut.last) := by
  induction rs with
  | nil => simp
  | cons r rs ih =>
    rw [flatMap_cons, covers_append, covers_minus, ih, covers_cons, or_and_right]

/-- Cutting canonical runs keeps them canonical: the pieces of two runs are at
least as far apart as the runs. -/
theorem canonical_flatMap_minus (h : Canonical rs) (hcut : cut.first ≤ cut.last) :
    Canonical (rs.flatMap (·.minus cut)) := by
  refine ⟨?_, pairwise_flatMap.2 ⟨?_, ?_⟩⟩
  · intro s hs
    obtain ⟨r, hr, hs⟩ := mem_flatMap.1 hs
    exact (canonical_minus (h.proper r hr) hcut).proper s hs
  · intro r hr
    exact (canonical_minus (h.proper r hr) hcut).apart
  · refine h.apart.imp ?_
    intro r s hrs x hx y hy
    have hx := within_of_mem_minus hx
    have hy := within_of_mem_minus hy
    unfold LineRange.apart at hrs ⊢
    omega

/-! ## Uniqueness -/

theorem Canonical.first_le_of_covers (h : Canonical (r :: rs)) {n : Int} (hn : covers (r :: rs) n) :
    r.first ≤ n := by
  obtain ⟨s, hs, hsn, -⟩ := hn
  rcases mem_cons.1 hs with rfl | hs
  · exact hsn
  · have hrs := (canonical_cons.1 h).2.1 s hs
    have hr := (canonical_cons.1 h).1
    unfold LineRange.apart at hrs
    omega

/-- The line after the first run is free. -/
theorem Canonical.not_covers_after (h : Canonical (r :: rs)) : ¬ covers (r :: rs) (r.last + 1) := by
  rintro ⟨s, hs, hsn, hns⟩
  rcases mem_cons.1 hs with rfl | hs
  · omega
  · have hrs := (canonical_cons.1 h).2.1 s hs
    unfold LineRange.apart at hrs
    omega

/-- A run `r` that starts where the first of canonical runs does, and whose lines
they cover, ends no later: the line after their first run is free. -/
theorem last_le_of_covers (hs : Canonical (s :: ss))
    (hf : r.first = s.first) (heq : ∀ n, covers (r :: rs) n → covers (s :: ss) n) : r.last ≤ s.last := by
  by_contra hlt
  have hp := (canonical_cons.1 hs).1
  have hcov : covers (r :: rs) (s.last + 1) := (covers_cons r rs _).2 (.inl ⟨by omega, by omega⟩)
  exact hs.not_covers_after (heq _ hcov)

/-- Runs apart from an earlier run `r` cover what lies beyond `r`. -/
theorem covers_iff_beyond (h : ∀ s ∈ rs, r.apart s) (n : Int) :
    covers rs n ↔ covers (r :: rs) n ∧ r.last < n := by
  rw [covers_cons]
  constructor
  · rintro ⟨s, hs, hsn⟩
    have hrs := h s hs
    unfold LineRange.apart at hrs
    exact ⟨.inr ⟨s, hs, hsn⟩, by omega⟩
  · rintro ⟨hn | hn, hlt⟩
    · omega
    · exact hn

theorem Canonical.eq_of_covers_iff (hrs : Canonical rs) (hss : Canonical ss)
    (heq : ∀ n, covers rs n ↔ covers ss n) : rs = ss := by
  induction rs generalizing ss with
  | nil =>
    cases ss with
    | nil => rfl
    | cons s ss =>
      have hs : covers (s :: ss) s.first := (covers_cons s ss _).2 (.inl ⟨le_rfl, (canonical_cons.1 hss).1⟩)
      exact absurd ((heq s.first).2 hs) (covers_nil _)
  | cons r rs ih =>
    cases ss with
    | nil =>
      have hr : covers (r :: rs) r.first := (covers_cons r rs _).2 (.inl ⟨le_rfl, (canonical_cons.1 hrs).1⟩)
      exact absurd ((heq r.first).1 hr) (covers_nil _)
    | cons s ss =>
      obtain ⟨hr, hra, hrs'⟩ := canonical_cons.1 hrs
      obtain ⟨hs, hsa, hss'⟩ := canonical_cons.1 hss
      have hf : r.first = s.first := by
        have hr' := hss.first_le_of_covers ((heq r.first).1 ((covers_cons r rs _).2 (.inl ⟨le_rfl, hr⟩)))
        have hs' := hrs.first_le_of_covers ((heq s.first).2 ((covers_cons s ss _).2 (.inl ⟨le_rfl, hs⟩)))
        omega
      have hl : r.last = s.last := le_antisymm (last_le_of_covers hss hf fun n => (heq n).1)
        (last_le_of_covers hrs hf.symm fun n => (heq n).2)
      have hh : r = s := by
        cases r
        cases s
        simp_all
      subst hh
      congr 1
      refine ih hrs' hss' ?_
      intro n
      rw [covers_iff_beyond hra, covers_iff_beyond hsa, heq]

end LineRange

end Excerpt
