import Excerpt.Proofs.Region.Runs
import Excerpt.Proofs.Table

/-!
# The lines of a region set

A region set stands for a finite set of lines of files: adding a region is
union with its lines and subtracting one is difference. Each operation is
described by what it does to the runs of every file, so that lines, form and
neighbouring files are all read off one equation. `WellFormed` is the invariant
of the sets that are reached from the empty one.
-/

namespace Excerpt

open List LineRange Table

namespace RegionSet

variable {s : RegionSet} {p q : Path} {a b : Int} {rs : List LineRange}

/-- The line `n` of the file `p` lies in a region of the set. -/
def covers (s : RegionSet) (p : Path) (n : Int) : Prop :=
  LineRange.covers (s.runs p) n

/-- A file has one entry, and its runs are canonical and not empty. -/
structure WellFormed (s : RegionSet) : Prop where
  distinct : s.files.keys.Nodup
  canonical : ∀ e ∈ s.files, e.2 ≠ [] ∧ LineRange.Canonical e.2

theorem wellFormed_empty : WellFormed empty :=
  ⟨nodup_nil, by simp [empty]⟩

@[simp] theorem runs_empty (p : Path) : empty.runs p = [] := rfl

theorem WellFormed.canonical_runs (h : s.WellFormed) (p : Path) : LineRange.Canonical (s.runs p) := by
  unfold runs
  cases hget : s.files.get? p with
  | none => exact canonical_nil
  | some rs => exact (h.canonical _ ((get?_eq_some_iff h.distinct).1 hget)).2

/-! ## What the operations do to the runs of a file -/

theorem get?_add_of_ne (s : RegionSet) (hpq : p ≠ q) (a b : Int) :
    (s.add p a b).files.get? q = s.files.get? q := by
  rw [add, get?_put, if_neg hpq]

theorem runs_add (s : RegionSet) (p : Path) (a b : Int) (q : Path) : (s.add p a b).runs q =
      if p = q then LineRange.merge (LineRange.insert (.between a b) (s.runs p)) else s.runs q := by
  unfold add runs
  simp only [get?_put]
  split <;> rfl

theorem subtract_of_none (a b : Int) (h : s.files.get? p = none) : s.subtract p a b = s := by
  simp [subtract, h]

theorem subtract_of_nil (h : s.files.get? p = some rs)
    (hr : rs.flatMap (·.minus (.between a b)) = []) : s.subtract p a b = ⟨s.files.remove p⟩ := by
  simp only [subtract, h, hr]

theorem subtract_of_ne_nil (h : s.files.get? p = some rs)
    (hr : rs.flatMap (·.minus (.between a b)) ≠ []) :
    s.subtract p a b = ⟨s.files.put p (rs.flatMap (·.minus (.between a b)))⟩ := by
  simp only [subtract, h]

/-- The entries of the other files stay as they are. -/
theorem get?_subtract_of_ne (h : s.files.keys.Nodup) (hpq : p ≠ q) (a b : Int) :
    (s.subtract p a b).files.get? q = s.files.get? q := by
  cases hget : s.files.get? p with
  | none => rw [subtract_of_none a b hget]
  | some rs =>
    by_cases hr : rs.flatMap (·.minus (.between a b)) = []
    · rw [subtract_of_nil hget hr, get?_remove h, if_neg hpq]
    · rw [subtract_of_ne_nil hget hr, get?_put, if_neg hpq]

theorem runs_subtract (h : s.files.keys.Nodup) (p : Path) (a b : Int) (q : Path) : (s.subtract p a b).runs q =
      if p = q then (s.runs p).flatMap (·.minus (.between a b)) else s.runs q := by
  by_cases hpq : p = q
  · subst hpq
    rw [if_pos rfl]
    cases hget : s.files.get? p with
    | none => simp [subtract_of_none a b hget, runs, hget]
    | some rs =>
      have hru : s.runs p = rs := by simp [runs, hget]
      rw [hru]
      by_cases hr : rs.flatMap (·.minus (.between a b)) = []
      · rw [subtract_of_nil hget hr, hr]
        simp [runs, get?_remove h]
      · rw [subtract_of_ne_nil hget hr]
        simp [runs, get?_put]
  · rw [if_neg hpq, runs, get?_subtract_of_ne h hpq, runs]

theorem first_le_last_between (a b : Int) : (LineRange.between a b).first ≤ (LineRange.between a b).last := by
  rw [first_between, last_between]
  omega

theorem WellFormed.add (h : s.WellFormed) (p : Path) (a b : Int) : (s.add p a b).WellFormed := by
  refine ⟨nodup_keys_put h.distinct p _, ?_⟩
  intro e he
  rcases mem_put he with rfl | he
  · exact ⟨merge_insert_ne_nil _ _,
      canonical_merge_insert (first_le_last_between a b) (h.canonical_runs p)⟩
  · exact h.canonical e he

theorem WellFormed.subtract (h : s.WellFormed) (p : Path) (a b : Int) : (s.subtract p a b).WellFormed := by
  cases hget : s.files.get? p with
  | none => rwa [subtract_of_none a b hget]
  | some rs =>
    by_cases hr : rs.flatMap (·.minus (.between a b)) = []
    · rw [subtract_of_nil hget hr]
      refine ⟨nodup_keys_remove h.distinct p, ?_⟩
      intro e he
      exact h.canonical e ((remove_sublist _ _).subset he)
    · rw [subtract_of_ne_nil hget hr]
      refine ⟨nodup_keys_put h.distinct p _, ?_⟩
      intro e he
      rcases mem_put he with rfl | he
      · have hrs := (h.canonical _ ((get?_eq_some_iff h.distinct).1 hget)).2
        exact ⟨hr, canonical_flatMap_minus hrs (first_le_last_between a b)⟩
      · exact h.canonical e he

theorem covers_add (h : s.WellFormed) (p : Path) (a b : Int) (q : Path) (n : Int) : (s.add p a b).covers q n ↔
      (q = p ∧ min a b ≤ n ∧ n ≤ max a b) ∨ s.covers q n := by
  unfold covers
  rw [runs_add]
  by_cases hpq : p = q
  · subst hpq
    rw [if_pos rfl, covers_merge_insert (first_le_last_between a b)
      (h.canonical_runs p), first_between, last_between]
    simp
  · simp [hpq, Ne.symm hpq]

theorem covers_subtract (h : s.WellFormed) (p : Path) (a b : Int) (q : Path) (n : Int) :
    (s.subtract p a b).covers q n ↔ s.covers q n ∧ ¬ (q = p ∧ min a b ≤ n ∧ n ≤ max a b) := by
  unfold covers
  rw [runs_subtract h.distinct]
  by_cases hpq : p = q
  · subst hpq
    rw [if_pos rfl, covers_flatMap_minus, first_between, last_between]
    simp
  · simp [hpq, Ne.symm hpq]

/-- Nothing is taken out exactly if no line of the set lies between the ends. -/
theorem subtract_eq_self_iff (h : s.WellFormed) (p : Path) (a b : Int) :
    s.subtract p a b = s ↔ ∀ n, s.covers p n → ¬ (min a b ≤ n ∧ n ≤ max a b) := by
  constructor
  · intro heq n hn hb
    rw [← heq, covers_subtract h] at hn
    exact hn.2 ⟨rfl, hb⟩
  · intro hno
    cases hget : s.files.get? p with
    | none => exact subtract_of_none a b hget
    | some rs =>
      obtain ⟨hne, hc⟩ := h.canonical _ ((get?_eq_some_iff h.distinct).1 hget)
      have hs : rs.flatMap (·.minus (.between a b)) = rs := by
        rw [flatMap_congr (g := fun r => [r]) ?_, flatMap_singleton']
        intro r hr
        refine minus_eq_self (hc.proper r hr) (first_le_last_between a b) ?_
        intro n hf hl
        rw [first_between, last_between]
        refine hno n ⟨r, ?_, hf, hl⟩
        rw [runs, hget]
        exact hr
      rw [subtract_of_ne_nil hget (by rwa [hs]), hs, put_eq_self hget]

/-! ## The list of regions -/

theorem mem_regions (h : s.files.keys.Nodup) (r : Region) : r ∈ s.regions ↔ r.lines ∈ s.runs r.path := by
  unfold regions sorted runs
  simp only [mem_flatMap, mem_mergeSort, List.mem_map]
  constructor
  · rintro ⟨⟨p, rs⟩, he, l, hl, rfl⟩
    rw [(get?_eq_some_iff h).2 he]
    exact hl
  · intro hr
    cases hget : s.files.get? r.path with
    | none => simp [hget] at hr
    | some rs =>
      rw [hget] at hr
      exact ⟨(r.path, rs), (get?_eq_some_iff h).1 hget, r.lines, hr, rfl⟩

/-- A line lies in a listed region of its file exactly if the set covers it. -/
theorem exists_mem_regions_iff (h : s.files.keys.Nodup) (p : Path) (n : Int) :
    (∃ r ∈ s.regions, r.path = p ∧ r.lines.first ≤ n ∧ n ≤ r.lines.last) ↔ s.covers p n := by
  constructor
  · rintro ⟨r, hr, rfl, hn⟩
    exact ⟨r.lines, (mem_regions h r).1 hr, hn⟩
  · rintro ⟨l, hl, hn⟩
    exact ⟨⟨p, l⟩, (mem_regions h ⟨p, l⟩).2 hl, rfl, hn⟩

/-- No region is left exactly if no line is covered: a file with an entry has a
run, and a run holds its first line. -/
theorem isComplete_iff (h : s.WellFormed) : s.isComplete ↔ ∀ p n, ¬ s.covers p n := by
  unfold isComplete
  rw [List.isEmpty_iff]
  constructor
  · intro hnil p n
    simp [covers, runs, hnil]
  · intro hn
    refine eq_nil_iff_forall_not_mem.2 ?_
    rintro ⟨p, rs⟩ he
    obtain ⟨hne, hc⟩ := h.canonical _ he
    obtain ⟨r, hr⟩ := exists_mem_of_ne_nil rs hne
    refine hn p r.first ⟨r, ?_, le_rfl, hc.proper r hr⟩
    unfold runs
    rw [(get?_eq_some_iff h.distinct).2 he]
    exact hr

theorem nodup_keys_sorted (h : s.files.keys.Nodup) : s.sorted.keys.Nodup :=
  ((mergeSort_perm s.files _).map _).nodup_iff.2 h

theorem get?_sorted (h : s.files.keys.Nodup) (p : Path) : s.sorted.get? p = s.files.get? p := by
  refine Option.ext fun rs => ?_
  rw [get?_eq_some_iff (nodup_keys_sorted h), get?_eq_some_iff h]
  exact mem_mergeSort

/-- In a table of runs with distinct files, the regions of one file are those of
its entry. -/
theorem filter_flatMap_regions {t : Table Path (List LineRange)} (h : t.keys.Nodup) (p : Path) :
    (t.flatMap fun (q, rs) => rs.map fun r => (⟨q, r⟩ : Region)).filter (·.path = p) =
      ((t.get? p).getD []).map fun r => ⟨p, r⟩ := by
  induction t with
  | nil => rfl
  | cons e t ih =>
    obtain ⟨q, rs⟩ := e
    obtain ⟨hq, ht⟩ := nodup_cons.1 h
    rw [flatMap_cons, filter_append, ih ht, get?]
    by_cases hqp : q = p
    · subst hqp
      rw [get?_eq_none_of_not_mem hq]
      simp
    · simp [hqp]

theorem filter_regions (h : s.files.keys.Nodup) (p : Path) :
    s.regions.filter (·.path = p) = (s.runs p).map fun r => ⟨p, r⟩ := by
  rw [regions, filter_flatMap_regions (nodup_keys_sorted h), get?_sorted h, runs]

end RegionSet

end Excerpt
