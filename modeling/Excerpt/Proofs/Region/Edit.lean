import Excerpt.Proofs.File.Path
import Excerpt.Proofs.Region.Lines

/-!
# Sequences of edits

An edit adds or subtracts the lines between two numbers, given in either
order. `edited es` is the region set that a sequence of edits leaves of the empty
one, and `lineSet es` the finite set of lines that the same sequence leaves when
an addition is a union and a subtraction is a difference. The regions list
exactly these lines, and since their form is canonical, the set of lines
determines them.
-/

namespace Excerpt

open List

namespace RegionSet

variable {s t : RegionSet}

/-- An operation on a region set. -/
inductive Edit where
  | add (path : Path) (a b : Int)
  | subtract (path : Path) (a b : Int)
deriving Repr, DecidableEq

namespace Edit

variable {s : RegionSet} {q : Path}

/-- The file that an edit is about. -/
def path : Edit → Path
  | add p _ _ => p
  | subtract p _ _ => p

def apply (s : RegionSet) : Edit → RegionSet
  | add p a b => s.add p a b
  | subtract p a b => s.subtract p a b

/-- The lines of a file between two numbers. -/
def span (p : Path) (a b : Int) : Finset (Path × Int) :=
  -- The order is given, since the instance found for it need not be computable.
  letI : Preorder Int := Int.instLinearOrder.toPreorder
  {p} ×ˢ Finset.Icc (min a b) (max a b)

def applyLines (l : Finset (Path × Int)) : Edit → Finset (Path × Int)
  | add p a b => l ∪ span p a b
  | subtract p a b => l \ span p a b

theorem mem_span (p : Path) (a b : Int) (q : Path) (n : Int) :
    (q, n) ∈ span p a b ↔ q = p ∧ min a b ≤ n ∧ n ≤ max a b := by
  rw [span, Finset.mem_product, Finset.mem_singleton, Finset.mem_Icc]

theorem wellFormed_apply (h : s.WellFormed) (e : Edit) : (e.apply s).WellFormed := by
  cases e with
  | add p a b => exact h.add p a b
  | subtract p a b => exact h.subtract p a b

/-- One edit does to the lines of a region set what it does to a set of lines. -/
theorem covers_apply (h : s.WellFormed) {l : Finset (Path × Int)}
    (hl : ∀ p n, s.covers p n ↔ (p, n) ∈ l) (e : Edit) (p : Path) (n : Int) :
    (e.apply s).covers p n ↔ (p, n) ∈ e.applyLines l := by
  cases e with
  | add q a b =>
    rw [apply, covers_add h, applyLines, Finset.mem_union, mem_span, hl, or_comm]
  | subtract q a b =>
    rw [apply, covers_subtract h, applyLines, Finset.mem_sdiff, mem_span, hl]

/-- An edit leaves the entries of the other files as they are. -/
theorem get?_apply_of_ne (h : s.WellFormed) (e : Edit) (hq : q ≠ e.path) :
    (e.apply s).files.get? q = s.files.get? q := by
  cases e with
  | add p a b => exact get?_add_of_ne s hq.symm a b
  | subtract p a b => exact get?_subtract_of_ne h.distinct hq.symm a b

theorem filter_regions_apply_of_ne (h : s.WellFormed) (e : Edit) (hq : q ≠ e.path) :
    (e.apply s).regions.filter (·.path = q) = s.regions.filter (·.path = q) := by
  rw [filter_regions (wellFormed_apply h e).distinct, filter_regions h.distinct, runs,
    get?_apply_of_ne h e hq, runs]

end Edit

/-- The region set that a sequence of edits leaves of the empty one. -/
def edited (es : List Edit) : RegionSet :=
  es.foldl (fun s e => e.apply s) empty

/-- The lines that a sequence of edits leaves of no lines. -/
def lineSet (es : List Edit) : Finset (Path × Int) :=
  es.foldl (fun l e => e.applyLines l) ∅

theorem edited_append_singleton (es : List Edit) (e : Edit) : edited (es ++ [e]) = e.apply (edited es) := by
  simp [edited]

theorem lineSet_append_singleton (es : List Edit) (e : Edit) :
    lineSet (es ++ [e]) = e.applyLines (lineSet es) := by
  simp [lineSet]

theorem wellFormed_edited (es : List Edit) : (edited es).WellFormed := by
  induction es using List.reverseRecOn with
  | nil => exact wellFormed_empty
  | append_singleton es e ih =>
    rw [edited_append_singleton]
    exact Edit.wellFormed_apply ih e

theorem covers_edited (es : List Edit) (p : Path) (n : Int) :
    (edited es).covers p n ↔ (p, n) ∈ lineSet es := by
  induction es using List.reverseRecOn generalizing p n with
  | nil => simp [edited, lineSet, covers]
  | append_singleton es e ih =>
    rw [edited_append_singleton, lineSet_append_singleton]
    exact Edit.covers_apply (wellFormed_edited es) ih e p n

/-- A region set refines a finite set of lines of files. After any edits, its
regions list exactly the lines that union and difference leave; a further edit
changes neither the entry nor the listed regions of another file; and the set is
complete exactly if no line is left. -/
theorem edited_refines_lineSet (es : List Edit) :
    (∀ p n, (∃ r ∈ (edited es).regions, r.path = p ∧ r.lines.first ≤ n ∧ n ≤ r.lines.last) ↔
      (p, n) ∈ lineSet es) ∧
    (∀ (e : Edit) (q : Path), q ≠ e.path →
      (e.apply (edited es)).files.get? q = (edited es).files.get? q ∧
      (e.apply (edited es)).regions.filter (·.path = q) =
        (edited es).regions.filter (·.path = q)) ∧
    ((edited es).isComplete = true ↔ lineSet es = ∅) := by
  have hwf := wellFormed_edited es
  refine ⟨?_, ?_, ?_⟩
  · intro p n
    rw [exists_mem_regions_iff hwf.distinct, covers_edited]
  · intro e q hq
    exact ⟨Edit.get?_apply_of_ne hwf e hq, Edit.filter_regions_apply_of_ne hwf e hq⟩
  · rw [isComplete_iff hwf, Finset.eq_empty_iff_forall_notMem]
    simp only [covers_edited, Prod.forall]

/-- A cut in one file, with the ends given backwards, leaves the other file
alone and a line on each side of it uncovered. -/
theorem edited_refines_lineSet_cut :
    let a : Path := ⟨["a"]⟩
    let b : Path := ⟨["b"]⟩
    let es : List Edit := [.add a 5 1, .add b 2 2, .subtract a 3 3]
    (∃ r ∈ (edited es).regions, r.path = a ∧ r.lines.first ≤ 4 ∧ 4 ≤ r.lines.last) ∧
    b ≠ (Edit.subtract a 9 4).path ∧
    ((Edit.subtract a 9 4).apply (edited es)).regions.filter (·.path = b) =
      (edited es).regions.filter (·.path = b) ∧
    (edited es).isComplete ≠ true := by
  intro a b es
  obtain ⟨hlines, hother, hcomplete⟩ := edited_refines_lineSet es
  have hne : b ≠ (Edit.subtract a 9 4).path := by decide
  have hleft : lineSet es ≠ ∅ := by decide
  exact ⟨(hlines a 4).2 (by decide), hne, (hother _ b hne).2, fun h => hleft (hcomplete.1 h)⟩

/-! ## One form for a set of lines -/

theorem get?_eq_of_covers_iff (hs : s.WellFormed) (ht : t.WellFormed)
    (h : ∀ p n, s.covers p n ↔ t.covers p n) (p : Path) : s.files.get? p = t.files.get? p := by
  have hr : s.runs p = t.runs p := (hs.canonical_runs p).eq_of_covers_iff (ht.canonical_runs p) (h p)
  -- a file without runs has no entry
  have hen : ∀ {u : RegionSet}, u.WellFormed →
      u.files.get? p = if u.runs p = [] then none else some (u.runs p) := by
    intro u hu
    unfold runs
    cases hget : u.files.get? p with
    | none => rfl
    | some rs =>
      have hne := (hu.canonical _ ((Table.get?_eq_some_iff hu.distinct).1 hget)).1
      simp [hne]
  rw [hen hs, hen ht, hr]

theorem pairwise_sorted (s : RegionSet) : s.sorted.Pairwise fun a b => a.1.parts ≤ b.1.parts := by
  have hp : s.sorted.Pairwise fun a b => (!b.1.before a.1) := by
    refine pairwise_mergeSort ?_ ?_ s.files
    · intro a b c hab hbc
      rw [Path.not_before_iff_le] at hab hbc ⊢
      exact le_trans hab hbc
    · intro a b
      rw [Bool.or_eq_true, Path.not_before_iff_le, Path.not_before_iff_le]
      exact le_total _ _
  exact hp.imp fun hab => (Path.not_before_iff_le _ _).1 hab

/-- The entries sorted by path depend on the answers of the table only. -/
theorem sorted_eq_of_get?_eq (hs : s.files.keys.Nodup)
    (ht : t.files.keys.Nodup) (h : ∀ p, s.files.get? p = t.files.get? p) : s.sorted = t.sorted := by
  refine Perm.eq_of_pairwise ?_ s.pairwise_sorted t.pairwise_sorted ?_
  · -- two entries of one path are the same, since the tables answer alike
    rintro ⟨p, rs⟩ ⟨q, ss⟩ hp hq hpq hqp
    have hpa : p.parts = q.parts := le_antisymm hpq hqp
    have hpath : p = q := by
      cases p
      cases q
      exact congrArg _ hpa
    subst hpath
    have hget := h p
    rw [← get?_sorted hs, ← get?_sorted ht, (Table.get?_eq_some_iff (nodup_keys_sorted hs)).2 hp,
      (Table.get?_eq_some_iff (nodup_keys_sorted ht)).2 hq] at hget
    rw [Option.some.inj hget]
  · exact ((mergeSort_perm _ _).trans (Table.perm_of_get?_eq hs ht h)).trans (mergeSort_perm _ _).symm

theorem regions_eq_iff (hs : s.WellFormed) (ht : t.WellFormed) :
    s.regions = t.regions ↔ ∀ p n, s.covers p n ↔ t.covers p n := by
  constructor
  · intro h p n
    rw [← exists_mem_regions_iff hs.distinct, h, exists_mem_regions_iff ht.distinct]
  · intro h
    unfold regions
    rw [sorted_eq_of_get?_eq hs.distinct ht.distinct (get?_eq_of_covers_iff hs ht h)]

theorem count_eq_length_regions (s : RegionSet) : s.count = s.regions.length := by
  have hp := (mergeSort_perm s.files fun a b => !b.1.before a.1).symm
  unfold count regions sorted
  rw [(hp.flatMap_right _).length_eq, length_flatMap, length_flatMap]
  simp

/-- Every set reached by edits is in canonical form, and its regions and their
number are determined by the lines that are left. -/
theorem edited_canonical (es : List Edit) :
    (∀ p rs, (p, rs) ∈ (edited es).files →
      rs ≠ [] ∧ (∀ r ∈ rs, r.first ≤ r.last) ∧
        rs.Pairwise fun r s => r.last + 2 ≤ s.first) ∧
    (edited es).files.keys.Nodup ∧
    ∀ es' : List Edit,
      (∀ p n,
        (∃ r ∈ (edited es).regions, r.path = p ∧ r.lines.first ≤ n ∧ n ≤ r.lines.last) ↔
          ∃ r ∈ (edited es').regions, r.path = p ∧ r.lines.first ≤ n ∧ n ≤ r.lines.last) →
      (edited es).regions = (edited es').regions ∧ (edited es).count = (edited es').count := by
  have hwf := wellFormed_edited es
  refine ⟨?_, hwf.distinct, ?_⟩
  · intro p rs hrs
    obtain ⟨hne, hcanon⟩ := hwf.canonical _ hrs
    exact ⟨hne, hcanon.proper, hcanon.apart⟩
  · intro es' hlines
    have hwf' := wellFormed_edited es'
    have hcovers : ∀ p n, (edited es).covers p n ↔ (edited es').covers p n := by
      intro p n
      rw [← exists_mem_regions_iff hwf.distinct, ← exists_mem_regions_iff hwf'.distinct]
      exact hlines p n
    have hregions : (edited es).regions = (edited es').regions := by
      unfold regions
      rw [sorted_eq_of_get?_eq hwf.distinct hwf'.distinct (get?_eq_of_covers_iff hwf hwf' hcovers)]
    exact ⟨hregions, by rw [count_eq_length_regions, count_eq_length_regions, hregions]⟩

/-- Three touching regions, entered out of order, and one region less what was
added beyond it are the same set. -/
theorem edited_canonical_touching :
    let a : Path := ⟨["a"]⟩
    let es : List Edit := [.add a 4 5, .add a 1 2, .add a 3 3]
    let es' : List Edit := [.add a 1 8, .subtract a 6 9]
    (∀ p n,
      (∃ r ∈ (edited es).regions, r.path = p ∧ r.lines.first ≤ n ∧ n ≤ r.lines.last) ↔
        ∃ r ∈ (edited es').regions, r.path = p ∧ r.lines.first ≤ n ∧ n ≤ r.lines.last) ∧
    (edited es).regions = (edited es').regions ∧ (edited es).count = (edited es').count := by
  intro a es es'
  have hsame : lineSet es = lineSet es' := by decide
  have hlines : ∀ p n,
      (∃ r ∈ (edited es).regions, r.path = p ∧ r.lines.first ≤ n ∧ n ≤ r.lines.last) ↔
        ∃ r ∈ (edited es').regions, r.path = p ∧ r.lines.first ≤ n ∧ n ≤ r.lines.last := by
    intro p n
    rw [exists_mem_regions_iff (wellFormed_edited es).distinct, exists_mem_regions_iff (wellFormed_edited
      es').distinct, covers_edited, covers_edited, hsame]
  exact ⟨hlines, (edited_canonical es).2.2 es' hlines⟩

end RegionSet

end Excerpt
