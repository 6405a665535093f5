import Excerpt.Marker.Section
import Excerpt.Proofs.Grammar.Span
import Excerpt.Proofs.Query.Match
import Excerpt.Proofs.Table

/-!
# The ends of marked sections

The pass over the comments of a source keeps two facts about its sections. None
starts on the first line, since there is a directive above it, and none ends
below the last row, since there is a directive under it. Nothing more holds: the
ends of a section whose directives have no line between them change places.
-/

namespace Excerpt

open List Report

namespace Node

theorem Every.of_mem_walk {P : Node → Prop} {n m : Node} (h : Every P n) (hm : m ∈ n.walk) : Every P m :=
  h.of_mem_preorder ((walk_perm_preorder n).subset hm)

theorem comments_eq_insertionSort (n : Node) : n.comments =
      (n.walk.filter (·.kind == "comment")).insertionSort fun a b => a.start ≤ b.start :=
  mergeSort_eq_insertionSort start _

theorem row_of_mem_comments {src : Bytes} {n m : Node} (hwf : n.WellFormed src)
    (h : m ∈ n.comments) : m.startRow ≤ src.newlines := by
  obtain ⟨hw, hk⟩ := mem_filter.1 (mem_mergeSort.1 h)
  obtain ⟨t, ht, hs⟩ := (hwf.of_mem_walk hw).form.span_of_comment (beq_iff_eq.1 hk)
  rw [startRow, hs]
  exact Token.row_of_mem_scan ht

end Node

namespace Marker

/-- The sections seen so far start below the first line and end by row `rows`. -/
structure Progress.Proper (rows : Nat) (p : Progress) : Prop where
  closed : ∀ e ∈ p.closed, 2 ≤ e.2.1 ∧ 0 ≤ e.2.2 ∧ e.2.2 ≤ rows
  openAt : ∀ e ∈ p.openAt, 2 ≤ e.2

namespace Progress.Proper

variable {rows : Nat} {p q : Progress}

theorem step {row : Nat} {e : Directive.Event} (hp : p.Proper rows) (hrow : row ≤ rows)
    (h : (p.step (row + 1) e).outcome = .ok q) : q.Proper rows := by
  cases e with
  | opens name =>
    cases h
    refine ⟨hp.closed, ?_⟩
    intro e he
    rcases Table.mem_put he with rfl | he
    · dsimp only
      omega
    · exact hp.openAt e he
  | closes name =>
    unfold Progress.step at h
    dsimp only at h
    split at h
    · next first hf =>
        cases h
        refine ⟨?_, fun e he => hp.openAt e ((Table.remove_sublist _ _).subset he)⟩
        intro e he
        rcases Table.mem_put he with rfl | he
        · refine ⟨hp.openAt _ (Table.mem_of_get?_eq_some hf), ?_⟩
          dsimp only
          omega
        · exact hp.closed e he
    · cases h
      exact hp

theorem scan {src : Bytes} {ns : List Node} (hp : p.Proper rows)
    (hr : ∀ n ∈ ns, n.startRow ≤ rows) (h : (scan src p ns).outcome = .ok q) : q.Proper rows := by
  induction ns generalizing p with
  | nil =>
    cases h
    exact hp
  | cons n ns ih =>
    obtain ⟨hrow, hr⟩ := forall_mem_cons.1 hr
    obtain ⟨text, -, h⟩ := bind_eq_ok.1 h
    split at h
    · obtain ⟨p', hs, h⟩ := bind_eq_ok.1 h
      exact ih (hp.step hrow hs) hr h
    · exact ih hp hr h

end Progress.Proper

theorem ends_of_mem_sections {src : Bytes} {n : Node} {found : Sections}
    (hwf : n.WellFormed src) (h : (sections src n).outcome = .ok found) :
    ∀ e ∈ found, 2 ≤ e.2.1 ∧ 0 ≤ e.2.2 ∧ e.2.2 ≤ src.newlines := by
  obtain ⟨p, hsc, h⟩ := bind_eq_ok.1 h
  obtain ⟨-, -, h⟩ := bind_eq_ok.1 h
  cases h
  have hs : Progress.start.Proper src.newlines := ⟨by simp [Progress.start], by simp [Progress.start]⟩
  exact (hs.scan (fun m hm => Node.row_of_mem_comments hwf hm) hsc).closed

end Marker

end Excerpt
