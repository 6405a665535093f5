import Excerpt.Marker.Directive
import Excerpt.Proofs.Cpp.Visit
import Excerpt.Proofs.Grammar.Span
import Excerpt.Proofs.Query.Match

/-!
# The nodes below a node

In the tree of a source a node covers the bytes of all nodes below it, and their
rows are rows of its text. The converse holds for comments, which have no
children: a comment that a node covers is below the node (`mem_preorder_of_covers`).
-/

namespace Excerpt

/-- Of two members of a list that follow one another, one comes first. -/
theorem apart_of_pairwise {α : Type} {start stop : α → Nat} {l : List α} {a b : α}
    (h : l.Pairwise fun a b => stop a ≤ start b) (ha : a ∈ l) (hb : b ∈ l) (hne : a ≠ b) :
    stop a ≤ start b ∨ stop b ≤ start a := by
  have hs : Std.Symm fun a b : α => stop a ≤ start b ∨ stop b ≤ start a := ⟨fun _ _ => Or.symm⟩
  exact (h.imp .inl : l.Pairwise fun a b => stop a ≤ start b ∨ stop b ≤ start a).forall ha hb hne

namespace Node

variable {src : Bytes} {n m c root : Node} {P : Node → Prop}

theorem mem_preorder_self (n : Node) : n ∈ n.preorder :=
  mem_preorder.2 (.inl rfl)

theorem every_of_forall (h : ∀ m ∈ n.preorder, P m) : Every P n := by
  induction n using Node.induction with
  | h n ih =>
    refine .node (h n (mem_preorder_self n)) fun c hc => ih c hc fun m hm => ?_
    exact h m (mem_preorder.2 (.inr ⟨c, hc, hm⟩))

theorem mem_preorder_trans (hn : n ∈ root.preorder) (hm : m ∈ n.preorder) : m ∈ root.preorder :=
  have hall : Every (· ∈ root.preorder) root := every_of_forall fun _ h => h
  ((hall.of_mem_preorder hn).of_mem_preorder hm).here

theorem mem_preorder_child (hn : n ∈ root.preorder) (hc : c ∈ n.children) : c ∈ root.preorder :=
  mem_preorder_trans hn (mem_preorder.2 (.inr ⟨c, hc, mem_preorder_self c⟩))

/-- The bytes of `m` are among those of the node. -/
def Covers (n m : Node) : Prop :=
  n.start ≤ m.start ∧ m.stop ≤ n.stop

theorem Every.covers (h : Every Layout n) (hm : m ∈ n.preorder) : n.Covers m := by
  induction h with
  | node here _ ih =>
    rcases mem_preorder.1 hm with rfl | ⟨c, hc, hm⟩
    · exact ⟨Nat.le_refl _, Nat.le_refl _⟩
    · obtain ⟨hs, hst⟩ := here.inside c hc
      obtain ⟨hs', hst'⟩ := ih c hc hm
      exact ⟨Nat.le_trans hs hs', Nat.le_trans hst' hst⟩

/-- A node without children, but not without bytes, is below each node that covers it. -/
theorem Every.mem_preorder_of_covers (h : Every Layout root) (hn : n ∈ root.preorder)
    (hc : c ∈ root.preorder) (hch : c.children = []) (hlt : c.start < c.stop)
    (hco : n.Covers c) : c ∈ n.preorder := by
  induction h with
  | @node root here children ih =>
    rcases mem_preorder.1 hn with rfl | ⟨d, hd, hnd⟩
    · exact hc
    · rcases mem_preorder.1 hc with rfl | ⟨e, he, hce⟩
      · rw [hch] at hd
        cases hd
      · by_cases heq : d = e
        · exact ih d hd hnd (heq ▸ hce)
        · -- children of one node have no bytes in common
          exfalso
          obtain ⟨hs, hst⟩ := (children d hd).covers hnd
          obtain ⟨hs', hst'⟩ := (children e he).covers hce
          obtain ⟨hf, hto⟩ := hco
          have ha := apart_of_pairwise here.ordered hd he heq
          omega

theorem newlines_take_mono (src : Bytes) {i j : Nat} (h : i ≤ j) :
    Bytes.newlines (src.take i) ≤ Bytes.newlines (src.take j) := by
  rw [← Point.newlines_take_add_slice h]
  exact Nat.le_add_right _ _

theorem mem_comments : c ∈ n.comments ↔ c ∈ n.preorder ∧ c.kind = "comment" := by
  rw [comments, List.mem_mergeSort, List.mem_filter, (walk_perm_preorder n).mem_iff, beq_iff_eq]

theorem pairwise_comments (n : Node) : n.comments.Pairwise (·.start ≤ ·.start) :=
  pairwise_mergeSort_key start _

section Parsed

variable (h : parse src = .ok root) (hn : n ∈ root.preorder)

include h in
theorem every_layout_of_parse : Every Layout root :=
  every_of_forall fun _ hm => layout_of_parse h hm

include h hn

theorem covers_of_parse (hm : m ∈ n.preorder) : n.Covers m :=
  ((every_layout_of_parse h).of_mem_preorder hn).covers hm

theorem startRow_of_parse : n.startRow = Bytes.newlines (src.take n.start) := by
  rw [startRow, startPoint_of_parse h hn, Point.row_ofOffset]

theorem rows_of_parse (hm : m ∈ n.preorder) :
    n.startRow ≤ m.startRow ∧ m.startRow ≤ n.startRow + (n.text src).newlines := by
  obtain ⟨hs, hst⟩ := covers_of_parse h hn hm
  have hle := (layout_of_parse h (mem_preorder_trans hn hm)).le
  rw [startRow_of_parse h hn, startRow_of_parse h (mem_preorder_trans hn hm), text,
    Point.newlines_take_add_slice (layout_of_parse h hn).le]
  exact ⟨newlines_take_mono src hs, newlines_take_mono src (Nat.le_trans hle hst)⟩

end Parsed

end Node

end Excerpt
