import Excerpt.Proofs.Cpp.Overload
import Excerpt.Proofs.Grammar.Descendant

/-!
# Places in a tree

A place leads from a node to one below it, child by child. It holds one node
(`Below.unique`), and in the tree of a source no two places hold the same node,
unless the node has no bytes (`Below.ne_of_ne`): a node is larger than what stands
inside, and nodes side by side have no bytes in common. In the order of the source
nothing stands between a node and its first child (`eq_concat_of_lt`).
-/

namespace Excerpt.Cpp

open Node List

variable {n m d : Node} {p q : Place} {above : List Node}

theorem eq_concat_of_lt (hlt : q < p) (hnot : ¬ q ++ [0] < p) : p = q ++ [0] := by
  induction q generalizing p with
  | nil =>
    cases p with
    | nil => exact absurd hlt (not_lt_nil _)
    | cons i rest =>
      rw [nil_append, cons_lt_cons_iff, not_or, not_and] at hnot
      obtain rfl : i = 0 := Nat.eq_zero_of_not_pos hnot.1
      cases rest with
      | nil => rfl
      | cons j rest => exact absurd (nil_lt_cons j rest) (hnot.2 rfl)
  | cons i q ih =>
    cases p with
    | nil => exact absurd hlt (not_lt_nil _)
    | cons j rest =>
      rw [cons_append, cons_lt_cons_iff, not_or, not_and] at hnot
      rcases cons_lt_cons_iff.1 hlt with hij | ⟨rfl, hr⟩
      · exact absurd hij hnot.1
      · rw [ih hr (hnot.2 rfl), cons_append]

theorem lt_concat (q : Place) (i : Nat) : q < q ++ [i] := by
  induction q with
  | nil => exact nil_lt_cons i []
  | cons j q ih => exact cons_lt_cons_iff.2 (.inr ⟨rfl, ih⟩)

namespace Below

theorem unique {above' : List Node} (h : Below n p above m) (h' : Below n p above' d) :
    m = d ∧ above = above' := by
  induction h generalizing above' with
  | here n =>
    cases h' with
    | here => exact ⟨rfl, rfl⟩
  | child hc _ ih =>
    cases h' with
    | child hc' h' =>
      cases hc.symm.trans hc'
      obtain ⟨rfl, rfl⟩ := ih h'
      exact ⟨rfl, rfl⟩

theorem mem_preorder (h : Below n p above m) : m ∈ n.preorder := by
  induction h with
  | here n => exact mem_preorder_self n
  | child hc _ ih => exact Node.mem_preorder.2 (.inr ⟨_, mem_of_getElem? hc, ih⟩)

theorem concat {i : Nat} (h : Below n p above m) (hc : m.children[i]? = some d) :
    Below n (p ++ [i]) (above ++ [m]) d := by
  induction h with
  | here n => exact .child hc (.here d)
  | child hc' _ ih => exact .child hc' (ih hc)

theorem exists_of_concat (h : Below n p (above ++ [m]) d) :
    ∃ q i, p = q ++ [i] ∧ Below n q above m ∧ m.children[i]? = some d := by
  induction above generalizing n p with
  | nil =>
    cases h with
    | @child _ c _ i place above hc h =>
      cases h
      exact ⟨[], i, rfl, .here m, hc⟩
  | cons a above ih =>
    cases h with
    | @child _ c _ i place above hc h =>
      obtain ⟨q, j, rfl, hm, hd⟩ := ih h
      exact ⟨i :: q, j, rfl, .child hc hm, hd⟩

theorem sizeOf_child_lt {c : Node} (hc : c ∈ n.children) : sizeOf c < sizeOf n := by
  obtain ⟨kind, span, children, fields⟩ := n
  have hlt := sizeOf_lt_of_mem hc
  simp only [Node.mk.sizeOf_spec]
  dsimp only at hlt
  omega

theorem sizeOf_le (h : Below n p above m) : sizeOf m ≤ sizeOf n := by
  induction h with
  | here n => exact Nat.le_refl _
  | child hc _ ih => exact Nat.le_trans ih (Nat.le_of_lt (sizeOf_child_lt (mem_of_getElem? hc)))

/-- Nodes at different places are different, if one of them is not empty. -/
theorem ne_of_ne {above' : List Node} (h : Below n p above m) (h' : Below n q above' d)
    (hl : Every Layout n) (hne : p ≠ q) (hlt : m.start < m.stop) : m ≠ d := by
  induction h generalizing q above' with
  | here n =>
    rintro rfl
    cases h' with
    | here => exact hne rfl
    | child hc h' =>
      have hs := sizeOf_child_lt (mem_of_getElem? hc)
      exact absurd h'.sizeOf_le (Nat.not_le.2 hs)
  | @child n c m i place above hc h ih =>
    cases h' with
    | here =>
      rintro rfl
      have hs := sizeOf_child_lt (mem_of_getElem? hc)
      exact absurd h.sizeOf_le (Nat.not_le.2 hs)
    | @child _ c' _ j place' above' hc' h' =>
      by_cases hij : i = j
      · subst hij
        cases hc.symm.trans hc'
        exact ih h' (hl.child c (mem_of_getElem? hc)) (fun heq => hne (by rw [heq])) hlt
      · -- children of one node have no bytes in common
        rintro rfl
        obtain ⟨hi, rfl⟩ := List.getElem?_eq_some_iff.1 hc
        obtain ⟨hj, rfl⟩ := List.getElem?_eq_some_iff.1 hc'
        obtain ⟨hst, hstop⟩ := (hl.child _ (mem_of_getElem? hc)).covers h.mem_preorder
        obtain ⟨hs', hst'⟩ := (hl.child _ (mem_of_getElem? hc')).covers h'.mem_preorder
        have ho := pairwise_iff_getElem.1 hl.here.ordered
        rcases Nat.lt_or_gt_of_ne hij with hlt' | hlt'
        · have ha := ho i j hi hj hlt'
          omega
        · have ha := ho j i hj hi hlt'
          omega

end Below

end Excerpt.Cpp
