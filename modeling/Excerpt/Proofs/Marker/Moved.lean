import Excerpt.Proofs.Grammar.Alone

/-!
# The sections of a part of a source

The sections of a construct are found in the source by the rows of its comments,
and in its text by rows that count from its first line. The pass over
the comments is the same in both, so the sections are too, moved by the rows
above the construct.
-/

namespace Excerpt

open List Report

section Sorting

variable {R : Node → Node → Prop} {c c' : Node} {ns ns' : List Node}

theorem forall₂_orderedInsert (hR : ∀ a a' b b', R a a' → R b b' →
    (a.start ≤ b.start ↔ a'.start ≤ b'.start)) (hc : R c c') (h : List.Forall₂ R ns ns') :
    List.Forall₂ R (ns.orderedInsert (fun a b => a.start ≤ b.start) c)
      (ns'.orderedInsert (fun a b => a.start ≤ b.start) c') := by
  induction h with
  | nil => exact .cons hc .nil
  | cons hb h ih =>
    have hiff := hR _ _ _ _ hc hb
    rw [orderedInsert_cons, orderedInsert_cons]
    split
    · next hle =>
        rw [if_pos (hiff.1 hle)]
        exact .cons hc (.cons hb h)
    · next hlt =>
        rw [if_neg (mt hiff.2 hlt)]
        exact .cons hb ih

theorem forall₂_insertionSort (hR : ∀ a a' b b', R a a' → R b b' →
    (a.start ≤ b.start ↔ a'.start ≤ b'.start)) (h : List.Forall₂ R ns ns') :
    List.Forall₂ R (ns.insertionSort fun a b => a.start ≤ b.start)
      (ns'.insertionSort fun a b => a.start ≤ b.start) := by
  induction h with
  | nil => exact .nil
  | cons hb h ih => exact forall₂_orderedInsert hR hb ih

end Sorting

namespace Node

variable {src part : Bytes} {d r : Nat} {n n' c c' : Node}

theorem comments_eq_remarks (n : Node) :
    n.comments = (remarks [n]).insertionSort fun a b => a.start ≤ b.start := by
  rw [comments_eq_insertionSort, remarks, walkAll, walkAll, nil_append]

theorem forall₂_comments (h : List.Forall₂ (SameRemark src part d r) (remarks [n]) (remarks [n'])) :
    List.Forall₂ (SameRemark src part d r) n.comments n'.comments := by
  rw [comments_eq_remarks, comments_eq_remarks]
  refine forall₂_insertionSort ?_ h
  rintro a a' b b' ⟨t, -, t', -, ht, rfl, rfl⟩ ⟨u, -, u', -, hu, rfl, rfl⟩
  change t.start ≤ u.start ↔ t'.start ≤ u'.start
  rw [ht.start, hu.start]
  omega

theorem SameRemark.text? (h : SameRemark src part d r c c') : c.text? src = c'.text? part := by
  obtain ⟨t, ht, t', ht', hm, rfl, rfl⟩ := h
  have hte : (leaf "comment" t).text src = (leaf "comment" t').text part :=
    (Token.slice_of_mem_scan ht).trans (hm.text.trans (Token.slice_of_mem_scan ht').symm)
  rw [Node.text?, Node.text?, hte]

theorem SameRemark.row (h : SameRemark src part d r c c') : c.startRow = c'.startRow + r := by
  obtain ⟨t, -, t', -, hm, rfl, rfl⟩ := h
  exact hm.row

end Node

namespace Marker

def moveDown (d : Int) (s : Sections) : Sections :=
  s.mapValues (Prod.map (· + d) (· + d))

/-- What is known after the same pass further down. -/
def Progress.moveDown (d : Int) (p : Progress) : Progress :=
  ⟨Marker.moveDown d p.closed, p.openAt.mapValues (· + d)⟩

theorem Progress.step_moveDown (p : Progress) (d line : Int) (e : Directive.Event) :
    ((p.moveDown d).step (line + d) e).outcome = (p.step line e).outcome.map (moveDown d) := by
  cases e with
  | opens name =>
    change Except.ok _ = Except.ok (moveDown d _)
    rw [moveDown, moveDown, ← Table.put_mapValues, Int.add_right_comm]
  | closes name =>
    have hget : (p.moveDown d).openAt.get? name = (p.openAt.get? name).map (· + d) := Table.get?_mapValues ..
    unfold Progress.step
    dsimp only
    rw [hget]
    cases p.openAt.get? name with
    | none => rfl
    | some first =>
      change Except.ok _ = Except.ok (moveDown d _)
      have hl : line + d - 1 = line - 1 + d := by omega
      have hput := Table.put_mapValues (Prod.map (· + d) (· + d)) p.closed name (first, line - 1)
      rw [hl, moveDown, moveDown, Marker.moveDown, Marker.moveDown, ← hput, ← Table.remove_mapValues]
      rfl

variable {src part : Bytes} {d r : Nat}

/-- The pass over the same comments in a part and in its source. -/
theorem scan_moveDown {ns ns' : List Node}
    (h : List.Forall₂ (Node.SameRemark src part d r) ns ns') (p : Progress) :
    (scan src (p.moveDown r) ns).outcome = (scan part p ns').outcome.map (·.moveDown r) := by
  induction h generalizing p with
  | nil => rfl
  | @cons c c' ns ns' hc h ih =>
    have hrow : ((c.startRow : Int) + 1) = (c'.startRow + 1) + r := by
      rw [hc.row]
      omega
    rw [scan, scan, outcome_bind, outcome_bind, hc.text?]
    cases c'.text? part with
    | error e => rfl
    | ok text =>
      change Report.outcome _ = (Report.outcome _).map _
      cases Directive.event? text with
      | none => exact ih p
      | some e =>
        rw [outcome_bind, outcome_bind, hrow, Progress.step_moveDown]
        cases (p.step (c'.startRow + 1) e).outcome with
        | error e => rfl
        | ok q => exact ih q

theorem outcome_noteOpen (names : List String) : (noteOpen names).outcome = .ok () := by
  induction names with
  | nil => rfl
  | cons name names ih =>
    rw [noteOpen, outcome_bind]
    exact ih

theorem outcome_sections (src : Bytes) (n : Node) :
    (sections src n).outcome = (scan src .start n.comments).outcome.map (·.closed) := by
  rw [sections, outcome_bind]
  cases (scan src .start n.comments).outcome with
  | error e => rfl
  | ok p =>
    change Report.outcome _ = _
    rw [outcome_bind, outcome_noteOpen]
    rfl

theorem sections_moveDown {n n' : Node}
    (h : List.Forall₂ (Node.SameRemark src part d r) (Node.remarks [n]) (Node.remarks [n'])) :
    (sections src n).outcome = (sections part n').outcome.map (moveDown r) := by
  have hs := scan_moveDown (Node.forall₂_comments h) .start
  change (scan src .start n.comments).outcome = _ at hs
  rw [outcome_sections, outcome_sections, hs]
  cases (scan part .start n'.comments).outcome with
  | error e => rfl
  | ok p => rfl

end Marker

end Excerpt
