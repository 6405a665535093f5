import Excerpt.Proofs.Diff.Patch
import Mathlib.Data.List.Forall2

/-!
# The shape of a diff

What a line of a hunk is can be told from its first column, its mark. Two hunks
have the same shape if their headers are the same and their lines have the same
marks one after the other, so that they differ only in the texts behind the marks.
Such hunks have the same numbers of old and new lines. Diffs and patches have the
same shape if their hunks do and all else is the same.
-/

namespace Excerpt

open List

namespace Unified

/-- The first column of a line. A kept line whose leading space is left out has none. -/
def Line.mark (l : Line) : Option Char :=
  l.written.head?

/-- Two hunks are the same but for the texts behind the marks of their lines. -/
structure Block.SameShape (b c : Block) : Prop where
  gap : b.gap.length = c.gap.length
  marks : b.body.map Line.mark = c.body.map Line.mark
  briefOld : b.briefOld = c.briefOld
  briefNew : b.briefNew = c.briefNew
  heading : b.heading = c.heading

variable {l m : Line} {ls ms : List Line} {b c : Block}

theorem Line.oldCount_eq_of_mark (h : l.mark = m.mark) : l.oldCount = m.oldCount := by
  cases l <;> cases m <;> simp [mark, written] at h <;> rfl

theorem Line.newCount_eq_of_mark (h : l.mark = m.mark) : l.newCount = m.newCount := by
  cases l <;> cases m <;> simp [mark, written] at h <;> rfl

theorem lengths_eq_of_marks (h : ls.map Line.mark = ms.map Line.mark) :
    (olds ls).length = (olds ms).length ∧ (news ls).length = (news ms).length := by
  induction ls generalizing ms with
  | nil =>
    cases ms with
    | nil => exact ⟨rfl, rfl⟩
    | cons m ms => cases h
  | cons l ls ih =>
    cases ms with
    | nil => cases h
    | cons m ms =>
      obtain ⟨hm, hma⟩ := cons.inj h
      obtain ⟨holds, hn⟩ := ih hma
      rw [length_olds_cons, length_olds_cons, length_news_cons, length_news_cons, holds, hn,
        Line.oldCount_eq_of_mark hm, Line.newCount_eq_of_mark hm]
      exact ⟨rfl, rfl⟩

namespace Block.SameShape

variable (h : b.SameShape c)

include h

theorem length_olds_lines : (olds b.lines).length = (olds c.lines).length := by
  rw [Unified.length_olds_lines, Unified.length_olds_lines, h.gap, (lengths_eq_of_marks h.marks).1]

theorem length_news_lines : (news b.lines).length = (news c.lines).length := by
  rw [Unified.length_news_lines, Unified.length_news_lines, h.gap, (lengths_eq_of_marks h.marks).2]

theorem header_eq (old new : Nat) : b.header old new = c.header old new := by
  rw [Block.header, Block.header, h.briefOld, h.briefNew, h.heading,
    (lengths_eq_of_marks h.marks).1, (lengths_eq_of_marks h.marks).2]

end Block.SameShape

/-- The line without the text behind its mark. -/
def Line.bare : Line → Line
  | kept _ => kept []
  | blank => blank
  | removed _ => removed []
  | added _ => added []
  | remark _ => remark []

@[simp] theorem Line.mark_bare (l : Line) : l.bare.mark = l.mark := by
  cases l <;> rfl

/-- Two diffs are the same but for the texts behind the marks of their lines. -/
structure Document.SameShape (d e : Document) : Prop where
  preamble : d.preamble = e.preamble
  blocks : List.Forall₂ Block.SameShape d.blocks e.blocks
  finalNewline : d.finalNewline = e.finalNewline

end Unified

/-! ## Patches -/

namespace Patch

open Unified

def Section.bodyLines : Section → List Line
  | silent _ => []
  | shown _ _ _ blocks => blocks.flatMap Block.body
  | deleted _ _ removed brief remark => (deletion removed brief remark).body

def bodyLines (d : Patch) : List Line :=
  d.sections.flatMap Section.bodyLines

/-- Two sections are the same but for the texts behind the marks of their lines. -/
inductive Section.SameShape : Section → Section → Prop
  | silent (header : List HeaderLine) : SameShape (.silent header) (.silent header)
  | shown (header : List HeaderLine) (old : Option (List Char)) (path : List Char)
      {bs cs : List Block} (blocks : List.Forall₂ Block.SameShape bs cs) :
      SameShape (.shown header old path bs) (.shown header old path cs)
  | deleted (header : List HeaderLine) (path : List Char) {removed removed' : List (List Char)}
      (brief : Bool) {remark remark' : Option (List Char)}
      (hunk : (deletion removed brief remark).SameShape (deletion removed' brief remark')) :
      SameShape (.deleted header path removed brief remark)
        (.deleted header path removed' brief remark')

/-- Two patches are the same but for the texts behind the marks of their lines. -/
structure SameShape (d e : Patch) : Prop where
  sections : List.Forall₂ Section.SameShape d.sections e.sections
  finalNewline : d.finalNewline = e.finalNewline

/-! What holds of a line and itself and of two lines of hunks with one mark holds of the lines
of two patches of one shape. -/

section Related

variable {R : List Char → List Char → Prop}

theorem forall₂_written {ls ms : List Line} (h : ls.map Line.mark = ms.map Line.mark)
    (hR : ∀ l ∈ ls, ∀ m ∈ ms, l.mark = m.mark → R l.written m.written) :
    List.Forall₂ R (ls.map Line.written) (ms.map Line.written) := by
  induction ls generalizing ms with
  | nil =>
    cases ms with
    | nil => exact List.Forall₂.nil
    | cons m ms => cases h
  | cons l ls ih =>
    cases ms with
    | nil => cases h
    | cons m ms =>
      obtain ⟨hmark, hma⟩ := cons.inj h
      have hf := hR l mem_cons_self m mem_cons_self hmark
      refine List.Forall₂.cons hf (ih hma fun l hl m hm => ?_)
      exact hR l (mem_cons_of_mem _ hl) m (mem_cons_of_mem _ hm)

theorem forall₂_writtenHunks (hrefl : ∀ t, R t t) {bs cs : List Block}
    (h : List.Forall₂ Block.SameShape bs cs)
    (hR : ∀ l ∈ bs.flatMap Block.body, ∀ m ∈ cs.flatMap Block.body, l.mark = m.mark →
      R l.written m.written) (old new : Nat) :
    List.Forall₂ R (writtenHunks old new bs) (writtenHunks old new cs) := by
  induction h generalizing old new with
  | nil => exact List.Forall₂.nil
  | @cons b c bs cs hbc hr ih =>
    obtain ⟨holds, hn⟩ := lengths_eq_of_marks hbc.marks
    rw [writtenHunks, writtenHunks, hbc.header_eq, hbc.gap, holds, hn, hbc.length_olds_lines,
      hbc.length_news_lines]
    refine List.Forall₂.cons (hrefl _) (rel_append (forall₂_written hbc.marks ?_) (ih ?_ _ _))
    · exact fun l hl m hm => hR l (by simp [hl]) m (by simp [hm])
    · intro l hl m hm
      exact hR l (mem_append_right _ hl) m (mem_append_right _ hm)

theorem Section.SameShape.forall₂_lines {sec sec' : Section} (h : sec.SameShape sec') (hrefl : ∀ t, R t t)
    (hR : ∀ l ∈ sec.bodyLines, ∀ m ∈ sec'.bodyLines, l.mark = m.mark → R l.written m.written) :
    List.Forall₂ R sec.lines sec'.lines := by
  have hs : ∀ ts : List (List Char), List.Forall₂ R ts ts := fun ts =>
    forall₂_same.2 fun t _ => hrefl t
  cases h with
  | silent header => exact hs _
  | shown header old path blocks =>
    refine rel_append (hs _) (List.Forall₂.cons (hrefl _) (List.Forall₂.cons (hrefl _) ?_))
    exact forall₂_writtenHunks hrefl blocks hR 1 1
  | deleted header path brief hunk =>
    refine rel_append (hs _) (List.Forall₂.cons (hrefl _) (List.Forall₂.cons (hrefl _) ?_))
    refine forall₂_writtenHunks hrefl (List.Forall₂.cons hunk List.Forall₂.nil) ?_ 1 1
    simpa [Section.bodyLines] using hR

theorem SameShape.forall₂_lines {d e : Patch} (h : d.SameShape e) (hrefl : ∀ t, R t t)
    (hR : ∀ l ∈ d.bodyLines, ∀ m ∈ e.bodyLines, l.mark = m.mark → R l.written m.written) :
    List.Forall₂ R d.lines e.lines := by
  obtain ⟨secs, final⟩ := d
  obtain ⟨secs', final'⟩ := e
  obtain ⟨hs, -⟩ := h
  simp only [lines, bodyLines] at hs hR ⊢
  induction hs with
  | nil => exact List.Forall₂.nil
  | cons hsec hr ih =>
    refine rel_append (hsec.forall₂_lines hrefl ?_) (ih ?_)
    · intro l hl m hm
      exact hR l (mem_append_left _ hl) m (mem_append_left _ hm)
    · intro l hl m hm
      exact hR l (mem_append_right _ hl) m (mem_append_right _ hm)

end Related

end Patch

end Excerpt
