import Excerpt.Proofs.Text.Lines

/-!
# Lines with their ends

A text is cut into lines together with what ends them: one character, or a carriage
return and a line feed, or nothing at the end of the text. Put together again, they
are the text.
-/

namespace Excerpt

open List

namespace Text

variable {ss : List (List Char × List Char)}

def IsEnd (stop : List Char) : Prop :=
  stop = [] ∨ stop = ['\r', '\n'] ∨ ∃ c, stop = [c]

/-- Only the last line of a text can go without an end. -/
structure Segments (ss : List (List Char × List Char)) : Prop where
  ends : ∀ s ∈ ss, IsEnd s.2
  inner : ss.Pairwise fun s _ => s.2 ≠ []

theorem Segments.filter (h : Segments ss)
    (p : List Char × List Char → Bool) : Segments (ss.filter p) :=
  ⟨fun s hs => h.ends s (mem_of_mem_filter hs), h.inner.filter p⟩

end Text

end Excerpt
