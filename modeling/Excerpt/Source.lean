import Excerpt.File.Folder
import Excerpt.Passage
import Excerpt.Text.Line

/-!
# Sources

A source is a file that code is taken from: its path, its bytes and its tree, as far as they can be had.
-/

namespace Excerpt

/-- A file to take code from. -/
structure Source where
  path : Path
  content : Except Failure Bytes
  tree : Except Failure Node

namespace Source

def ofFolder (f : Folder) (p : Path) : Source where
  path := p
  content := f.read p
  tree := do (Node.parse (← f.read p)).mapError .noTree

/-- The text of a source, with line feeds for line ends. -/
def text (s : Source) : Except Failure String := do
  return Text.unifyEnds (← (← s.content).text?)

def lines (s : Source) : Except Failure (List String) := do
  return Text.lines (← s.text)

end Source

namespace Passage

/-- The lines from number `first` up to number `last`. A last line below zero is counted from the end. -/
def linesBetween (lines : List String) (first last : Int) : List String :=
  let stop := if last < 0 then (lines.length + last).toNat else last.toNat
  (lines.take stop).drop (first - 1).toNat

/-- The passage of the lines from number `first` up to number `last`. The numbers are kept even where there are
no such lines. -/
def ofLines (lines : List String) (first last : Int) : Passage :=
  ⟨Text.join "\n" (linesBetween lines first last), first, last⟩

end Passage

end Excerpt
