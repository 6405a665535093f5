import Excerpt.Failure
import Excerpt.Tree.Parse

/-!
# Passages

A passage is a piece of text with the numbers of its first and last line, counted from one. A definition
is a passage that was found as a node of a tree.
-/

namespace Excerpt

/-- A text and the lines it stands on. -/
structure Passage where
  text : String
  first : Int
  last : Int
deriving Repr, DecidableEq

/-- The passage of a node that was found under a name. -/
structure Definition where
  passage : Passage
  node : Node
  name : String

namespace Passage

/-- The number of lines from the first to the last one. -/
def lineCount (p : Passage) : Int :=
  p.last - p.first + 1

/-- The lines in words. -/
def location (p : Passage) : String :=
  if p.first = p.last then s!"line {p.first}" else s!"lines {p.first}-{p.last}"

end Passage

namespace Bytes

def text? (bs : Bytes) : Except Failure String :=
  (Utf8.decode bs).mapError .notText

end Bytes

namespace Node

def text? (src : Bytes) (n : Node) : Except Failure String :=
  (n.text src).text?

/-- The text of a node and its lines. -/
def passage (src : Bytes) (n : Node) : Except Failure Passage := do
  return ⟨← n.text? src, n.startRow + 1, n.endRow + 1⟩

/-- The definition that a node found under `name` gives. -/
def definition (src : Bytes) (name : String) (n : Node) : Except Failure Definition := do
  return ⟨← n.passage src, n, name⟩

end Node

end Excerpt
