import Excerpt.Marker.Directive

/-!
# Marked sections

The sections of a node are found in one pass over its comments. Sections of different names are
independent of each other: they may nest and overlap. A section holds the lines strictly between its
directives.
-/

namespace Excerpt

/-- The sections of a source: the first and last line of each name. -/
abbrev Sections := Table String (Int × Int)

namespace Marker

/-- What a pass over comments knows: the sections closed so far, and the first lines of open ones. -/
structure Progress where
  closed : Sections
  openAt : Table String Int
deriving Repr

namespace Progress

/-- Nothing seen yet. -/
def start : Progress := ⟨[], []⟩

/-- Takes in a directive that stands on line `line`. -/
def step (p : Progress) (line : Int) : Directive.Event → Report Progress
  | .opens name => return { p with openAt := p.openAt.put name (line + 1) }
  | .closes name =>
    match p.openAt.get? name with
    | some first => return ⟨p.closed.put name (first, line - 1), p.openAt.remove name⟩
    | none => do
      Report.note .warning s!"Found //@@end {name} without matching //@@start"
      return p

end Progress

/-- The pass over comments. -/
def scan (src : Bytes) (p : Progress) : List Node → Report Progress
  | [] => return p
  | n :: ns => do
    let text ← n.text? src
    match Directive.event? text with
    | some e => do
      let p ← p.step (n.startRow + 1) e
      scan src p ns
    | none => scan src p ns

def noteOpen : List String → Report Unit
  | [] => return ()
  | name :: names => do
    Report.note .warning s!"Marker '{name}' was not closed with //@@end"
    noteOpen names

def sections (src : Bytes) (n : Node) : Report Sections := do
  let p ← scan src .start n.comments
  noteOpen p.openAt.keys
  return p.closed

end Marker

end Excerpt
