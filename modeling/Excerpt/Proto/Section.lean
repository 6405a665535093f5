import Excerpt.Marker.Section
import Excerpt.Source

/-!
# Marked sections of lines

In a text without comments to look at, a directive is a line that holds nothing else. A section holds the
lines strictly between its directives.
-/

namespace Excerpt.Proto

/-- The rest of a line after blanks and `word`. -/
def afterWord? (word : String) (line : List Char) : Option (List Char) :=
  let line := line.dropWhile Text.isBlank
  if word.toList.isPrefixOf line then some (line.drop word.toList.length) else none

/-- Whether `cs` is `name` with blanks around it, at least one of them in front. -/
def isBlankName (name cs : List Char) : Bool :=
  (List.range (cs.takeWhile Text.isBlank).length).any fun i =>
    let cs := cs.drop (i + 1)
    name.isPrefixOf cs && (cs.drop name.length).all Text.isBlank

/-- Whether a line is the directive `word` for `name`. -/
def isDirective (word name line : String) : Bool :=
  (afterWord? word line.toList).any (isBlankName name.toList)

/-- Where the search for a section stands: the places of its directives, counted from zero. -/
structure Bounds where
  start : Option Nat
  stop : Option Nat
deriving Repr, DecidableEq

/-- Looks on for the directives of `name`, from the line at place `i` on. The latest opening before the first
closing one counts. -/
def boundsFrom (name : String) (start : Option Nat) (i : Nat) : List String → Bounds
  | [] => ⟨start, none⟩
  | line :: lines =>
    if isDirective Directive.opening name line then boundsFrom name (some i) (i + 1) lines
    else if start.isSome && isDirective Directive.closing name line then ⟨start, some i⟩
    else boundsFrom name start (i + 1) lines

/-- The section `name` of lines of which the first has number `first`; `place` says where the lines are. -/
def sectionOf (name place : String) (first : Int) (lines : List String) : Except Failure Passage :=
  match boundsFrom name none 0 lines with
  | ⟨none, _⟩ => .error (.noStartLine name place)
  | ⟨some _, none⟩ => .error (.noEndLine name place)
  | ⟨some i, some j⟩ =>
    .ok ⟨Text.join "\n" ((lines.take j).drop (i + 1)), first + i + 1, first + j - 1⟩

/-- The name that a line is the directive `word` for. -/
def directiveName? (word line : String) : Option String := do
  let rest ← afterWord? word line.toList
  let cs := rest.dropWhile Text.isBlank
  let name := cs.takeWhile Directive.isNameChar
  if rest.head?.any Text.isBlank && !name.isEmpty && (cs.dropWhile Directive.isNameChar).all Text.isBlank then
    return String.ofList name
  else none

/-- Takes in a line of number `number`; the result of a closed section has the numbers of its directives. -/
def step (p : Marker.Progress) (number : Int) (line : String) : Marker.Progress :=
  match directiveName? Directive.opening line with
  | some name => { p with openAt := p.openAt.put name number }
  | none =>
    match directiveName? Directive.closing line with
    | some name =>
      match p.openAt.get? name with
      | some first => ⟨p.closed.put name (first, number), p.openAt.remove name⟩
      | none => p
    | none => p

/-- The pass over lines, the first of which has number `number`. -/
def scan (p : Marker.Progress) (number : Int) : List String → Marker.Progress
  | [] => p
  | line :: lines => scan (step p number line) (number + 1) lines

/-- The sections of lines, with the numbers of their directives. -/
def sections (lines : List String) : Sections :=
  (scan .start 1 lines).closed

end Excerpt.Proto
