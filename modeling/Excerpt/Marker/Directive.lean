import Excerpt.Passage
import Excerpt.Query.Search

/-!
# Directives in comments

Comments mark sections of a source: `//@@start NAME` opens one and `//@@end NAME` closes it. A name is
made of word characters and hyphens.
-/

namespace Excerpt

namespace Node

/-- The comments within a node, by the place where they start. -/
def comments (n : Node) : List Node :=
  (n.walk.filter (·.kind == "comment")).mergeSort fun a b => a.start ≤ b.start

end Node

namespace Directive

def opening : String := "//@@start"

def closing : String := "//@@end"

/-- Whether `c` may stand in a name. -/
def isNameChar (c : Char) : Bool :=
  Text.isWord c || c == '-'

/-- The name after blanks, if there are blanks and a name. -/
def nameAfterBlanks? (cs : List Char) : Option String :=
  let name := (cs.dropWhile Text.isBlank).takeWhile isNameChar
  if cs.head?.any Text.isBlank && !name.isEmpty then some (String.ofList name) else none

/-- The name of the first directive `word` in a text that has one. -/
def nameIn? (word : List Char) : List Char → Option String
  | [] => none
  | c :: cs =>
    if word.isPrefixOf (c :: cs) then
      match nameAfterBlanks? ((c :: cs).drop word.length) with
      | some name => some name
      | none => nameIn? word cs
    else nameIn? word cs

/-- What a comment says about sections. -/
inductive Event where
  | opens (name : String)
  | closes (name : String)
deriving Repr, DecidableEq

/-- The directive of a comment. A comment that mentions the opening word is not looked at for a closing
one. -/
def event? (text : String) : Option Event :=
  if Text.contains text opening then (nameIn? opening.toList text.toList).map .opens
  else if Text.contains text closing then (nameIn? closing.toList text.toList).map .closes
  else none

def query : String :=
  "((comment) @comment (#match? @comment \"//@@\"))"

/-- The comments within a tree that hold a directive. Where the query is refused, all comments are looked
at instead. -/
def comments (testsAllowed : Bool) (src : Bytes) (root : Node) : Report (List Node) :=
  let found : Except QueryError (List Query.Match) :=
    if testsAllowed then Query.search query src root else .error .refused
  match found with
  | .ok hits => return hits.flatMap (·.nodes "comment")
  | .error e => do
    Report.note .warning
      s!"Predicate query failed: {(Failure.noAnswer e).message}, falling back to manual filtering"
    let texts ← root.comments.mapM fun n => (n.text? src : Except Failure String)
    return ((root.comments.zip texts).filter fun (_, t) => Text.contains t "//@@").map (·.1)

end Directive

end Excerpt
