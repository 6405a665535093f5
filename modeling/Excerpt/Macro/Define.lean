import Excerpt.Passage
import Excerpt.Query.Search

/-!
# Definitions of macros

A macro is defined by a `#define` directive, with or without parameters. The text of a definition runs to
the line feed that ends it, continued lines included.
-/

namespace Excerpt

/-- A `#define` directive. -/
structure MacroDefinition where
  name : String
  parameters : Option String
  text : String
  node : Node

namespace MacroDefinition

/-- Whether the macro takes parameters. -/
def isFunction (d : MacroDefinition) : Bool :=
  d.node.kind == "preproc_function_def"

/-- One more than the number of line feeds in the text. -/
def lineCount (d : MacroDefinition) : Nat :=
  d.text.toList.count '\n' + 1

/-- Whether the text holds a backslash and a line feed. -/
def multiline (d : MacroDefinition) : Bool :=
  d.text.toList.contains '\\' && 1 < d.lineCount

/-- The text and the lines of a definition. -/
def passage (d : MacroDefinition) : Passage :=
  ⟨d.text, d.node.startRow + 1, d.node.endRow + 1⟩

/-- The definition that a node is, if it has a name. -/
def ofNode? (src : Bytes) (n : Node) : Except Failure (Option MacroDefinition) := do
  let text ← n.text? src
  match n.field? "name" with
  | none => return none
  | some nameNode =>
    let name ← nameNode.text? src
    let params ←
      match if n.kind == "preproc_function_def" then n.field? "parameters" else none with
      | some p => do pure (some (← p.text? src))
      | none => pure none
    return some ⟨name, params, text, n⟩

/-- The query for definitions of a name, which stands in the query as it is. -/
def namedQuery (name : String) : String :=
  let pattern (kind : String) : String :=
    s!"({kind} name: (identifier) @name (#eq? @name \"{name}\")\n) @macro\n"
  "[" ++ pattern "preproc_def" ++ pattern "preproc_function_def" ++ "]"

def allQuery : String :=
  "[(preproc_def) @macro (preproc_function_def) @macro]"

/-- The nodes that a query captures as macros, in order. -/
def captured (src : Bytes) (root : Node) (query : String) : Except Failure (List Node) := do
  let hits ← (Query.search query src root).mapError .noAnswer
  return hits.flatMap (·.nodes "macro")

def ofNodes (src : Bytes) : List Node → Except Failure (List MacroDefinition)
  | [] => return []
  | n :: ns => do
    let here ← ofNode? src n
    return here.toList ++ (← ofNodes src ns)

def find? (src : Bytes) (root : Node) (name : String) : Except Failure (Option MacroDefinition) := do
  match (← captured src root (namedQuery name)).head? with
  | some n => ofNode? src n
  | none => return none

/-- All definitions, or those whose name starts with `start`. -/
def all (src : Bytes) (root : Node) (start : Option String) : Except Failure (List MacroDefinition) := do
  let found ← ofNodes src (← captured src root allQuery)
  return found.filter fun d => start.all (Text.startsWith d.name ·)

/-- The text and the lines of the first definition of a name. -/
def passageOf (src : Bytes) (root : Node) (name : String) : Except Failure Passage := do
  match ← find? src root name with
  | some d => return d.passage
  | none => throw (.noDefinition name)

end MacroDefinition

end Excerpt
