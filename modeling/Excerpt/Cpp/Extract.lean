import Excerpt.Cpp.QuerySearch
import Excerpt.Cpp.Search
import Excerpt.Macro.Define
import Excerpt.Request
import Excerpt.Source

/-!
# Code from a C++ source

Each kind of request has its own way to the code, and its own words for what is not there.
-/

namespace Excerpt.Cpp

/-- Runs `f` on the bytes and the tree of a source. -/
def onTree {α : Type} (s : Source) (f : Bytes → Node → Report α) : Report α := do
  let src ← s.content
  let root ← s.tree
  f src root

/-- The overload of a function with a part of its parameters, if that is given. -/
def functionPassage (s : Source) (name : String) (part : Option String) : Report Passage :=
  onTree s fun src root => do
    match ← function src root name part with
    | some d => return d.passage
    | none =>
      match part.filter (!·.isEmpty) with
      | some part => Report.fail (.noOverload name part s.path.toString)
      | none => Report.fail (.noFunction name s.path.toString)

/-- The class, enumeration or variable of a name. -/
def recordPassage (s : Source) (name : String) : Report Passage :=
  onTree s fun src root => do
    match ← record src root name with
    | some d => return d.passage
    | none => Report.fail (.noRecord name s.path.toString)

/-- The marked section of a node; `place` says in words what the node is. -/
def nodeSection (s : Source) (src : Bytes) (n : Node) (marker place : String) : Report Passage := do
  let sections ← Marker.sections src n
  match sections.get? marker with
  | none => Report.fail (.noMarkerIn marker place sections.keys)
  | some (first, last) => do
    let lines ← s.lines
    return Passage.ofLines lines first last

/-- The marked section of a passage whose first line has number `first`, read on its own. -/
def textSection (text : String) (first : Int) (marker place : String) : Report Passage := do
  let src := Bytes.ofString text
  let root ← (Node.parse src).mapError Failure.noTree
  let sections ← Marker.sections src root
  match sections.get? marker with
  | none => Report.fail (.noMarkerIn marker place sections.keys)
  | some (a, b) =>
    return { Passage.ofLines (Text.lines text) a b with first := first + a - 1, last := first + b - 1 }

/-- The section of the first of some overloads that has it; `count` is the number of all overloads. -/
def sectionAmong (s : Source) (src : Bytes) (name marker : String) (count : Nat) :
    List Node → Report Passage
  | [] => Report.fail (.noMarkerInOverloads marker name count)
  | n :: ns => do
    let _ ← n.text? src
    let sections ← Marker.sections src n
    if (sections.get? marker).isSome then nodeSection s src n marker s!"function '{name}'"
    else sectionAmong s src name marker count ns

/-- A marked section of a function. All overloads are looked at. -/
def functionSection (s : Source) (name marker : String) : Report Passage :=
  onTree s fun src root => do
    match ← findAll src root name ["function_definition"] with
    | [] => Report.fail (.noFunction name s.path.toString)
    | ns => sectionAmong s src name marker ns.length ns

/-- A marked section of a class, enumeration or variable. -/
def recordSection (s : Source) (name marker : String) : Report Passage :=
  onTree s fun src root => do
    match ← record src root name with
    | some d => nodeSection s src d.node marker s!"'{name}'"
    | none => Report.fail (.noRecordOrVariable name s.path.toString)

/-- The uses that pass one condition. -/
def passing (place : Int) (value : Value) : List MacroUse → Except Failure (List MacroUse)
  | [] => return []
  | u :: us => do
    let here ← MacroUse.hasArgument place value u
    return (if here then [u] else []) ++ (← passing place value us)

/-- The uses left after each condition in turn. -/
def narrowed (uses : List MacroUse) : MacroUse.Conditions → Except Failure (List MacroUse)
  | [] => return uses
  | (key, value) :: rest => do
    match ← MacroUse.place? key with
    | some place => narrowed (← passing place value uses) rest
    | none => narrowed uses rest

/-- The one use of a macro that a description fits, with its body. -/
def macroPassage (s : Source) (spec : MacroSpec) : Report Passage := do
  let src ← s.content
  let name ← spec.name
  let root ← s.tree
  let uses ← MacroUse.named src root name
  match ← narrowed uses spec with
  | [] => Report.fail (.noMacroWith name spec.rest)
  | [u] => do
    let text ← u.node.text? src
    return ⟨text, u.line, u.line + text.toList.count '\n'⟩
  | several => Report.fail (.severalMacrosAt name (several.map (·.line)))

/-- A marked section of the one use of a macro that a description fits. -/
def macroSection (s : Source) (spec : MacroSpec) (marker : String) : Report Passage := do
  let src ← s.content
  let name ← spec.name
  let root ← s.tree
  let text ← MacroUse.sectionText src root name marker spec.conditions
  let (_, sections) ← MacroUse.sectioned src root name spec.conditions
  match sections.get? marker with
  | some (first, last) => return ⟨text, first, last⟩
  | none => Report.fail (.noMarkerInMacro marker sections.keys)

/-- The query for a class or a namespace, whose name stands in it as it is. -/
def scopeQuery (name : String) : String :=
  let classTest := calledTest "class_name" name
  let spaceTest := calledTest "ns_name" name
  s!"[((class_specifier name: (type_identifier) {classTest}) @class)" ++
    s!"((namespace_definition name: (identifier) {spaceTest}) @namespace)]"

/-- The class or namespace of a name. Whatever goes wrong is noted as a failed query. -/
def scope (s : Source) (name : String) : Report (Option Node) :=
  onTree s fun src root =>
    match Query.search (scopeQuery name) src root with
    | .error _ => do
      Report.note .error "Query failed"
      return none
    | .ok found =>
      return found.findSome? fun m => (m.nodes "class").head? <|> (m.nodes "namespace").head?

end Excerpt.Cpp
