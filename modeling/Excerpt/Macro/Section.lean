import Excerpt.Macro.Use
import Excerpt.Marker.Section
import Excerpt.Text.Line

/-!
# Sections within macro uses

A use of a macro is chosen by its name and by conditions `argN` on its arguments. Sections within a use are
read with one section open at a time: an opening directive replaces the open section, and only the end of
the open section closes it. The lines of such a section include its directives.
-/

namespace Excerpt

namespace Marker

/-- The section open during a pass over comments, and those closed so far. -/
structure Single where
  closed : Sections
  current : Option (String × Int)
deriving Repr

/-- The text after the first `word`, without blanks around it, up to a second one. -/
def after (word text : String) : String :=
  Text.trim ((Text.split word text)[1]?.getD "")

namespace Single

/-- Nothing seen yet. -/
def start : Single := ⟨[], none⟩

/-- Takes in the text of a comment that stands on line `line`. A section without a name cannot be closed. -/
def step (s : Single) (line : Int) (text : String) : Single :=
  if Text.contains text Directive.opening then
    { s with current := some (after Directive.opening text, line) }
  else if Text.contains text Directive.closing then
    match s.current with
    | some (name, first) =>
      if !name.isEmpty && after Directive.closing text == name then
        ⟨s.closed.put name (first, line), none⟩
      else s
    | none => s
  else s

end Single

/-- The pass over comments. -/
def scanSingle (src : Bytes) (s : Single) : List Node → Except Failure Single
  | [] => return s
  | n :: ns => do
    let text ← n.text? src
    scanSingle src (s.step (n.startRow + 1) text) ns

/-- The sections within a node, their directives included, with one open at a time. -/
def singleSections (src : Bytes) (n : Node) : Except Failure Sections := do
  return (← scanSingle src .start n.comments).closed

end Marker

namespace MacroUse

/-- Conditions on the arguments of a use: names `argN` with values. Other names say nothing. -/
abbrev Conditions := Table String Value

/-- The place that the name of a condition speaks of. -/
def place? (key : String) : Except Failure (Option Int) :=
  if Text.startsWith key "arg" then
    match Text.int? (Text.drop 3 key) with
    | some n => .ok (some n)
    | none => .error (.notANumber (Text.drop 3 key))
  else .ok none

def meets (u : MacroUse) : Conditions → Except Failure Bool
  | [] => return true
  | (key, value) :: rest => do
    match ← place? key with
    | some n => if ← hasArgument n value u then u.meets rest else return false
    | none => u.meets rest

def meeting (conditions : Conditions) : List MacroUse → Except Failure (List MacroUse)
  | [] => return []
  | u :: us => do
    let here ← u.meets conditions
    return (if here then [u] else []) ++ (← meeting conditions us)

/-- The one use of a macro that meets the conditions, and the sections in it. -/
def sectioned (src : Bytes) (root : Node) (name : String) (conditions : Conditions) :
    Report (MacroUse × Sections) := do
  let uses ← named src root name
  match ← meeting conditions uses with
  | [] => Report.fail (.noMacro name)
  | [u] => do
    let sections ← Marker.singleSections src u.node
    return (u, sections)
  | _ => Report.fail .severalMacros

/-- Without the directives at the ends of the lines of a section. -/
def withoutDirectives (lines : List String) : List String :=
  let lines := if lines.head?.any (Text.contains · Directive.opening) then lines.drop 1 else lines
  if lines.getLast?.any (Text.contains · Directive.closing) then lines.dropLast else lines

/-- The text of a section of the one use of a macro that meets the conditions. -/
def sectionText (src : Bytes) (root : Node) (name marker : String) (conditions : Conditions) :
    Report String := do
  let (_, sections) ← sectioned src root name conditions
  match sections.get? marker with
  | none => Report.fail (.noMarkerInMacro marker sections.keys)
  | some (first, last) => do
    let text ← src.text?
    let lines := ((Text.lines text).take last.toNat).drop (first - 1).toNat
    return Text.join "\n" (withoutDirectives lines)

end MacroUse

end Excerpt
