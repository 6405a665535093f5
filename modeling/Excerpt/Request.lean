import Excerpt.File.Path
import Excerpt.Macro.Section

/-!
# Requests

A request says which part of a source is wanted. What a request means depends on the language of the
source, which is told from the suffix of its path.
-/

namespace Excerpt

/-- The languages that sources are written in. -/
inductive Language where
  | cpp
  | proto
  /-- Any text: only lines and marked sections can be taken from it. -/
  | plain
deriving Repr, DecidableEq

namespace Language

def ofPath (p : Path) : Except Failure Language :=
  if !Failure.suffixes.contains p.kind then .error (.noExtractor p.kind)
  else if p.kind == ".proto" then .ok proto
  else .ok cpp

end Language

/-- A description of a macro use: its name and conditions on its arguments. -/
abbrev MacroSpec := Table String Value

namespace MacroSpec

/-- The name of the macro, which has to be given. -/
def name (spec : MacroSpec) : Except Failure String :=
  match Table.get? spec "name" with
  | some v => if v.isGiven then .ok v.display else .error .unnamedMacro
  | none => .error .unnamedMacro

def conditions (spec : MacroSpec) : MacroUse.Conditions :=
  spec.filter fun (key, _) => Text.startsWith key "arg"

/-- All that is said besides the name. -/
def rest (spec : MacroSpec) : List String :=
  (spec.filter fun (key, _) => key != "name").map fun (key, v) => key ++ "=" ++ v.display

end MacroSpec

/-- The words for a thing that is looked up by its name among classes and variables. -/
inductive RecordKind where
  | record
  | value
deriving Repr, DecidableEq

/-- A part of a source. -/
inductive Request where
  | lines (first last : Int)
  | marked (marker : String)
  | function (name : String)
  /-- The overload of a function with a part of its parameters, if that is given. -/
  | overload (name : String) (part : Option String)
  | functionSection (name marker : String)
  | macroUse (spec : MacroSpec)
  | macroSection (spec : MacroSpec) (marker : String)
  | macroDefinition (name : String)
  | record (kind : RecordKind) (name : String)
  | recordSection (kind : RecordKind) (name marker : String)
  | proto (kind : ProtoKind) (name : String)
  | messageSection (name marker : String)

end Excerpt
