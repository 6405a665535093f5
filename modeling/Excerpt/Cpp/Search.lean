import Excerpt.Cpp.Lookup
import Excerpt.Cpp.Overload
import Excerpt.Report

/-!
# Definitions by name

A function is asked for by its name, and by a part of its parameter list where several have the name. A
class, an enumeration or a variable is asked for by its name alone.
-/

namespace Excerpt.Cpp

def definition? (src : Bytes) (name : String) (n : Option Node) : Except Failure (Option Definition) :=
  match n with
  | some n => do return some (← n.definition src name)
  | none => return none

/-- The overloads whose parameters hold the text `part`. -/
def withSignature (src : Bytes) (part : String) (ns : List Node) : Except Failure (List Node) := do
  let sigs ← ns.mapM (signature src)
  return ((ns.zip sigs).filter fun (_, s) => Text.contains s part).map (·.1)

/-- The first overload whose parameters hold the text `part`. It is noted if there is none or if there
are several. -/
def overloadWith (src : Bytes) (root : Node) (name part : String) : Report (Option Definition) := do
  let nodes ← overloads src root name
  if nodes.isEmpty then return none
  let fitting ← withSignature src part nodes
  match fitting with
  | [] => do
    let available ← nodes.mapM fun n => (signature src n : Except Failure String)
    Report.note .warning
      (s!"No overload of '{name}' matches signature '{part}'. Available: " ++ Text.quotedList available)
    return none
  | [n] => return some (← n.definition src name)
  | n :: more => do
    let sigs ← (n :: more).mapM fun n => (signature src n : Except Failure String)
    Report.note .warning
      (s!"Multiple overloads of '{name}' match signature '{part}': " ++ Text.quotedList sigs)
    return some (← n.definition src name)

/-- The function of a name; `part`, if given, has to stand in its parameters. -/
def function (src : Bytes) (root : Node) (name : String) (part : Option String) :
    Report (Option Definition) :=
  match part with
  | none => do
    let n ← find src root name ["function_definition"]
    definition? src name n
  | some part => overloadWith src root name part

/-- The class, enumeration or variable of a name. -/
def record (src : Bytes) (root : Node) (name : String) : Except Failure (Option Definition) := do
  let n ← find src root name ["class_specifier", "struct_specifier", "enum_specifier", "declaration"]
  definition? src name n

end Excerpt.Cpp
