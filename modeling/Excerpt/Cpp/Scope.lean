import Excerpt.Cpp.Declarator

/-!
# Names of scopes and variables

Namespaces and classes open scopes. A namespace may open several at once (`a::b`), and one without a name
opens none; a class without a name opens none either.
-/

namespace Excerpt.Cpp

def scopeNames (name : String) : List String :=
  let name :=
    if Text.endsWith name "::" then String.ofList (Text.trimEndBy (· == ':') name.toList) else name
  if Text.contains name "::" then Text.split "::" name
  else if name.isEmpty then []
  else [name]

def namespaceNames (src : Bytes) (n : Node) : Except Failure (List String) :=
  match n.field? "name" with
  | some name => do return scopeNames (← name.text? src)
  | none => return []

def recordName? (src : Bytes) (n : Node) : Except Failure (Option String) :=
  match n.childOf? ["type_identifier"] with
  | some name => do return some (← name.text? src)
  | none => return none

/-- The name of the first identifier among nodes, if it is not empty. -/
def identifierName? (src : Bytes) (ns : List Node) : Except Failure (Option String) :=
  match ns.find? (·.kind == "identifier") with
  | some n => do
    let name ← n.text? src
    return if name.isEmpty then none else some name
  | none => return none

/-- The name of a variable among the parts of its declarator: an identifier, or an identifier within an
array or a pointer. -/
def declaredVariable? (src : Bytes) : List Node → Except Failure (Option String)
  | [] => return none
  | n :: ns =>
    if n.kind == "identifier" then identifierName? src [n]
    else if n.kind == "array_declarator" || n.kind == "pointer_declarator" then do
      match ← identifierName? src n.children with
      | some name => return some name
      | none => declaredVariable? src ns
    else declaredVariable? src ns

/-- The name of the variable that a declaration declares. -/
def variableName? (src : Bytes) (n : Node) : Except Failure (Option String) :=
  match n.childOf? ["init_declarator"] with
  | some d => declaredVariable? src d.children
  | none => return none

end Excerpt.Cpp
