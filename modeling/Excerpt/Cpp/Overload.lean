import Excerpt.Cpp.Scope

/-!
# All declarations of a function

Overloads are collected in the order of the source. Bodies of namespaces and classes are searched once,
with the scope they open; a class without a name is not searched. A template is given as a whole if it
declares the function, and is not searched further.
-/

namespace Excerpt.Cpp

/-- Whether a declarator in `scope` declares the target. A template function may also be named without
its arguments. -/
def declares (t : Target) (src : Bytes) (scope : List String) (template : Bool) (declarator : Node) :
    Except Failure Bool := do
  let name ← plainName src scope declarator
  return (name.leaf == t.leaf || (template && baseName name.leaf == t.leaf)) && t.fits name.scope

def templateHits (t : Target) (src : Bytes) (scope : List String) : List Node → Except Failure Nat
  | [] => return 0
  | n :: ns => do
    let hit ←
      match if n.kind == "function_definition" then n.field? "declarator" else none with
      | some declarator => declares t src scope true declarator
      | none => pure false
    return (if hit then 1 else 0) + (← templateHits t src scope ns)

/-- Whether a node declares the target as a function or a member function. -/
def isOverload (t : Target) (src : Bytes) (scope : List String) (n : Node) : Except Failure Bool :=
  match n.field? "declarator" with
  | none => return false
  | some declarator =>
    if n.kind == "function_definition" then declares t src scope false declarator
    else if n.kind == "field_declaration" && declarator.kind == "function_declarator" then
      declares t src scope false declarator
    else return false

mutual

/-- The declarations of the target in a tree that stands in `scope`; `functions` tells whether functions
are asked for at all. -/
def collect (functions : Bool) (t : Target) (src : Bytes) (scope : List String) :
    Node → Except Failure (List Node)
  | ⟨kind, span, children, fields⟩ =>
    let n : Node := ⟨kind, span, children, fields⟩
    if kind == "namespace_definition" then do
      let names ← namespaceNames src n
      match fields.lookup "body" with
      | some i => collectInBody functions t src (scope ++ names) i children
      | none => return []
    else if kind == "class_specifier" || kind == "struct_specifier" then do
      match (← recordName? src n).filter (!·.isEmpty) with
      | some name => collectInRecord functions t src (scope ++ [name]) children
      | none => return []
    else if kind == "template_declaration" then do
      return List.replicate (← templateHits t src scope children) n
    else do
      let hit ← if functions then isOverload t src scope n else pure false
      let inside ← collectAmong functions t src scope children
      return (if hit then [n] else []) ++ inside

def collectAmong (functions : Bool) (t : Target) (src : Bytes) (scope : List String) :
    List Node → Except Failure (List Node)
  | [] => return []
  | n :: ns => do
    let here ← collect functions t src scope n
    return here ++ (← collectAmong functions t src scope ns)

/-- The declarations in the body of a namespace, which is the child at a place. -/
def collectInBody (functions : Bool) (t : Target) (src : Bytes) (scope : List String) (i : Nat) :
    List Node → Except Failure (List Node)
  | [] => return []
  | ⟨kind, _, children, _⟩ :: ns =>
    match i with
    | 0 =>
      if kind == "declaration_list" then collectAmong functions t src scope children else return []
    | i + 1 => collectInBody functions t src scope i ns

/-- The declarations among the members of a class. -/
def collectInRecord (functions : Bool) (t : Target) (src : Bytes) (scope : List String) :
    List Node → Except Failure (List Node)
  | [] => return []
  | ⟨kind, _, children, _⟩ :: ns =>
    if kind == "field_declaration_list" then do
      let here ← collectAmong functions t src scope children
      return here ++ (← collectInRecord functions t src scope ns)
    else collectInRecord functions t src scope ns

end

/-- All nodes that declare a function of the name, if functions are among the kinds asked for. -/
def findAll (src : Bytes) (root : Node) (name : String) (kinds : List String) :
    Except Failure (List Node) :=
  collect (kinds.contains "function_definition") (.ofString name) src [] root

def overloads (src : Bytes) (root : Node) (name : String) : Except Failure (List Node) :=
  findAll src root name ["function_definition"]

end Excerpt.Cpp
