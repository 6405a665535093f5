import Excerpt.Cpp.Name
import Excerpt.Passage
import Excerpt.Text.Blank

/-!
# Names in declarators

The declarator of a function may be wrapped in a pointer or a reference. Its name is a plain name, an
operator, a name with template arguments or a qualified name; a name that is not qualified lies in the
scope around the function.

There are two readings of a name. The full reading keeps template arguments, in the name and in its
qualifiers, and tells a part without a name apart. The plain reading drops template arguments in
qualifiers and gives no name to a template function.
-/

namespace Excerpt.Cpp

mutual

def functionDeclarator? : Node → Option Node
  | ⟨kind, span, children, fields⟩ =>
    if kind == "function_declarator" then some ⟨kind, span, children, fields⟩
    else if kind == "pointer_declarator" then
      match fields.lookup "declarator" with
      | some i => functionDeclaratorAt? i children
      | none => none
    else if kind == "reference_declarator" then
      children.find? (·.kind == "function_declarator")
    else none

/-- The function declarator within the child at a place. -/
def functionDeclaratorAt? (i : Nat) : List Node → Option Node
  | [] => none
  | n :: ns =>
    match i with
    | 0 => functionDeclarator? n
    | i + 1 => functionDeclaratorAt? i ns

end

def textsOf (src : Bytes) (kind : String) (n : Node) : Except Failure (List String) :=
  (n.children.filter (·.kind == kind)).mapM (·.text? src)

/-- The name of an operator: its keyword and its symbols. -/
def operatorName (src : Bytes) (n : Node) : Except Failure String := do
  return String.join (← n.children.mapM (·.text? src))

mutual

/-- The parts that a node adds in front of those of its neighbours to the right. A qualified name stands for
itself alone. -/
def qualifiedPart {α : Type} (src : Bytes) (plain : String → α)
    (template : Node → Except Failure (List α)) (after : Except Failure (List α)) :
    Node → Except Failure (List α)
  | ⟨kind, span, children, fields⟩ =>
    let n : Node := ⟨kind, span, children, fields⟩
    if kind == "namespace_identifier" || kind == "identifier" then do
      let text ← n.text? src
      return plain text :: (← after)
    else if kind == "template_type" then do
      let parts ← template n
      return parts ++ (← after)
    else if kind == "operator_name" then do
      let text ← operatorName src n
      return plain text :: (← after)
    else if kind == "qualified_identifier" then qualifiedParts src plain template children
    else after

/-- The parts of a qualified name, from left to right. `template` reads a part with template arguments. -/
def qualifiedParts {α : Type} (src : Bytes) (plain : String → α)
    (template : Node → Except Failure (List α)) : List Node → Except Failure (List α)
  | [] => .ok []
  | n :: ns => qualifiedPart src plain template (qualifiedParts src plain template ns) n

end

/-- A part that may lack a name. -/
abbrev Part := Option String

/-- The full name of a type with template arguments; none if the type has no name. -/
def templateType (src : Bytes) (n : Node) : Except Failure (List Part) := do
  let name := (← textsOf src "type_identifier" n).getLast?
  let args := ((← textsOf src "template_argument_list" n).getLast?).getD ""
  return [name.map fun name => if name.isEmpty then name else name ++ args]

/-- The plain name of a type with template arguments; nothing if the type has no name. -/
def plainTemplateType (src : Bytes) (n : Node) : Except Failure (List String) := do
  let name := (← textsOf src "type_identifier" n).getLast?
  return (name.filter (!·.isEmpty)).toList

/-- The name of a template function with its arguments. -/
def templateFunction (src : Bytes) (n : Node) : Except Failure String := do
  let names ← textsOf src "identifier" n
  let args ← textsOf src "template_argument_list" n
  match names.getLast?, args.getLast? with
  | some name, some args => return name ++ args
  | _, _ => throw .templateParts

/-- A name as a declarator gives it: the last part and the scope, which parts without a name may be in. -/
structure FullName where
  leaf : Part
  scope : List Part
deriving Repr, DecidableEq

/-- The full reading of a function declarator that stands in `scope`. -/
def fullName (src : Bytes) (scope : List String) (declarator : Node) : Except Failure FullName :=
  let here (leaf : Part) : FullName := ⟨leaf, scope.map some⟩
  match declarator.field? "declarator" with
  | some n =>
    if n.kind == "qualified_identifier" then do
      let parts ← qualifiedParts src some (templateType src) n.children
      return ⟨parts.getLast?.join, parts.dropLast⟩
    else if n.kind == "identifier" || n.kind == "field_identifier" then
      return here (← n.text? src)
    else if n.kind == "operator_name" then
      return here (← operatorName src n)
    else if n.kind == "template_function" then
      return here (← templateFunction src n)
    else return ⟨none, []⟩
  | none =>
    match declarator.childOf? ["field_identifier", "operator_name"] with
    | some n =>
      if n.kind == "field_identifier" then return here (← n.text? src)
      else return here (← operatorName src n)
    | none => return ⟨none, []⟩

/-- A name with its scope. -/
structure PlainName where
  leaf : String
  scope : List String
deriving Repr, DecidableEq

/-- The plain reading of a declarator that stands in `scope`. Without a function it names nothing. -/
def plainName (src : Bytes) (scope : List String) (declarator : Node) : Except Failure PlainName :=
  match (functionDeclarator? declarator).bind (·.field? "declarator") with
  | some n =>
    if n.kind == "qualified_identifier" then do
      let parts ← qualifiedParts src id (plainTemplateType src) n.children
      return ⟨parts.getLastD "", parts.dropLast⟩
    else if n.kind == "identifier" || n.kind == "field_identifier" then
      return ⟨← n.text? src, scope⟩
    else if n.kind == "operator_name" then
      return ⟨← operatorName src n, scope⟩
    else return ⟨"", []⟩
  | none => return ⟨"", []⟩

/-- The parameters of a function as they are written. -/
def parametersText (src : Bytes) (declarator : Node) : Except Failure String :=
  match declarator.field? "parameters" with
  | some params => params.text? src
  | none => return ""

/-- The parameter list of a function, of a declared member, or of the function in a template. -/
def signature (src : Bytes) (n : Node) : Except Failure String :=
  let target :=
    if n.kind == "template_declaration" then (n.childOf? ["function_definition"]).getD n else n
  if target.kind == "field_declaration" then
    match target.children.find? fun c =>
      c.kind == "function_declarator" && (c.field? "parameters").isSome with
    | some declarator => parametersText src declarator
    | none => return ""
  else
    match (target.field? "declarator").bind functionDeclarator? with
    | some declarator => parametersText src declarator
    | none => return ""

end Excerpt.Cpp
