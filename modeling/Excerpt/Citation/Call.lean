import Excerpt.Citation.Basic

/-!
# Calls

A document asks for code by a call with values, in order or under names. Each value goes to one parameter;
values that go nowhere, parameters that are met twice and parameters left without a value are errors.
-/

namespace Excerpt

/-- What can be called: its name in messages, its parameters, and how many of them need a value. -/
structure Signature where
  title : String
  parameters : List String
  required : Nat
  /-- How many values it is given besides those of the call. -/
  implicit : Nat := 0

/-- Values in order and under names. -/
structure Arguments where
  inOrder : List Value
  named : Table String Value

/-- Why a call cannot be made. -/
inductive CallError where
  | unexpected (title name : String)
  | repeated (title name : String)
  | tooMany (title : String) (least most given : Nat)
  | missing (title : String) (names : List String)
  /-- The path of a citation is no text. -/
  | noPath
  /-- The path of an omission is a value of this type, and no text. -/
  | notAPath (type : String)
  /-- A value of this type has no such operation. -/
  | noOperation (type name : String)
  /-- A value of this type cannot follow a text. -/
  | notJoinable (type : String)
  | notCallable (type : String)
deriving Repr, DecidableEq

namespace CallError

/-- Names in quotes, with a comma and a word before the last one. -/
def enumeration : List String → String
  | [] => ""
  | [a] => a
  | [a, b] => a ++ " and " ++ b
  | names => Text.join ", " names.dropLast ++ ", and " ++ names.getLastD ""

/-- The words for a call that cannot be made. -/
def message : CallError → String
  | unexpected title name => s!"{title}() got an unexpected keyword argument '{name}'"
  | repeated title name => s!"{title}() got multiple values for argument '{name}'"
  | tooMany title least most given =>
    let takes :=
      if least == most then s!"{most} positional argument" ++ (if most == 1 then "" else "s")
      else s!"from {least} to {most} positional arguments"
    let verb := if given == 1 then "was" else "were"
    s!"{title}() takes {takes} but {given} {verb} given"
  | missing title names =>
    let plural := if names.length == 1 then "" else "s"
    s!"{title}() missing {names.length} required positional argument{plural}: " ++
      enumeration (names.map fun n => s!"'{n}'")
  | noPath => "cannot access local variable 'resolved_path' where it is not associated with a value"
  | notAPath type => s!"expected str, bytes or os.PathLike object, not {type}"
  | noOperation type name => s!"'{type}' object has no attribute '{name}'"
  | notJoinable type => s!"can only concatenate str (not \"{type}\") to str"
  | notCallable type => s!"'{type}' object is not callable"

end CallError

namespace Signature

/-- Gives values under names to parameters. -/
def bindNamed (s : Signature) (bound : Table String Value) :
    Table String Value → Except CallError (Table String Value)
  | [] => .ok bound
  | (name, v) :: rest =>
    if !s.parameters.contains name then .error (.unexpected s.title name)
    else if (bound.get? name).isSome then .error (.repeated s.title name)
    else s.bindNamed (bound.put name v) rest

def bind (s : Signature) (a : Arguments) : Except CallError (Table String Value) := do
  let bound ← s.bindNamed (s.parameters.zip a.inOrder) a.named
  if s.parameters.length < a.inOrder.length then
    throw (.tooMany s.title (s.required + s.implicit) (s.parameters.length + s.implicit)
      (a.inOrder.length + s.implicit))
  match (s.parameters.take s.required).filter fun p => (bound.get? p).isNone with
  | [] => return bound
  | names => throw (.missing s.title names)

end Signature

namespace Citation

def signature : Signature where
  title := "TemplateRenderer._code_function"
  parameters := ["file_path", "function", "struct", "var", "function_macro", "macro_definition", "lines",
    "marker", "signature", "message", "enum", "service", "github", "blame", "line_numbers", "language"]
  required := 1
  implicit := 1

def omissionSignature : Signature where
  title := "TemplateRenderer._ignore_changes_function"
  parameters := ["file_path", "function", "struct", "var", "function_macro", "macro_definition", "lines",
    "marker"]
  required := 1
  implicit := 1

def selectionOf (bound : Table String Value) : Selection :=
  let text (name : String) : Option String := (bound.get? name).bind Value.text?
  let value (name : String) : Option Value := (bound.get? name).filter Value.isGiven
  { function := text "function"
    record := text "struct"
    value := text "var"
    macroUse := value "function_macro"
    macroDefinition := text "macro_definition"
    lines := value "lines"
    marker := text "marker"
    signature := match bound.get? "signature" with
      | some .none => none
      | v => v.map Value.display
    message := text "message"
    enum := text "enum"
    service := text "service" }

def ofArguments (a : Arguments) : Except CallError Citation := do
  let bound ← signature.bind a
  let flag (name : String) (default : Bool) : Bool := ((bound.get? name).map Value.isGiven).getD default
  match bound.get? "file_path" with
  | some (.text path) =>
    return {
      path := path
      selection := selectionOf bound
      link := flag "github" true
      blame := flag "blame" false
      numbered := flag "line_numbers" true
      language := (bound.get? "language").bind Value.text? }
  | _ => throw .noPath

def omissionOf (a : Arguments) : Except CallError (Value × Selection) := do
  let bound ← omissionSignature.bind a
  return ((bound.get? "file_path").getD .none, selectionOf bound)

end Citation

end Excerpt
