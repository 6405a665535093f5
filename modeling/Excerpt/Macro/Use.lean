import Excerpt.Passage
import Excerpt.Query.Search
import Excerpt.Value

/-!
# Uses of macros

A use of a macro looks like a call, or like a function without a result type. Its arguments are those of
the call, or the last words of the parameters.
-/

namespace Excerpt

/-- A use of a macro. -/
structure MacroUse where
  name : String
  arguments : List String
  text : String
  node : Node

namespace MacroUse

/-- Whether the use defines a function. -/
def isDefinition (u : MacroUse) : Bool :=
  u.node.kind == "function_definition"

def line (u : MacroUse) : Nat :=
  u.node.startRow + 1

/-- The arguments of a parameter list: the last word of each parameter. -/
def parameterArguments (src : Bytes) : List Node → Except Failure (List String)
  | [] => return []
  | n :: ns => do
    let here ←
      if n.kind == "parameter_declaration" then do
        pure (Text.words (← n.text? src)).getLast?.toList
      else if ["(", ")", ","].contains n.kind then pure []
      else do pure [Text.trim (← n.text? src)]
    return here ++ (← parameterArguments src ns)

/-- The arguments of an argument list. `current` holds the texts since the last comma; an argument without
any is left out. -/
def callArguments (src : Bytes) (current : List String) : List Node → Except Failure (List String)
  | [] => return []
  | n :: ns =>
    if n.kind == "(" then callArguments src current ns
    else if n.kind == "," then do
      return closed ++ (← callArguments src [] ns)
    else if n.kind == ")" then do
      return closed ++ (← callArguments src current ns)
    else do
      let text ← n.text? src
      callArguments src (current ++ [text]) ns
where
  closed : List String := if current.isEmpty then [] else [Text.trim (String.join current)]

def argumentsOf (src : Bytes) : Option Node → Except Failure (List String)
  | none => return []
  | some n =>
    if n.kind == "parameter_list" then parameterArguments src n.children
    else if n.kind == "argument_list" then callArguments src [] n.children
    else return []

/-- A text up to its first brace, if that is not its first character. -/
def beforeBrace (text : String) : String :=
  let lead := text.toList.takeWhile (· != '\x7b')
  if lead.isEmpty || lead.length == text.toList.length then text else Text.trim (String.ofList lead)

/-- The text of a use; a definition is cut before its body. -/
def textOf (src : Bytes) (n : Node) : Except Failure String := do
  let text ← n.text? src
  return if n.kind == "function_definition" then beforeBrace text else text

/-- The node that names a use, and the one that lists its arguments. -/
def parts? (n : Node) : Option (Node × Option Node) :=
  if n.kind == "call_expression" then
    (n.field? "function").map fun f => (f, n.field? "arguments")
  else if n.kind == "function_definition" then
    match n.field? "declarator" with
    | some d =>
      if d.kind == "function_declarator" then
        (d.field? "declarator").map fun f => (f, d.field? "parameters")
      else none
    | none => none
  else none

/-- The use made of its node, the node that lists its arguments and the node that names it. Without the
latter, the name is looked up in the use. -/
def ofNodes (src : Bytes) (n : Node) (args name : Option Node) : Except Failure MacroUse := do
  let name ←
    match name <|> (parts? n).map (·.1) with
    | some name => name.text? src
    | none => pure ""
  return ⟨name, ← argumentsOf src args, ← textOf src n, n⟩

/-- The query for uses whose name passes `test`. The value of the test stands in the query as it is; a line
feed after it ends a comment that the value may open. -/
def query (test value : String) : String :=
  let named := s!"(identifier) @macro_name ({test} @macro_name \"{value}\")\n"
  s!"[((call_expression function: {named}arguments: (argument_list) @args) @macro_usage)\n" ++
    s!"((function_definition declarator: (function_declarator declarator: {named}" ++
    "parameters: (parameter_list) @args)) @macro_usage)]"

def ofMatch? (src : Bytes) (m : Query.Match) : Except Failure (Option MacroUse) :=
  match (m.nodes "macro_usage").head?, (m.nodes "args").head? with
  | some n, some args => do
    return some (← ofNodes src n (some args) (m.nodes "macro_name").head?)
  | _, _ => return none

/-- The uses that matches capture and that `keep` keeps. -/
def ofMatches (src : Bytes) (keep : MacroUse → Except Failure Bool) :
    List Query.Match → Except Failure (List MacroUse)
  | [] => return []
  | m :: ms => do
    let here ←
      match ← ofMatch? src m with
      | some u => do
        if ← keep u then pure [u] else pure []
      | none => pure []
    return here ++ (← ofMatches src keep ms)

/-- The uses that a query finds and `keep` keeps. Whatever goes wrong is noted as a failed query, which
finds nothing. -/
def searched (src : Bytes) (root : Node) (text : String) (keep : MacroUse → Except Failure Bool) :
    Report (List MacroUse) :=
  let found : Except Failure (List MacroUse) := do
    let hits ← (Query.search text src root).mapError .noAnswer
    ofMatches src keep hits
  match found with
  | .ok uses => return uses
  | .error _ => do
    Report.note .error "Query failed"
    return []

/-- The uses of the macro called `name`. -/
def named (src : Bytes) (root : Node) (name : String) : Report (List MacroUse) :=
  searched src root (query "#eq?" name) fun _ => .ok true

/-- The uses of macros whose name a regular expression occurs in. -/
def matching (src : Bytes) (root : Node) (expression : String) : Report (List MacroUse) :=
  searched src root (query "#match?" expression) fun _ => .ok true

/-- The argument at a place; places below zero count from the end, and one beyond it is an error. -/
def argumentAt? (args : List String) (place : Int) : Except Failure (Option String) :=
  if args.length ≤ place then .ok none
  else if 0 ≤ place then .ok args[place.toNat]?
  else
    match args[(args.length + place).toNat]? with
    | some a => if 0 ≤ args.length + place then .ok (some a) else .error .noSuchPlace
    | none => .error .noSuchPlace

def hasArgument (place : Int) (value : Value) (u : MacroUse) : Except Failure Bool := do
  return (← argumentAt? u.arguments place).any fun a => value.isText (Text.trim a)

/-- The uses of a macro whose argument at a place has a value. -/
def withArgument (src : Bytes) (root : Node) (name : String) (place : Int) (value : String) :
    Report (List MacroUse) :=
  searched src root (query "#eq?" name) (hasArgument place (.text value))

/-- The expression that the names match, each as a whole. -/
def oneOfExpression (names : List String) : String :=
  Text.join "|" (names.map fun name => "^" ++ name ++ "$")

/-- The uses of macros with one of the names, found by one query. -/
def oneOf (src : Bytes) (root : Node) (names : List String) : Report (List MacroUse) :=
  matching src root (oneOfExpression names)

/-- The use that a node is, if its name is one of the names. -/
def atNode? (src : Bytes) (names : List String) (n : Node) : Except Failure (Option MacroUse) :=
  match parts? n with
  | some (name, args) =>
    if name.kind == "identifier" then do
      if names.contains (← name.text? src) then return some (← ofNodes src n args (some name))
      else return none
    else return none
  | none => return none

def atNodes (src : Bytes) (names : List String) : List Node → Except Failure (List MacroUse)
  | [] => return []
  | n :: ns => do
    let here ← atNode? src names n
    return here.toList ++ (← atNodes src names ns)

/-- The uses of macros with one of the names, found by walking the tree. -/
def walked (src : Bytes) (root : Node) (names : List String) : Except Failure (List MacroUse) :=
  atNodes src names root.preorder

end MacroUse

end Excerpt
