import Excerpt.Grammar.List
import Excerpt.Grammar.Name
import Excerpt.Grammar.Statement

/-!
# Declarations

Two names in a row declare the second one: a function if a parenthesis follows, a variable otherwise.
One name with a parenthesis is a call, or a function if a block follows. Anything else is a plain
statement. A function whose block comes next is given as its declarator alone; the block is read by
the caller.
-/

namespace Excerpt

/-- A declaration or an expression, up to a block that may follow. -/
inductive Declaration where
  /-- A function whose block comes next. -/
  | function (declarator : Node)
  /-- A complete node. -/
  | whole (node : Node)
deriving Repr, BEq

namespace Grammar

def isMark (t : Token) : Bool :=
  t.spelledIn ["*", "&"]

/-- The declarator around a function: a star before the name makes it a pointer, else an ampersand makes
it a reference. -/
def wrapDeclarator (marks : List Token) (function : Node) : Node :=
  if marks.any (·.spelled "*") then .spanning "pointer_declarator" function [] [("declarator", 0)]
  else if marks.any (·.spelled "&") then .spanning "reference_declarator" function [] []
  else function

/-- Brackets after a name: the token that ends them, if there are any. -/
def brackets : (ts : List Token) → Reading (Option Token) ts
  | [] => .stay none []
  | t :: ts =>
    if t.spelled "[" then
      let r := (Reading.stay () ts).skipTo (·.spelled "]")
      let close := (r.rest.head?.filter (·.spelled "]")).getD t
      ((r.withValue (some close)).skip "]").push t
    else .stay none (t :: ts)

/-- The name of a variable within its declarator. Brackets after the name come before a star in front of
it, and only the end offset of an array is moved to its bracket. -/
def variableDeclarator (marks : List Token) (bracket : Option Token) (name : Node) : Node :=
  match bracket with
  | some close =>
    let array := Node.spanning "array_declarator" name [] []
    { array with span := { array.span with stop := close.stop } }
  | none =>
    if marks.any (·.spelled "*") then .spanning "pointer_declarator" name [] [] else name

/-- The declaration of a variable that starts with the token `first`. -/
def variableNode (first : Token) (declarator : Node) : Node :=
  .startingAt first (.spanning "declaration" (.spanning "init_declarator" declarator [] []) [] [])

/-- The tokens after the declarator of a variable: past its initialiser and its semicolon. -/
def afterVariable : (ts : List Token) → Reading Unit ts
  | [] => .stay () []
  | t :: ts =>
    if t.spelled "=" then ((afterInitialiser 0 ts).skip ";").push t
    else (Reading.stay () (t :: ts)).skip ";"

/-- A function declarator from its name and its parameters. -/
def functionDeclarator (name params : Node) : Node :=
  .spanning "function_declarator" name [params] [("declarator", 0), ("parameters", 1)]

/-- The declaration of a function without a body that starts with the token `first`. -/
def prototypeNode (first : Token) (function : Node) : Node :=
  .startingAt first (.spanning "field_declaration" function [] [("declarator", 0)])

def callNode (callee args : Node) : Node :=
  .spanning "expression_statement"
    (.spanning "call_expression" callee [args] [("function", 0), ("arguments", 1)]) [] []

/-- The function named by `part` and `more`, after its opening parenthesis. What stands between the
parameters and the body, or the semicolon, is passed over. The name on its own within a class is the name
of a member. -/
def declaredFunction (inClass : Bool) (first : Token) (marks : List Token) (part : NamePart)
    (more : List NamePart) (opening : Token) (ts : List Token) : Reading Declaration ts :=
  let name := nameNode (if inClass then "field_identifier" else "identifier") part more
  let params := parenthesised "parameter_list" "parameter_declaration" opening ts
  let function := functionDeclarator name params.value
  let r := params.skipTo (·.spelledIn ["\x7b", ";"])
  if Tokens.at? "\x7b" r.rest then r.withValue (.function (wrapDeclarator marks function))
  else (r.withValue (.whole (prototypeNode first function))).skip ";"

/-- The declaration of the name `part` and `more`, which has just been read. -/
def declared (inClass : Bool) (first : Token) (marks : List Token) (part : NamePart)
    (more : List NamePart) (ts : List Token) : Reading Declaration ts :=
  match brackets ts with
  | ⟨bracket, rest, hle⟩ =>
    if Tokens.at? "(" rest then
      match rest, hle with
      | [], _ => .whole (.whole (variableNode first (nameNode "identifier" part more))) ts
      | opening :: rest, h =>
        (declaredFunction inClass first marks part more opening rest).within (Tokens.length_rest_le h)
    else
      let after := afterVariable rest
      (after.withValue (.whole (variableNode first
        (variableDeclarator marks bracket (nameNode "identifier" part more))))).within hle

/-- The call of the name `part` and `more`, after its opening parenthesis; a function if a block follows. -/
def called (part : NamePart) (more : List NamePart) (opening : Token) (ts : List Token) :
    Reading Declaration ts :=
  let callee := nameNode "identifier" part more
  let args := parenthesised "argument_list" "argument" opening ts
  if Tokens.at? "\x7b" args.rest then
    args.withValue (.function (functionDeclarator callee (asParameters args.value)))
  else (args.withValue (.whole (callNode callee args.value))).skip ";"

/-- The declaration, expression or statement that starts with the token `first`. -/
def declaration (inClass : Bool) (first : Token) (ts : List Token) : Reading Declaration (first :: ts) :=
  let head := nameParts (first :: ts)
  let marks := head.rest.takeWhile isMark
  let after := head.skipWhile isMark
  let statement : Reading Declaration (first :: ts) :=
    let r := plain first ts
    (r.withValue (.whole r.value)).push first
  match nameParts after.rest with
  | ⟨part :: more, rest, h⟩ => ((declared inClass first marks part more rest).within h).within after.le
  | ⟨[], _, _⟩ =>
    match after with
    | ⟨part :: more, opening :: rest, h⟩ =>
      if opening.spelled "(" then (called part more opening rest).within (Tokens.length_rest_le h)
      else statement
    | _ => statement

end Grammar

end Excerpt
