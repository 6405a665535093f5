import Excerpt.Grammar.Reading

/-!
# Names

A qualified name is a chain of parts joined by `::`. A part is a plain name, a name with template
arguments, or `operator` followed by its symbols, which ends the chain. The chain becomes a node that
nests to the right: `a::b::c` is `a` and `b::c`.
-/

namespace Excerpt

/-- A part of a qualified name. -/
inductive NamePart where
  | plain (node : Node)
  | special (node : Node)
deriving Repr, BEq

namespace NamePart

def node : NamePart → Node
  | plain n => n
  | special n => n

/-- The node of a part that has further parts after it: a plain name is then a namespace. -/
def qualifier : NamePart → Node
  | plain n => n.relabel "namespace_identifier"
  | special n => n

end NamePart

namespace Grammar

/-- Whether a token belongs to the symbols after `operator`. -/
def isOperatorSymbol (t : Token) : Bool :=
  t.kind == .operator && !t.spelledIn ["(", "\x7b", ";", ","]

/-- The part `operator …` whose keyword is `t`. -/
def operatorPart (t : Token) (ts : List Token) : NamePart :=
  .special (.spanning "operator_name" (.leaf "operator" t)
    ((ts.takeWhile isOperatorSymbol).map fun s => .leaf (Utf8.decodeLossy s.text) s) [])

/-- The part made of the word `t` and the template arguments `a`. Before a parenthesis it is a function,
elsewhere a type. -/
def templatePart (t a : Token) (call : Bool) : NamePart :=
  let args : Node := .leaf "template_argument_list" a
  if call then .special (.spanning "template_function" (.leaf "identifier" t) [args] [])
  else .special (.spanning "template_type" (.leaf "type_identifier" t) [args] [])

/-- The parts of the qualified name at the front of the tokens; none if no word stands there. -/
def nameParts : (ts : List Token) → Reading (List NamePart) ts
  | [] => .stay [] []
  | t :: ts =>
    if t.kind != .word then .stay [] (t :: ts)
    else if t.spelled "operator" then
      ((Reading.stay [operatorPart t ts] ts).skipWhile isOperatorSymbol).push t
    else
      let name : NamePart := .plain (.leaf "identifier" t)
      match ts with
      | [] => .past [name] t []
      | a :: ts =>
        if a.kind == .angled then
          let part := templatePart t a (Tokens.at? "(" ts)
          match ts with
          | [] => .push t (.past [part] a [])
          | s :: ts =>
            if s.spelled "::" then
              let more := nameParts ts
              (((more.withValue (part :: more.value)).push s).push a).push t
            else .push t (.past [part] a (s :: ts))
        else if a.spelled "::" then
          let more := nameParts ts
          ((more.withValue (name :: more.value)).push a).push t
        else .past [name] t (a :: ts)

/-- The node of a chain of parts that starts with `part`. -/
def nameChain (part : NamePart) : List NamePart → Node
  | [] => part.node
  | next :: more => .spanning "qualified_identifier" part.qualifier [nameChain next more] []

/-- The node of a name whose last component, when it stands alone and is plain, has the kind `kind`. -/
def nameNode (kind : String) : NamePart → List NamePart → Node
  | .plain n, [] => n.relabel kind
  | part, more => nameChain part more

end Grammar

end Excerpt
