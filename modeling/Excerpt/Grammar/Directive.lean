import Excerpt.Grammar.Reading

/-!
# Directives

A definition `#define` has a name, a parameter list if an opening parenthesis follows the name
at once, and runs to the end of its line, where a backslash before the line feed continues the line. Of
any other directive only the keyword becomes a node, and the rest of its line is passed over.
-/

namespace Excerpt.Grammar

/-- How many bytes remain of a definition, its line feed included. -/
def definitionLength : Bytes → Nat
  | [] => 0
  | 92 :: 10 :: bs => definitionLength bs + 2
  | 10 :: _ => 1
  | _ :: bs => definitionLength bs + 1

/-- The node of a token in a parameter list: a word is an identifier, anything else is its own kind. -/
def parameterNode (t : Token) : Except ParseError Node :=
  if t.kind == .word then .ok (.leaf "identifier" t)
  else
    match Utf8.decode t.text with
    | .ok kind => .ok (.leaf kind t)
    | .error e => .error (.notText e)

/-- The parameters of a definition whose name ends at `nameStop`, if a parenthesis follows at once. The
closing token is taken whatever it is. -/
def definitionParameters (nameStop : Nat) : (ts : List Token) → Outcome (Option Node) ts
  | [] => .ok (.stay none [])
  | t :: ts =>
    if t.spelled "(" && t.start == nameStop then do
      let inner ← (Tokens.before (·.spelled ")") ts).mapM parameterNode
      match (Reading.stay () ts).skipTo (·.spelled ")") with
      | ⟨_, [], _⟩ => .error .pastEnd
      | ⟨_, closing :: rest, h⟩ =>
        let params : Node := .spanning "preproc_params" (.leaf "(" t) (inner ++ [.leaf ")" closing]) []
        return .push t ⟨some params, rest, Tokens.length_rest_le h⟩
    else .ok (.stay none (t :: ts))

/-- A definition whose keyword is `t`. -/
def definition (src : Bytes) (t : Token) : (ts : List Token) → Outcome Node ts
  | [] => .error .pastEnd
  | name :: ts => do
    let params ← definitionParameters name.stop ts
    let nameNode : Node := .leaf "identifier" name
    let from' := params.value.elim name.stop Node.stop
    let stop := from' + definitionLength (src.drop from')
    let endPoint : Point := ⟨t.point.row + (src.slice t.start stop).newlines, 0⟩
    let span : Span := ⟨t.start, stop, t.point, endPoint⟩
    let rest := (params.skipTo (stop ≤ ·.start)).push name
    match params.value with
    | none => return rest.withValue ⟨"preproc_def", span, [nameNode], [("name", 0)]⟩
    | some p =>
      return rest.withValue
        ⟨"preproc_function_def", span, [nameNode, p], [("name", 0), ("parameters", 1)]⟩

/-- A directive whose keyword is `t`. -/
def directive (src : Bytes) (t : Token) (ts : List Token) : Outcome Node ts :=
  if t.spelled "#define" then definition src t ts
  else
    let stop := t.stop + ((src.drop t.stop).takeWhile (· != Bytes.newline)).length
    .ok ((Reading.stay (.leaf "preproc_directive" t) ts).skipTo (stop ≤ ·.start))

end Excerpt.Grammar
