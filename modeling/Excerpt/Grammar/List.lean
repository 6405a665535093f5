import Excerpt.Grammar.Reading

/-!
# Lists in parentheses

Parameters and arguments are cut at the commas that stand in no inner parentheses. The list ends with
its closing parenthesis or with the source.
-/

namespace Excerpt.Grammar

/-- The node of an item that runs from its first to its last token; none while no token was read. -/
def closeItem (kind : String) : Option (Token × Token) → List Node
  | none => []
  | some (first, last) => [.between kind first last]

/-- Adds a token to the item being read. -/
def extendItem (t : Token) : Option (Token × Token) → Option (Token × Token)
  | none => some (t, t)
  | some (first, _) => some (first, t)

/-- The items and commas up to the closing parenthesis. `item` is what has been read of the current item,
`depth` the number of parentheses open in it. -/
def listItems (kind : String) (item : Option (Token × Token)) (depth : Nat) :
    (ts : List Token) → Reading (List Node) ts
  | [] => .stay (closeItem kind item) []
  | t :: ts =>
    if t.isFinish || (t.spelled ")" && depth == 0) then
      .stay (closeItem kind item) (t :: ts)
    else if t.spelled "," && depth == 0 then
      let more := listItems kind none 0 ts
      (more.withValue (closeItem kind item ++ .leaf "," t :: more.value)).push t
    else
      let depth := if t.spelled "(" then depth + 1 else if t.spelled ")" then depth - 1 else depth
      (listItems kind (extendItem t item) depth ts).push t

/-- The list whose opening parenthesis is `opening`: a node of kind `kind` with items of kind `itemKind`. -/
def parenthesised (kind itemKind : String) (opening : Token) (ts : List Token) : Reading Node ts :=
  let items := listItems itemKind none 0 ts
  let head : Node := .leaf "(" opening
  match items with
  | ⟨nodes, [], h⟩ => ⟨.spanning kind head nodes [], [], h⟩
  | ⟨nodes, t :: rest, h⟩ =>
    if t.spelled ")" then
      ⟨.spanning kind head (nodes ++ [.leaf ")" t]) [], rest, Tokens.length_rest_le h⟩
    else ⟨.spanning kind head nodes [], t :: rest, h⟩

/-- The parameter list that has the items of an argument list. -/
def asParameters (args : Node) : Node :=
  ⟨"parameter_list", args.span,
    args.children.map fun c => if c.kind == "argument" then c.relabel "parameter_declaration" else c, []⟩

end Excerpt.Grammar
