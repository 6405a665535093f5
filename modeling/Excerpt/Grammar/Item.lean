import Excerpt.Grammar.Declaration
import Excerpt.Grammar.Directive

/-!
# Items

The items of a source are its comments, directives, declarations and statements; blocks hold items
again. The grammar accepts any sequence of C++ tokens: what fits no rule becomes a statement or is passed
over. Two dialects share comments, directives and blocks: C++, and the definition language of protocol
messages, in which only `message`, `enum` and `service` definitions become nodes.

An item is read in two steps. Its lead, the part before a block, needs no recursion; a lead that owns a
block is then closed with the items of the block.
-/

namespace Excerpt

/-- The language of a source. -/
inductive Dialect where
  | cpp
  | proto
deriving Repr, DecidableEq

/-- What the grammar knows beyond the tokens: the source and its language. -/
structure Grammar where
  source : Bytes
  dialect : Dialect
deriving Repr

/-- A construct whose lead has been read and whose block comes next. -/
inductive BlockOwner where
  /-- A block that stands alone. -/
  | nobody
  | space (keyword : Token) (name : Option Node)
  | record (keyword : Token) (name : Option Node)
  | function (first : Token) (declarator : Node)
  | message (keyword name : Token)
deriving Repr, BEq

/-- An item up to its block: complete, possibly without a node, or waiting for the block. -/
inductive Lead where
  | whole (node : Option Node)
  | opens (owner : BlockOwner)
deriving Repr, BEq

namespace BlockOwner

def blockKind : BlockOwner → String
  | nobody => "compound_statement"
  | space _ _ => "declaration_list"
  | record _ _ => "field_declaration_list"
  | function _ _ => "compound_statement"
  | message keyword _ => Utf8.decodeLossy keyword.text ++ "_body"

/-- Whether functions of the block are members of a class. -/
def isRecord : BlockOwner → Bool
  | record _ _ => true
  | _ => false

def recordKind (keyword : Token) : String :=
  if keyword.spelled "class" then "class_specifier"
  else if keyword.spelled "struct" then "struct_specifier"
  else "enum_specifier"

def close : BlockOwner → Node → Node
  | nobody, body => body
  | space keyword none, body =>
    .startingAt keyword (.spanning "namespace_definition" body [] [("body", 0)])
  | space keyword (some name), body =>
    .startingAt keyword (.spanning "namespace_definition" name [body] [("name", 0), ("body", 1)])
  | record keyword none, body =>
    .startingAt keyword (.spanning (recordKind keyword) body [] [("body", 0)])
  | record keyword (some name), body =>
    .startingAt keyword (.spanning (recordKind keyword) name [body] [("name", 0), ("body", 1)])
  | function first declarator, body =>
    .startingAt first (.spanning "function_definition" declarator [body] [("declarator", 0), ("body", 1)])
  | message keyword name, body =>
    let kind := Utf8.decodeLossy keyword.text
    .spanning kind (.leaf (kind ++ "_kw") keyword) [.leaf (kind ++ "_name") name, body] []

end BlockOwner

namespace Grammar

/-- The name of a namespace whose first word is `first`, and the last word so far if there are several. -/
def namespaceName (first : Token) (last : Option Token) : (ts : List Token) → Reading Node ts
  | a :: b :: ts =>
    if a.spelled "::" && b.kind == .word then ((namespaceName first (some b) ts).push b).push a
    else .stay name (a :: b :: ts)
  | ts => .stay name ts
where
  name : Node :=
    match last with
    | none => .leaf "namespace_identifier" first
    | some last => .between "nested_namespace_specifier" first last

/-- A namespace after its keyword; it may have no name. -/
def namespaceLead (keyword : Token) : (ts : List Token) → Reading Lead ts
  | [] => .stay (.opens (.space keyword none)) []
  | first :: ts =>
    if first.kind == .word then
      let name := namespaceName first none ts
      (name.withValue (.opens (.space keyword (some name.value)))).push first
    else .stay (.opens (.space keyword none)) (first :: ts)

/-- A class without a body. -/
def forwardRecord (keyword : Token) : Option Node → Node
  | none => .leaf (BlockOwner.recordKind keyword) keyword
  | some name => .startingAt keyword (.spanning (BlockOwner.recordKind keyword) name [] [("name", 0)])

/-- The name of a class, if a word comes next. -/
def recordName : (ts : List Token) → Reading (Option Node) ts
  | [] => .stay none []
  | t :: ts => if t.kind == .word then .past (some (.leaf "type_identifier" t)) t ts else .stay none (t :: ts)

/-- A class after its keyword. What stands between its name and its body is passed over. -/
def recordLead (keyword : Token) (ts : List Token) : Reading Lead ts :=
  let r := (recordName ts).skipTo (·.spelledIn ["\x7b", ";"])
  if Tokens.at? "\x7b" r.rest then r.withValue (.opens (.record keyword r.value))
  else (r.withValue (.whole (some (forwardRecord keyword r.value)))).skip ";"

/-- Passes over an entry that is no definition: past its semicolon, or up to a closing brace. -/
def skipEntry : (ts : List Token) → Reading Lead ts
  | [] => .stay (.whole none) []
  | t :: ts =>
    if t.isFinish || t.spelled "\x7d" then .stay (.whole none) (t :: ts)
    else if t.spelled ";" then .past (.whole none) t ts
    else (skipEntry ts).push t

/-- The lead of an entry of the message language that starts with the token `t`. -/
def protoLead (t : Token) (ts : List Token) : Outcome Lead (t :: ts) :=
  if t.kind == .word && t.spelledIn ["message", "enum", "service"] then
    match ts with
    | [] => .error .pastEnd
    | name :: ts => .ok (.push t (.past (.opens (.message t name)) name ts))
  else if t.kind == .word || t.kind == .quoted || t.kind == .number || t.kind == .operator then
    .ok (skipEntry (t :: ts))
  else .ok (.stay (.whole none) (t :: ts))

/-- The lead of a C++ item that starts with the word `t`. -/
def wordLead (inClass : Bool) (t : Token) (ts : List Token) : Reading Lead (t :: ts) :=
  if t.spelled "namespace" then (namespaceLead t ts).push t
  else if t.spelledIn ["class", "struct", "enum"] then (recordLead t ts).push t
  else if t.spelledIn ["public", "private", "protected"] then
    (Reading.past (.whole (some (.leaf "access_specifier" t))) t ts).skip ":"
  else if t.spelledIn ["return", "if", "else", "while", "for"] then
    let r := control t ts
    (r.withValue (.whole (some r.value))).push t
  else declarationLead inClass t ts
where
  /-- The lead of a declaration or an expression. -/
  declarationLead (inClass : Bool) (t : Token) (ts : List Token) : Reading Lead (t :: ts) :=
    let r := declaration inClass t ts
    match r.value with
    | .function declarator => r.withValue (.opens (.function t declarator))
    | .whole node => r.withValue (.whole (some node))

/-- The lead of the item that starts with the token `t`. A token that starts no item is not taken. -/
def lead (g : Grammar) (inClass : Bool) (t : Token) (ts : List Token) : Outcome Lead (t :: ts) :=
  if t.isComment then .ok (.past (.whole (some (.leaf "comment" t))) t ts)
  else if t.kind = .directive then do
    let r ← directive g.source t ts
    return (r.withValue (.whole (some r.value))).push t
  else if g.dialect = .proto then protoLead t ts
  else if t.kind = .word then .ok (wordLead inClass t ts)
  else if t.kind = .quoted || t.kind = .number then
    .ok (wordLead.declarationLead inClass t ts)
  else if t.spelled ";" then .ok (.past (.whole none) t ts)
  else if t.spelled "\x7b" then .ok (.stay (.opens .nobody) (t :: ts))
  else .ok (.stay (.whole none) (t :: ts))

/-- The block opened by the token `opening` with the items `nodes`; its closing brace, if `ts` starts with
one, belongs to it. -/
def blockNode (kind : String) (opening : Token) (nodes : List Node) (ts : List Token) :
    Reading Node ts :=
  let head : Node := .leaf "\x7b" opening
  match ts with
  | [] => .stay (.spanning kind head nodes []) []
  | t :: ts =>
    if t.spelled "\x7d" then .past (.spanning kind head (nodes ++ [.leaf "\x7d" t]) []) t ts
    else .stay (.spanning kind head nodes []) (t :: ts)

def templateNode (keyword : Token) : Option Node → Node
  | none => .leaf "template_declaration" keyword
  | some n => .startingAt keyword (.spanning "template_declaration" n [] [])

def isTemplate (g : Grammar) (t : Token) : Bool :=
  g.dialect = .cpp && t.kind = .word && t.spelled "template"

/-- The tokens after template arguments, if some come next. -/
def skipAngled (ts : List Token) : List Token :=
  if Tokens.atKind? .angled ts then ts.tail else ts

theorem length_skipAngled_le (ts : List Token) : (skipAngled ts).length ≤ ts.length := by
  unfold skipAngled
  split <;> simp

/-- The tokens after a block: a semicolon after a class belongs to it. -/
def afterBlock (owner : BlockOwner) (ts : List Token) : List Token :=
  if owner.isRecord then Tokens.skip ";" ts else ts

theorem length_afterBlock_le (owner : BlockOwner) (ts : List Token) :
    (afterBlock owner ts).length ≤ ts.length := by
  unfold afterBlock
  split
  · exact Tokens.length_skip_le ..
  · exact Nat.le_refl _

mutual

/-- The items up to the end, or also up to a closing brace if `inBlock`. A token that starts no item is
passed over. -/
def items (g : Grammar) (inBlock inClass : Bool) (ts : List Token) : Outcome (List Node) ts :=
  match ts with
  | [] => .ok (.stay [] [])
  | t :: ts =>
    if t.isFinish || (inBlock && t.spelled "\x7d") then .ok (.stay [] (t :: ts))
    else do
      let found ← item g inClass (t :: ts)
      let next := if found.rest.length ≤ ts.length then found.rest else ts
      have hnext : next.length ≤ ts.length := by
        simp only [next]
        split
        · assumption
        · exact Nat.le_refl _
      let more ← items g inBlock inClass next
      return ⟨found.value.toList ++ more.value, more.rest,
        Nat.le_succ_of_le (Nat.le_trans more.le hnext)⟩
termination_by 2 * ts.length + 1
decreasing_by
  · exact Nat.lt_succ_self _
  · refine Nat.lt_of_le_of_lt (Nat.succ_le_succ (Nat.mul_le_mul_left 2 hnext)) ?_
    simp only [List.length_cons]
    omega

/-- The item at the front of the tokens, if one starts there. -/
def item (g : Grammar) (inClass : Bool) (ts : List Token) : Outcome (Option Node) ts :=
  match ts with
  | [] => .ok (.stay none [])
  | t :: ts =>
    if g.isTemplate t then do
      let inner ← item g false (skipAngled ts)
      return (inner.withValue (some (templateNode t inner.value))).within
        (Nat.le_succ_of_le (length_skipAngled_le ts))
    else do
      match ← lead g inClass t ts with
      | ⟨.whole node, rest, h⟩ => return ⟨node, rest, h⟩
      | ⟨.opens _, [], _⟩ => throw .pastEnd
      | ⟨.opens owner, opening :: rest, h⟩ =>
        let inner ← items g true owner.isRecord rest
        let body := blockNode owner.blockKind opening inner.value inner.rest
        return ⟨some (owner.close body.value), afterBlock owner body.rest,
          Nat.le_trans (length_afterBlock_le ..)
            (Nat.le_trans body.le (Nat.le_trans inner.le (Tokens.length_rest_le h)))⟩
termination_by 2 * ts.length
decreasing_by
  · have := length_skipAngled_le ts
    simp only [List.length_cons]
    omega
  · simp only [List.length_cons] at h ⊢
    omega

end

end Grammar

end Excerpt
