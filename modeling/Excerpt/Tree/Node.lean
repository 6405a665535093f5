import Excerpt.Tree.Token

/-!
# Syntax trees

A node has a kind, the span of source that it covers, and its children in order. Some children carry
a field name; a field refers to a child by its position. The text of a node is not stored: it is the
slice of the source that the span names.
-/

namespace Excerpt

/-- A stretch of source: the offsets of its two ends and their points. -/
structure Span where
  start : Nat
  stop : Nat
  startPoint : Point
  endPoint : Point
deriving Repr, DecidableEq, Inhabited

/-- A node of a syntax tree. -/
structure Node where
  kind : String
  span : Span
  children : List Node
  fields : List (String × Nat)
deriving Repr, BEq, Inhabited

namespace Token

def span (t : Token) : Span :=
  ⟨t.start, t.stop, t.point, t.endPoint⟩

end Token

namespace Span

/-- From the start of one span to the end of another. -/
def through (a b : Span) : Span :=
  ⟨a.start, b.stop, a.startPoint, b.endPoint⟩

end Span

namespace Node

/-- The offset of the first byte. -/
def start (n : Node) : Nat := n.span.start

/-- The offset after the last byte. -/
def stop (n : Node) : Nat := n.span.stop

def startRow (n : Node) : Nat := n.span.startPoint.row

def endRow (n : Node) : Nat := n.span.endPoint.row

def text (src : Bytes) (n : Node) : Bytes :=
  src.slice n.start n.stop

/-- The child that carries the field name `name`. -/
def field? (n : Node) (name : String) : Option Node :=
  (n.fields.lookup name).bind (n.children[·]?)

def leaf (kind : String) (t : Token) : Node :=
  ⟨kind, t.span, [], []⟩

/-- A childless node from the start of one token to the end of another. -/
def between (kind : String) (first last : Token) : Node :=
  ⟨kind, first.span.through last.span, [], []⟩

/-- The node over `first` and the children after it. -/
def spanning (kind : String) (first : Node) (more : List Node) (fields : List (String × Nat)) : Node :=
  ⟨kind, first.span.through (more.getLastD first).span, first :: more, fields⟩

/-- The node with its start moved to the token `t`. -/
def startingAt (t : Token) (n : Node) : Node :=
  { n with span := t.span.through n.span }

/-- The node under another kind, without children. -/
def relabel (kind : String) (n : Node) : Node :=
  ⟨kind, n.span, [], []⟩

mutual

/-- The node and its descendants, each before its children, children from left to right. -/
def preorder : Node → List Node
  | ⟨kind, span, children, fields⟩ => ⟨kind, span, children, fields⟩ :: preorderAll children

/-- The nodes of several trees, in order. -/
def preorderAll : List Node → List Node
  | [] => []
  | n :: ns => n.preorder ++ preorderAll ns

end

def childOf? (n : Node) (kinds : List String) : Option Node :=
  n.children.find? (kinds.contains ·.kind)

end Node

end Excerpt
