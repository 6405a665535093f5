import Excerpt.Grammar.Directive
import Excerpt.Grammar.List
import Excerpt.Proofs.Tree.Edge
import Excerpt.Proofs.Tree.Every

/-!
# The layout of a tree

The children of a node lie within it, one after the other (`Layout`). A node of
a source starts with a token, and it ends with a token or with its last child,
point and offset alike (`Ending`). There are two exceptions, arrays and
definitions, whose end points are not those of their last bytes.

Functions with a body and calls are the uses of a macro. Their names hold no
other uses and are not empty (`Inert`), so a use never starts where another one
does. Neither does a definition of a macro, since it starts with its keyword. A
list in parentheses is known by the tokens that it was read from.
-/

namespace Excerpt.Node

open List Token

/-- The children lie within the node, one after the other, and the fields name children. -/
structure Layout (n : Node) : Prop where
  le : n.start ≤ n.stop
  inside : ∀ c ∈ n.children, n.start ≤ c.start ∧ c.stop ≤ n.stop
  ordered : n.children.Pairwise (·.stop ≤ ·.start)
  fields : ∀ e ∈ n.fields, e.2 < n.children.length

/-- The kinds of nodes whose end point is not kept up with their end offset. -/
def looseKinds : List String :=
  ["array_declarator", "preproc_def", "preproc_function_def"]

/-- Where a node ends. -/
inductive Ending (src : Bytes) (n : Node) : Prop where
  | token {t : Token} (ht : t ∈ scan src) (hstop : n.stop = t.stop)
      (hpoint : n.span.endPoint = t.endPoint)
  | child {c : Node} (hc : n.children.getLast? = some c) (hstop : n.stop = c.stop)
      (hpoint : n.span.endPoint = c.span.endPoint)
  /-- An array ends with a bracket, but its end point is that of its name. -/
  | array {t : Token} (hkind : n.kind = "array_declarator") (ht : t ∈ scan src)
      (hbracket : t.spelledIn ["[", "]"]) (hstop : n.stop = t.stop)
  /-- The end point of a definition has the row of its end offset, but no column. -/
  | definition {t : Token} (hkind : n.kind ∈ ["preproc_def", "preproc_function_def"])
      (ht : t ∈ scan src)
      (hstop : n.stop = t.stop + Grammar.definitionLength (src.drop t.stop))
      (hrow : n.endRow = Bytes.newlines (src.take n.stop))

/-- The node is laid out, and it starts and ends where tokens do. It is empty at the end of the
source only. -/
structure Sited (src : Bytes) (n : Node) : Prop extends Layout n where
  starts : ∃ t ∈ scan src, n.start = t.start ∧ n.span.startPoint = t.point
  ends : Ending src n
  full : n.start < src.length → n.start < n.stop

/-- The kinds of nodes that may be uses of a macro. -/
def useKinds : List String :=
  ["call_expression", "function_definition"]

def defineKinds : List String :=
  ["preproc_def", "preproc_function_def"]

/-- The kinds of lists in parentheses, with the kinds of their items. -/
def listedKinds : List (String × String) :=
  [("argument_list", "argument"), ("parameter_list", "parameter_declaration")]

/-- The kinds of nodes of which more is known than how they are laid out. -/
def keyKinds : List String :=
  useKinds ++ defineKinds ++ listedKinds.map (·.1)

/-- The node was read as a list in parentheses. -/
def IsList (src : Bytes) (n : Node) : Prop :=
  ∃ itemKind opening ts, (n.kind, itemKind) ∈ listedKinds ∧ opening :: ts <:+ scan src ∧
    opening.spelled "(" ∧ n = (Grammar.parenthesised n.kind itemKind opening ts).value

/-- The node starts with the keyword of a definition, which stands before all in it, and it ends with the
line on which a token of it ends. -/
structure Defines (src : Bytes) (n : Node) : Prop where
  keyword : ∃ t ∈ scan src, t.spelled "#define" ∧ n.start = t.start ∧
    ∀ c ∈ n.children, t.stop ≤ c.start
  line : ∃ t ∈ scan src, n.stop = t.stop + Grammar.definitionLength (src.drop t.stop)
  row : n.endRow = Bytes.newlines (src.take n.stop)

/-- The node is neither a use nor a definition, and it is not empty. -/
structure Inert (src : Bytes) (n : Node) : Prop extends Sited src n where
  kind : n.kind ∉ useKinds ++ defineKinds
  list : n.kind ∈ listedKinds.map (·.1) → IsList src n
  lt : n.start < n.stop

/-- The first child of a use is its name or its declarator, which holds no uses. The name and the arguments
of a call are not empty. -/
structure Settled (src : Bytes) (n : Node) : Prop extends Sited src n where
  use : n.kind ∈ useKinds → ∃ a more, n.children = a :: more ∧ Every (Inert src) a
  call : n.kind = "call_expression" → ∀ c ∈ n.children, c.start < c.stop
  define : n.kind ∈ defineKinds → Defines src n
  list : n.kind ∈ listedKinds.map (·.1) → IsList src n

section Build

variable {src : Bytes} {n : Node} {kind : String} {t first last : Token}

theorem inert_of_kind (h : Sited src n) (hk : n.kind ∉ keyKinds) (hlt : n.start < n.stop) : Inert src n :=
  ⟨h, fun hmem => hk (mem_append_left _ hmem),
    fun hl => absurd (mem_append_right _ hl) hk, hlt⟩

theorem settled_of_inert (h : Sited src n) (hk : n.kind ∉ useKinds ++ defineKinds)
    (hl : n.kind ∈ listedKinds.map (·.1) → IsList src n) : Settled src n where
  toSited := h
  use := fun huse => absurd (mem_append_left _ huse) hk
  call := fun hc => absurd (hc ▸ mem_cons_self) hk
  define := fun hd => absurd (mem_append_right _ hd) hk
  list := hl

theorem settled_of_kind (h : Sited src n) (hk : n.kind ∉ keyKinds) : Settled src n :=
  settled_of_inert h (fun hmem => hk (mem_append_left _ hmem))
    fun hl => absurd (mem_append_right _ hl) hk

theorem Inert.settled (h : Inert src n) : Settled src n :=
  settled_of_inert h.toSited h.kind h.list

theorem sited_between (hf : first ∈ scan src) (hl : last ∈ scan src)
    (hle : first.start ≤ last.stop) (hfu : first.start < src.length → first.start < last.stop) :
    Sited src (.between kind first last) where
  le := hle
  inside := by simp [between]
  ordered := .nil
  fields := by simp [between]
  starts := ⟨first, hf, rfl, rfl⟩
  ends := .token hl rfl rfl
  full := hfu

theorem sited_leaf (ht : t ∈ scan src) : Sited src (.leaf kind t) := by
  refine sited_between ht ht t.start_le_stop fun hlt => start_lt_stop ht fun hk => ?_
  rw [(start_of_finish ht hk).1] at hlt
  omega

theorem Sited.startingAt (h : Sited src n) (ht : t ∈ scan src) (hle : t.start ≤ n.start) :
    Sited src (n.startingAt t) where
  le := Nat.le_trans hle h.le
  inside := fun c hc => ⟨Nat.le_trans hle (h.inside c hc).1, (h.inside c hc).2⟩
  ordered := h.ordered
  fields := h.fields
  starts := ⟨t, ht, rfl, rfl⟩
  ends := by
    cases h.ends with
    | token ht hs hp => exact .token ht hs hp
    | child hc hs hp => exact .child hc hs hp
    | array hk ht hb hs => exact .array hk ht hb hs
    | definition hk ht hs hrow => exact .definition hk ht hs hrow
  full := by
    change t.start < src.length → t.start < n.stop
    have hf := h.full
    have hs := h.le
    omega

end Build

end Excerpt.Node
