import Excerpt.Tree.Node
import Mathlib.Data.List.Infix

/-!
# Properties of all nodes of a tree

`Every P` says that each node of a tree has the property `P`. The names in a tree are
spelled with tokens: a plain name is a word, an operator is made of words and
operators (`Spelt`), and the name of a namespace is a path of words (`IsPath`).
-/

namespace Excerpt

open List

/-- Words joined by `::`, as a list of tokens, and the words alone. -/
inductive Token.Path : List Token → List Token → Prop where
  | last {w : Token} (hw : w.kind = .word) : Path [w] [w]
  | cons {w colons : Token} {ts ws : List Token} (hw : w.kind = .word)
      (hcolons : colons.spelled "::") (h : Path ts ws) : Path (w :: colons :: ts) (w :: ws)

namespace Node

/-- Every node of the tree has the property. -/
inductive Every (P : Node → Prop) : Node → Prop where
  | node {n : Node} (here : P n) (children : ∀ c ∈ n.children, Every P c) : Every P n

namespace Every

variable {P Q : Node → Prop} {n : Node}

theorem here (h : Every P n) : P n := by
  cases h with
  | node here children => exact here

theorem child (h : Every P n) : ∀ c ∈ n.children, Every P c := by
  cases h with
  | node here children => exact children

theorem field {c : Node} {key : String} (h : Every P n) (hc : n.field? key = some c) : Every P c := by
  obtain ⟨i, -, hi⟩ := Option.bind_eq_some_iff.1 hc
  exact h.child c (mem_of_getElem? hi)

theorem mono (h : Every P n) (hPQ : ∀ m, P m → Q m) : Every Q n := by
  induction h with
  | node here _ ih => exact .node (hPQ _ here) ih

theorem childless (hch : n.children = []) (here : P n) : Every P n := by
  refine .node here fun c hc => ?_
  rw [hch] at hc
  cases hc

theorem single {c : Node} (here : P n) (hch : n.children = [c]) (hc : Every P c) : Every P n :=
  .node here (hch ▸ forall_mem_singleton.2 hc)

theorem spanning {kind : String} {first : Node} {more : List Node} {fields : List (String × Nat)}
    (here : P (.spanning kind first more fields)) (hf : Every P first)
    (hm : ∀ n ∈ more, Every P n) : Every P (.spanning kind first more fields) := by
  refine .node here fun c hc => ?_
  rcases mem_cons.1 hc with rfl | hc
  · exact hf
  · exact hm c hc

end Every

def wordKinds : List String :=
  ["identifier", "field_identifier", "type_identifier", "namespace_identifier"]

/-- The node is the token `t`, and a word. -/
def IsWord (T : List Token) (n : Node) : Prop :=
  ∃ t ∈ T, t.kind = .word ∧ n.span = t.span

/-- The part of a name is spelled with tokens of `T`: a plain name is a word, and an
operator is made of words and operators. -/
structure Spelt (T : List Token) (n : Node) : Prop where
  word : n.kind ∈ wordKinds → n.IsWord T
  symbols : n.kind = "operator_name" → ∀ c ∈ n.children,
    ∃ t ∈ T, (t.kind = .word ∨ t.kind = .operator) ∧ c.span = t.span

/-- The kinds of nodes that make up names. -/
def spelledKinds : List String :=
  "operator_name" :: wordKinds

/-- The node runs from the first to the last word of a path in `T`. -/
def IsPath (T : List Token) (n : Node) : Prop :=
  ∃ ts words, ts <:+: T ∧ Token.Path ts words ∧
    (∀ w ∈ words.head?, n.start = w.start) ∧ ∀ w ∈ words.getLast?, n.stop = w.stop

theorem not_mem_of_symbol {kind : String} {kinds : List String}
    (h : kind.toList.head?.any Char.isAlpha = false)
    (hk : ∀ k ∈ kinds, k.toList.head?.any Char.isAlpha) : kind ∉ kinds := by
  intro hmem
  rw [hk kind hmem] at h
  cases h

section Build

variable {T : List Token} {kind : String} {n first : Node} {more : List Node} {t : Token}
  {fields : List (String × Nat)}

theorem spelt_of_kind (hk : n.kind ∉ spelledKinds) : Spelt T n where
  word := fun h => absurd (mem_cons_of_mem _ h) hk
  symbols := fun h => absurd (h ▸ mem_cons_self) hk

theorem spelt_word (ht : t ∈ T) (hk : t.kind = .word) : Every (Spelt T) (.leaf kind t) := by
  refine .childless rfl ⟨fun _ => ⟨t, ht, hk, rfl⟩, fun _ c hc => ?_⟩
  cases hc

end Build

end Node

end Excerpt
