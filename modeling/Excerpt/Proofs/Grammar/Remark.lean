import Excerpt.Proofs.Grammar.Item
import Excerpt.Query.Match

/-!
# The comments of a tree

Comments are items of their own, so no declaration holds one: the comments of a
tree are those that stand among the items of its blocks.
-/

namespace Excerpt

open List

namespace Node

variable {n : Node}

/-- The comments in some trees, the last tree first. -/
def remarks (ns : List Node) : List Node :=
  (walkAll ns).filter (·.kind == "comment")

theorem walkAll_append (ns ms : List Node) : walkAll (ns ++ ms) = walkAll ms ++ walkAll ns := by
  induction ns with
  | nil => simp [walkAll]
  | cons n ns ih => rw [cons_append, walkAll, walkAll, ih, append_assoc]

theorem remarks_append (ns ms : List Node) : remarks (ns ++ ms) = remarks ms ++ remarks ns := by
  rw [remarks, walkAll_append, filter_append]
  rfl

theorem remarks_cons (n : Node) (ns : List Node) : remarks (n :: ns) = remarks ns ++ remarks [n] :=
  remarks_append [n] ns

theorem remarks_comment (t : Token) : remarks [leaf "comment" t] = [leaf "comment" t] := by
  simp [remarks, walkAll, walk, leaf]

theorem remarks_of_kind (h : n.kind ≠ "comment") : remarks [n] = remarks n.children := by
  obtain ⟨kind, span, children, fields⟩ := n
  rw [remarks, walkAll, walkAll, nil_append, walk, filter_cons_of_neg]
  · rfl
  · simpa using h

/-- No node of the tree is a comment. -/
def Quiet (n : Node) : Prop :=
  Every (·.kind ≠ "comment") n

theorem remarks_eq_nil {ns : List Node} (h : ∀ n ∈ ns, remarks [n] = []) : remarks ns = [] := by
  induction ns with
  | nil => rfl
  | cons n ns ih =>
    obtain ⟨hn, hns⟩ := forall_mem_cons.1 h
    rw [remarks_cons, ih hns, hn, append_nil]

theorem Quiet.remarks (h : n.Quiet) : remarks [n] = [] := by
  induction h with
  | node here _ ih =>
    rw [remarks_of_kind here]
    exact remarks_eq_nil ih

theorem quiet_of_complete {src : Bytes} (h : Every (Complete src) n) : n.Quiet :=
  h.mono fun m hm hk => hm.inner.kind (by rw [hk]; decide)

theorem remarks_leaf {kind : String} {t : Token} (hk : kind ≠ "comment") : remarks [leaf kind t] = [] :=
  remarks_of_kind hk

end Node

open Node

namespace Grammar

variable {src : Bytes} {g : Grammar} {ts rest : List Token} {t : Token} {owner : BlockOwner} {inClass : Bool}

theorem remarks_blockNode {kind : String} (hk : kind ≠ "comment") (opening : Token)
    (nodes : List Node) (ts : List Token) :
    remarks [(blockNode kind opening nodes ts).value] = remarks nodes := by
  have hb : ∀ nodes : List Node,
      remarks [.spanning kind (.leaf "\x7b" opening) nodes []] = remarks nodes := by
    intro nodes
    rw [remarks_of_kind hk]
    change remarks (.leaf "\x7b" opening :: nodes) = _
    rw [remarks_cons, remarks_leaf (by decide), append_nil]
  unfold blockNode
  split
  · exact hb nodes
  · split
    · refine (hb _).trans ?_
      rw [remarks_append, remarks_leaf (by decide), nil_append]
    · exact hb nodes

theorem recordKind_ne_comment (keyword : Token) : BlockOwner.recordKind keyword ≠ "comment" := by
  have hall : ∀ k ∈ classKinds, k ≠ "comment" := by decide
  exact hall _ (recordKind_mem keyword)

/-- The comments of a construct are those of its block. -/
theorem remarks_close (h : owner.Laid src t ts rest) (body : Node) :
    remarks [owner.close body] = remarks [body] := by
  have hq : ∀ {us vs ns}, Laid (Contained src) us vs ns →
      remarks (ns ++ [body]) = remarks [body] := by
    intro us vs ns h
    rw [remarks_append, remarks_eq_nil fun n hn => (quiet_of_complete (h.complete.every n hn)).remarks,
      append_nil]
  cases h with
  | nobody => rfl
  | @space name _ h hna =>
    cases name with
    | none => exact remarks_of_kind (by decide : "namespace_definition" ≠ "comment")
    | some n => exact (remarks_of_kind (by decide : "namespace_definition" ≠ "comment")).trans (hq h)
  | @record name _ h hna =>
    have hk := recordKind_ne_comment t
    cases name with
    | none => exact remarks_of_kind hk
    | some n => exact (remarks_of_kind hk).trans (hq h)
  | function h => exact (remarks_of_kind (by decide : "function_definition" ≠ "comment")).trans (hq h)
  | @message name _ hke _ =>
    obtain ⟨s, hs, -, heq⟩ := exists_keyword hke
    have hki : ∀ s ∈ messageKeywords,
        s ≠ "comment" ∧ s ++ "_kw" ≠ "comment" ∧ s ++ "_name" ≠ "comment" := by decide
    obtain ⟨hk, hkw, hna⟩ := hki s hs
    rw [BlockOwner.close, heq]
    refine (remarks_of_kind hk).trans ?_
    change remarks (.leaf _ t :: .leaf _ name :: [body]) = _
    rw [remarks_cons, remarks_cons, remarks_leaf hkw, remarks_leaf hna, append_nil, append_nil]

/-- The comments of an item with a block are those among the items of the block. -/
theorem remarks_of_opens (hts : t :: ts <:+ Token.scan g.source)
    {start : Reading Lead (t :: ts)}
    (hs : lead g inClass t ts = .ok start) (ho : start.value = .opens owner)
    (opening : Token) (nodes : List Node) (us : List Token) :
    remarks [owner.close (blockNode owner.blockKind opening nodes us).value] = remarks nodes := by
  have hl := laid_of_opens hts hs ho
  rw [remarks_close hl, remarks_blockNode]
  intro hk
  exact absurd (hk ▸ blockKind_mem hl) (by decide)

theorem remarks_templateNode (keyword : Token) (item : Option Node) :
    remarks [templateNode keyword item] = remarks item.toList := by
  cases item with
  | none => exact remarks_of_kind (by decide : "template_declaration" ≠ "comment")
  | some n => exact remarks_of_kind (by decide : "template_declaration" ≠ "comment")

theorem forwardRecord_quiet {name : Option Node} (h : Laid (Contained src) ts rest name.toList) :
    (forwardRecord t name).Quiet := by
  have hk := recordKind_ne_comment t
  cases name with
  | none => exact Every.childless rfl hk
  | some n =>
    exact Every.single hk rfl (quiet_of_complete (h.complete.every n mem_cons_self))

/-- An item without a block that does not start with a comment holds none. -/
theorem lead_quiet (hts : t :: ts <:+ Token.scan g.source)
    (hco : t.isComment = false) {r : Reading Lead (t :: ts)}
    (h : lead g inClass t ts = .ok r) {n : Node} (hn : r.value = .whole (some n)) : n.Quiet := by
  have hv := lead_laid hts h
  rw [hn] at hv
  generalize r.rest = rest at hv
  cases hv with
  | comment hc =>
    rw [hco] at hc
    cases hc
  | inner h => exact quiet_of_complete (h.every n mem_cons_self)
  | forward h _ => exact forwardRecord_quiet h

end Grammar

end Excerpt
