import Excerpt.Proofs.Grammar.Item

/-!
# The spans of a tree

In the tree of any source, children lie within their parent and follow one
another, and no node ends behind the source. The start point of a node has the
row and the column of its start offset. So has the end point, unless the end was
taken over from an array or a definition; the end row of what ends with a closing
brace is right in any case.
-/

namespace Excerpt.Node

open List Option Outcome Token

variable {src : Bytes} {n m root : Node} {P : Node → Prop}

theorem mem_preorderAll {ns : List Node} : m ∈ preorderAll ns ↔ ∃ n ∈ ns, m ∈ n.preorder := by
  induction ns with
  | nil => simp [preorderAll]
  | cons n ns ih => rw [preorderAll, mem_append, ih, exists_mem_cons_iff]

theorem mem_preorder : m ∈ n.preorder ↔ m = n ∨ ∃ c ∈ n.children, m ∈ c.preorder := by
  obtain ⟨kind, span, children, fields⟩ := n
  rw [preorder, mem_cons, mem_preorderAll]

theorem Every.of_mem_preorder (h : Every P n) (hm : m ∈ n.preorder) : Every P m := by
  induction h with
  | node here children ih =>
    rcases mem_preorder.1 hm with rfl | ⟨c, hc, hmc⟩
    · exact .node here children
    · exact ih c hc hmc

theorem settled_of_parse (h : parse src = .ok root) : ∀ c ∈ root.children, Every (Settled src) c := by
  obtain ⟨rest, hrow⟩ := row_of_parse h
  exact fun c hc => (hrow.every c hc).mono fun _ hn => hn.settled

theorem eq_or_settled (h : parse src = .ok root) (hn : n ∈ root.preorder) :
    n = root ∨ Every (Settled src) n := by
  rcases mem_preorder.1 hn with rfl | ⟨c, hc, hnc⟩
  · exact .inl rfl
  · exact .inr ((settled_of_parse h c hc).of_mem_preorder hnc)

theorem endsAt_of_settled (h : Every (Settled src) n) : EndsAt src n.stop := by
  induction h with
  | node here _ ih =>
    cases here.ends with
    | token ht hs _ => exact ⟨_, ht, .inl hs⟩
    | child hc hs _ =>
      rw [hs]
      exact ih _ (mem_of_getLast? hc)
    | array _ ht _ hs => exact ⟨_, ht, .inl hs⟩
    | definition _ ht hs _ => exact ⟨_, ht, .inr hs⟩

theorem root_span (h : parse src = .ok root) :
    root.start = 0 ∧ root.stop = src.length ∧ root.span.startPoint = .origin ∧ root.fields = [] := by
  obtain ⟨items, -, hr⟩ := Outcome.bind_eq_ok.1 h
  cases hr
  cases items.value with
  | nil => exact ⟨rfl, rfl, rfl, rfl⟩
  | cons first more => exact ⟨rfl, rfl, rfl, rfl⟩

theorem stop_le_length (h : parse src = .ok root) (hn : n ∈ root.preorder) : n.stop ≤ src.length := by
  rcases eq_or_settled h hn with rfl | hs
  · exact Nat.le_of_eq (root_span h).2.1
  · exact Grammar.endsAt_le (endsAt_of_settled hs)

theorem layout_of_parse (h : parse src = .ok root) (hn : n ∈ root.preorder) : n.Layout := by
  rcases eq_or_settled h hn with rfl | hse
  · obtain ⟨hs, hst, -, hf⟩ := root_span h
    obtain ⟨rest, hrow⟩ := row_of_parse h
    refine ⟨hs ▸ Nat.zero_le _, fun c hc => ⟨hs ▸ Nat.zero_le _, ?_⟩,
      hrow.pairwise fun _ hm => hm.settled.toSited, by simp [hf]⟩
    rw [hst]
    exact stop_le_length h (mem_preorder.2 (.inr ⟨c, hc, mem_preorder.2 (.inl rfl)⟩))
  · exact hse.here.toLayout

/-- What is looked up under a field name of the node is one of its children. -/
theorem Layout.exists_field (h : n.Layout) {e : String × Nat} (he : e ∈ n.fields) :
    ∃ c ∈ n.children, n.field? e.1 = some c := by
  have hs : (n.fields.lookup e.1).isSome := lookup_isSome_iff.2 ⟨e, he, beq_self_eq_true _⟩
  obtain ⟨i, hi⟩ := isSome_iff_exists.1 hs
  obtain ⟨before, after, hf, -⟩ := lookup_eq_some_iff.1 hi
  have hlt := h.fields (e.1, i) (by rw [hf]; simp)
  refine ⟨n.children[i], getElem_mem hlt, ?_⟩
  rw [field?, hi, bind_some]
  exact getElem?_eq_getElem hlt

/-- In the tree of a source, every node lies within the source, its children lie within it and follow
one another, its fields name children, and the root is the whole source. -/
theorem parse_nested (h : parse src = .ok root) :
    root.start = 0 ∧ root.stop = src.length ∧
      ∀ n ∈ root.preorder, n.start ≤ n.stop ∧ n.stop ≤ src.length ∧
        (∀ c ∈ n.children, n.start ≤ c.start ∧ c.stop ≤ n.stop) ∧
        n.children.Pairwise (·.stop ≤ ·.start) ∧
        ∀ e ∈ n.fields, ∃ c ∈ n.children, n.field? e.1 = some c := by
  obtain ⟨hstart, hstop, -, -⟩ := root_span h
  refine ⟨hstart, hstop, fun n hn => ?_⟩
  have hlayout := layout_of_parse h hn
  exact ⟨hlayout.le, stop_le_length h hn, hlayout.inside, hlayout.ordered,
    fun e he => hlayout.exists_field he⟩

/-- A class and a call that the source leaves open. -/
theorem parse_nested_open :
    let src := Bytes.ofString "struct S \x7b int a[2]; f(x"
    ∃ root n, parse src = .ok root ∧ n ∈ root.preorder ∧ n.kind = "array_declarator" ∧
      root.start = 0 ∧ root.stop = src.length ∧ n.start = 15 ∧ n.stop = 19 ∧
      ∀ c ∈ n.children, n.start ≤ c.start ∧ c.stop ≤ n.stop := by
  intro src
  have hrun : (do
      let root ← (parse src).toOption
      let n ← root.preorder.find? (·.kind == "array_declarator")
      return (n.start, n.stop)) = some (15, 19) := by
    decide +kernel
  simp only [bind, pure, bind_eq_some_iff, toOption_eq_some, some.injEq, Prod.mk.injEq] at hrun
  obtain ⟨root, hparse, n, hn, hrun⟩ := hrun
  have hmem := mem_of_find?_eq_some hn
  obtain ⟨hstart, hstop, hnodes⟩ := parse_nested hparse
  obtain ⟨-, -, hinside, -, -⟩ := hnodes n hmem
  exact ⟨root, n, hparse, hmem, by simpa using find?_some hn, hstart, hstop, hrun.1, hrun.2, hinside⟩

/-- The node, its last child, the last child of that one, and so on. -/
inductive Tail : Node → Node → Prop where
  | self (n : Node) : Tail n n
  | last {n c m : Node} (hc : n.children.getLast? = some c) (h : Tail c m) : Tail n m

theorem startPoint_of_parse (h : parse src = .ok root) (hn : n ∈ root.preorder) :
    n.span.startPoint = .ofOffset src n.start := by
  rcases eq_or_settled h hn with rfl | hse
  · obtain ⟨hs, -, hp, -⟩ := root_span h
    rw [hp, hs]
    rfl
  · obtain ⟨t, ht, hs, hp⟩ := hse.here.starts
    rw [hp, hs, point_eq ht]

theorem endPoint_of_settled (h : Every (Settled src) n) (hta : ∀ m, Tail n m → m.kind ∉ looseKinds) :
    n.span.endPoint = .ofOffset src n.stop := by
  induction h with
  | @node n here _ ih =>
    have hk := hta n (.self n)
    cases here.ends with
    | token ht hs hp => rw [hp, hs, endPoint_eq ht]
    | child hc hs hp =>
      rw [hp, hs]
      exact ih _ (mem_of_getLast? hc) fun m hm => hta m (.last hc hm)
    | array hl ht hb hs => exact absurd (hl ▸ mem_cons_self) hk
    | definition hl ht hs hrow => exact absurd (mem_cons_of_mem _ hl) hk

theorem endRow_or_bracket (h : Every (Settled src) n) : n.endRow = Bytes.newlines (src.take n.stop) ∨
      ∃ t ∈ scan src, t.spelledIn ["[", "]"] ∧ n.stop = t.stop := by
  induction h with
  | @node n here _ ih =>
    cases here.ends with
    | token ht hs hp =>
      rw [endRow, hp, hs, endPoint_eq ht, Point.row_ofOffset]
      exact .inl rfl
    | child hc hs hp =>
      rw [endRow, hp, hs]
      exact ih _ (mem_of_getLast? hc)
    | array hk ht hb hs => exact .inr ⟨_, ht, hb, hs⟩
    | definition hk ht hs hrow => exact .inl hrow

theorem getLast?_take_of_bracket {t : Token} (ht : t ∈ scan src)
    (h : t.spelledIn ["[", "]"]) : (src.take t.stop).getLast? ≠ some 125 := by
  have hte : (src.take t.stop).drop t.start = t.text := slice_of_mem_scan ht
  have hl : t.text.getLast? = some 91 ∨ t.text.getLast? = some 93 := by
    rw [spelledIn, any_cons, any_cons, any_nil, Bool.or_false, Bool.or_eq_true,
      spelled, spelled, beq_iff_eq, beq_iff_eq] at h
    rcases h with h | h
    · rw [h]
      exact .inl (by decide)
    · rw [h]
      exact .inr (by decide)
  rw [← take_append_drop t.start (src.take t.stop), hte, getLast?_append]
  rcases hl with hl | hl
  · rw [hl, some_or]
    decide
  · rw [hl, some_or]
    decide

/-- What ends with a closing brace ends as many rows down as there are line feeds in it. -/
theorem endRow_of_brace (h : parse src = .ok root) {c : Node} (hc : c ∈ root.children)
    (hn : n ∈ c.preorder) (hb : (n.text src).getLast? = some 125) :
    n.endRow = n.startRow + (n.text src).newlines := by
  have hr : n ∈ root.preorder := mem_preorder.2 (.inr ⟨c, hc, hn⟩)
  have hs := (settled_of_parse h c hc).of_mem_preorder hn
  have hl : (src.take n.stop).getLast? = some 125 := by
    rw [text, Bytes.slice, getLast?_drop] at hb
    split at hb
    · cases hb
    · exact hb
  rcases endRow_or_bracket hs with hrow | ⟨t, ht, hbr, hst⟩
  · rw [hrow, startRow, startPoint_of_parse h hr, Point.row_ofOffset]
    exact (Point.newlines_take_add_slice (layout_of_parse h hr).le).symm
  · rw [hst] at hl
    exact absurd hl (getLast?_take_of_bracket ht hbr)

/-- In the tree of a source, start points have the row and column of the start offset. So have the end
points of all nodes but the root and those that take their end from an array or a definition, and
the rows of what ends with a closing brace are right in any case. -/
theorem parse_points (h : parse src = .ok root) :
    (∀ n ∈ root.preorder, n.span.startPoint.Marks src n.start) ∧
    (∀ c ∈ root.children, ∀ n ∈ c.preorder, (∀ m, Tail n m → m.kind ∉ looseKinds) →
      n.span.endPoint.Marks src n.stop) ∧
    ∀ c ∈ root.children, ∀ n ∈ c.preorder, (n.text src).getLast? = some 125 →
      n.endRow = n.startRow + (n.text src).newlines := by
  refine ⟨fun n hn => ?_, fun c hc n hn htail => ?_, fun c hc n hn => endRow_of_brace h hc hn⟩
  · rw [startPoint_of_parse h hn]
    exact Point.marks_ofOffset src n.start
  · rw [endPoint_of_settled ((settled_of_parse h c hc).of_mem_preorder hn) htail]
    exact Point.marks_ofOffset src n.stop

theorem Tail.eq_of_childless (h : Tail n m) (hn : n.children = []) : m = n := by
  cases h with
  | self => rfl
  | last hc _ =>
    rw [hn] at hc
    cases hc

/-- A function below a definition of two lines. -/
theorem parse_points_function :
    let src := Bytes.ofString "#define M(a) \\\n a\n f(x) \x7b\n int a[2];\n é \x7d"
    ∃ root c, parse src = .ok root ∧ c ∈ root.children ∧ c.kind = "function_definition" ∧
      c.span.startPoint = ⟨2, 1⟩ ∧ c.span.startPoint.Marks src c.start ∧
      c.span.endPoint = ⟨4, 5⟩ ∧ c.span.endPoint.Marks src c.stop ∧
      c.endRow = c.startRow + (c.text src).newlines := by
  intro src
  have hrun : (do
      let root ← (parse src).toOption
      let c ← root.children.find? (·.kind == "function_definition")
      let body ← c.children.getLast?
      let brace ← body.children.getLast?
      return ([c.span.startPoint, c.span.endPoint], [body.kind, brace.kind], brace.children.length,
        (c.text src).getLast?)) =
        some ([⟨2, 1⟩, ⟨4, 5⟩], ["compound_statement", "\x7d"], 0, some 125) := by
    decide +kernel
  simp only [bind, pure, bind_eq_some_iff, toOption_eq_some, some.injEq, Prod.mk.injEq, cons.injEq, and_true,
    length_eq_zero_iff] at hrun
  obtain ⟨root, hparse, c, hc, body, hbody, brace, hbrace, ⟨hstart, hend⟩, ⟨hbodyKind, hbraceKind⟩, hnone,
    hlast⟩ := hrun
  have hmem := mem_of_find?_eq_some hc
  have hself : c ∈ c.preorder := mem_preorder.2 (.inl rfl)
  have hkind : c.kind = "function_definition" := by simpa using find?_some hc
  have htail : ∀ m, Tail c m → m.kind ∉ looseKinds := by
    rintro m (_ | ⟨hlastChild, _ | ⟨hlastToken, htoken⟩⟩)
    · rw [hkind]
      decide
    · cases hbody.symm.trans hlastChild
      rw [hbodyKind]
      decide
    · cases hbody.symm.trans hlastChild
      cases hbrace.symm.trans hlastToken
      rw [htoken.eq_of_childless hnone, hbraceKind]
      decide
  obtain ⟨hstarts, hends, hrows⟩ := parse_points hparse
  exact ⟨root, c, hparse, hmem, hkind, hstart, hstarts c (mem_preorder.2 (.inr ⟨c, hmem, hself⟩)),
    hend, hends c hmem c hself htail, hrows c hmem c hself hlast⟩

end Excerpt.Node
