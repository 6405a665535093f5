import Excerpt.Proofs.Cpp.Section
import Excerpt.Proofs.Macro.Query
import Excerpt.Proofs.Query.Named

/-!
# Uses of a macro, by query and by walk

A walk over the tree meets the uses of a macro in the order in which they start,
and no two of them start at the same place (`uses_sorted`). In the tree of a text the
texts of all nodes can be read, so the walk fails nowhere, and the query for a
name finds the same uses in the same order (`named_eq_walked`).
-/

namespace Excerpt

open List Option Outcome Utf8

namespace Node

variable {src : Bytes} {n m root : Node} {ns : List Node}

def isUse (n : Node) : Bool :=
  useKinds.contains n.kind

theorem isUse_iff : n.isUse ↔ n.kind ∈ useKinds :=
  contains_iff_mem

/-- The nodes in a tree that `p` holds of start at different places within it, in order. -/
structure InOrder (p : Node → Bool) (n : Node) : Prop where
  sorted : (n.preorder.filter p).Pairwise (·.start < ·.start)
  within : ∀ u ∈ n.preorder, p u → n.start ≤ u.start ∧ u.start < n.stop

/-- The node is laid out. If `p` holds of it, it is not empty, and it starts before all in it that `p`
holds of. -/
structure Leads (p : Node → Bool) (n : Node) : Prop extends Layout n where
  lt : p n → n.start < n.stop
  first : p n → ∀ c ∈ n.children, ∀ u ∈ c.preorder, p u → c.start ≤ u.start →
    n.start < u.start

variable {p : Node → Bool}

/-- The nodes in trees that follow one another are in order if they are so in each tree. -/
theorem sorted_preorderAll (ho : ns.Pairwise (·.stop ≤ ·.start)) (h : ∀ n ∈ ns, InOrder p n) :
    ((preorderAll ns).filter p).Pairwise (·.start < ·.start) := by
  induction ns with
  | nil => exact .nil
  | cons n ns ih =>
    obtain ⟨hb, ho⟩ := pairwise_cons.1 ho
    obtain ⟨hn, hns⟩ := forall_mem_cons.1 h
    rw [preorderAll, filter_append, pairwise_append]
    refine ⟨hn.sorted, ih ho hns, fun u hu v hv => ?_⟩
    obtain ⟨hu, hpu⟩ := mem_filter.1 hu
    obtain ⟨hv, hpv⟩ := mem_filter.1 hv
    obtain ⟨m, hm, hv⟩ := mem_preorderAll.1 hv
    have hlt := (hn.within u hu hpu).2
    have hle := ((hns m hm).within v hv hpv).1
    have hs := hb m hm
    omega

theorem preorder_eq (n : Node) : n.preorder = n :: preorderAll n.children := by
  obtain ⟨kind, span, children, fields⟩ := n
  rw [preorder]

theorem inOrder_of_leads (h : Every (Leads p) n) : InOrder p n := by
  induction h with
  | @node n here children ih =>
    refine ⟨?_, fun u hu hpu => ?_⟩
    · rw [preorder_eq, filter_cons]
      split
      · next hn =>
          refine pairwise_cons.2 ⟨fun u hu => ?_, sorted_preorderAll here.ordered ih⟩
          obtain ⟨hu, hpu⟩ := mem_filter.1 hu
          obtain ⟨c, hc, hu⟩ := mem_preorderAll.1 hu
          exact here.first hn c hc u hu hpu ((ih c hc).within u hu hpu).1
      · exact sorted_preorderAll here.ordered ih
    · rcases mem_preorder.1 hu with rfl | ⟨c, hc, hu⟩
      · exact ⟨Nat.le_refl _, here.lt hpu⟩
      · have hin := here.inside c hc
        have hw := (ih c hc).within u hu hpu
        omega

/-- A walk over the tree of a source meets the nodes that `p` holds of in the order in which they start. -/
theorem sorted_of_leads (h : parse src = .ok root) (hr : p root = false)
    (hle : ∀ m, Settled src m → Leads p m) : (root.preorder.filter p).Pairwise (·.start < ·.start) := by
  have hl := layout_of_parse h (mem_preorder.2 (.inl rfl))
  rw [preorder_eq, filter_cons, hr]
  exact sorted_preorderAll hl.ordered fun c hc =>
    inOrder_of_leads ((settled_of_parse h c hc).mono hle)

/-- What stands in a use starts behind the start of the use, or is no use. -/
theorem leads_of_use (h : Settled src n) : Leads isUse n := by
  refine ⟨h.toLayout, fun hn => ?_, fun hn c hc u hu huse hle => ?_⟩
  · obtain ⟨a, more, hch, ha⟩ := h.use (isUse_iff.1 hn)
    have hin := h.inside a (by rw [hch]; exact mem_cons_self)
    have hlt := ha.here.lt
    omega
  · obtain ⟨a, more, hch, ha⟩ := h.use (isUse_iff.1 hn)
    have hin := h.inside a (by rw [hch]; exact mem_cons_self)
    have hlt := ha.here.lt
    have ho := h.ordered
    rw [hch] at hc ho
    rcases mem_cons.1 hc with rfl | hc
    · exact absurd (mem_append_left _ (isUse_iff.1 huse)) (ha.of_mem_preorder hu).here.kind
    · have hs := (pairwise_cons.1 ho).1 c hc
      omega

/-- The root is a list of items. -/
theorem root_kind (h : parse src = .ok root) : root.kind ∈ ["translation_unit", "source_file"] := by
  obtain ⟨items, -, hit⟩ := Outcome.bind_eq_ok.1 h
  cases hit
  cases items.value with
  | nil => exact mem_cons_self
  | cons first more =>
    cases Dialect.guess src with
    | cpp => exact mem_cons_self
    | proto => exact mem_cons_of_mem _ mem_cons_self

theorem isUse_root (h : parse src = .ok root) : root.isUse = false := by
  have hn : ∀ k ∈ ["translation_unit", "source_file"], useKinds.contains k = false := by decide
  exact hn _ (root_kind h)

/-- A walk over the tree of a source meets uses in the order in which they start. -/
theorem uses_sorted (h : parse src = .ok root) : (root.preorder.filter isUse).Pairwise (·.start < ·.start) :=
  sorted_of_leads h (isUse_root h) fun _ hm => leads_of_use hm

def Readable (src : Bytes) (n : Node) : Prop :=
  ∃ s, decode (n.text src) = .ok s

theorem readable_of_settled {cs : List Char} (hsrc : Utf8.Spells src cs) (h : Every (Settled src) n) :
    Every (Readable src) n := by
  induction h with
  | @node n here children ih =>
    obtain ⟨t, ht, hs, -⟩ := here.starts
    have hf := Token.edge_start hsrc ht
    have hl := (endsAt_of_settled (.node here children)).edge hsrc
    rw [← hs] at hf
    exact .node (hf.exists_decode hl) ih

theorem readable_of_parse {text : String} (ht : decode src = .ok text)
    (h : parse src = .ok root) : Every (Readable src) root := by
  have hsrc := spells_of_decode ht
  obtain ⟨hs, hst, -, -⟩ := root_span h
  have hf : Utf8.Edge src root.start := hs ▸ ⟨[], .nil⟩
  have hl : Utf8.Edge src root.stop := hst ▸ edge_of_length_le hsrc (Nat.le_refl _)
  exact .node (hf.exists_decode hl) fun c hc => readable_of_settled hsrc (settled_of_parse h c hc)

theorem Readable.text? (h : Readable src n) : n.text? src = .ok (decodeLossy (n.text src)) := by
  obtain ⟨s, hs⟩ := h
  rw [Node.text?, Bytes.text?, hs, decodeLossy_of_decode hs]
  rfl

end Node

namespace MacroUse

open Query Node

variable {src : Bytes} {n root : Node} {ns : List Node} {name text : String} {names : List String}
  {passes : Node → Bool} {u : MacroUse} {keep : MacroUse → Except Failure Bool}
  {uses : List MacroUse}

theorem decides_value (src : Bytes) (value : String) (args : List String) :
    Decides src (argsTest "#eq?" (value :: args)) (isNamed src (Predicate.value value)) := by
  have hs : Predicate.subject "@macro_name" = "macro_name" := by decide
  exact fun n list => holds_eq args (hs ▸ rfl)

theorem decides_name (src : Bytes) (hq : '"' ∉ name.toList) :
    Decides src (nameTest "#eq?" name) (isNamed src name) := by
  have hd := decides_value src (quoted name) []
  rwa [value_quoted hq] at hd

theorem parts_of_wellFormed {P : Node → Prop} {callee : Node} {args : Option Node} (h : n.WellFormed src)
    (hn : Every P n) (hp : parts? n = some (callee, args)) :
    ∃ list, args = some list ∧ Every P callee ∧ Every P list := by
  by_cases hc : n.kind = "call_expression"
  · obtain ⟨name, list, hna, hl, -, heq⟩ := parts?_of_call h hc
    cases hp.symm.trans heq
    exact ⟨list, rfl, hn.field hna, hn.field hl⟩
  · by_cases hde : n.kind = "function_definition"
    · obtain ⟨d, hd, ⟨-, heq⟩ | ⟨name, list, -, hna, hl, -, heq⟩⟩ := parts?_of_definition h hde
      · cases hp.symm.trans heq
      · cases hp.symm.trans heq
        exact ⟨list, rfl, (hn.field hd).field hna, (hn.field hd).field hl⟩
    · rw [parts?, if_neg (by simpa using hc), if_neg (by simpa using hde)] at hp
      cases hp

theorem ofMatch?_found (src : Bytes) (i : Nat) (n callee list : Node) :
    ofMatch? src ⟨i, n, captured callee list ++ [("macro_usage", [n])]⟩ =
      (ofNodes src n (some list) (some callee)).map some := by
  simp [ofMatch?, Match.nodes, captured, Table.get?]
  rfl

/-- The walk and the query take the same node for a use, and make the same use of it, if the test passes
the names that the walk looks for. -/
theorem atNode?_eq_of_passes (h : n.WellFormed src) (hn : Every (Readable src) n)
    (hpa : ∀ callee args, parts? n = some (callee, args) → callee.kind = "identifier" →
      passes callee = names.contains (decodeLossy (callee.text src))) : atNode? src names n =
      match found? passes n with | some m => ofMatch? src m | none => .ok none := by
  unfold atNode? found?
  cases hp : parts? n with
  | none => rfl
  | some parts =>
    obtain ⟨callee, args⟩ := parts
    obtain ⟨list, rfl, hc, -⟩ := parts_of_wellFormed h hn hp
    dsimp only
    rw [hc.here.text?]
    cases hk : callee.kind == "identifier" with
    | false => rfl
    | true =>
      rw [ok_bind, ← hpa callee _ hp (beq_iff_eq.1 hk), if_pos rfl, Bool.true_and]
      split
      · exact (ofMatch?_found src _ n callee list).symm
      · rfl

theorem ofNodes_eq_ok {args name : Option Node} (h : ofNodes src n args name = .ok u) :
    u.node = n ∧ argumentsOf src args = .ok u.arguments ∧ ∀ callee ∈ name, callee.text? src = .ok u.name := by
  have hm : ∀ {s : String}, (do
      return ⟨s, ← argumentsOf src args, ← textOf src n, n⟩ : Except Failure MacroUse) = .ok u →
        u.node = n ∧ argumentsOf src args = .ok u.arguments ∧ u.name = s := by
    intro s h
    obtain ⟨arguments, ha, h⟩ := Outcome.bind_eq_ok.1 h
    obtain ⟨text, -, h⟩ := Outcome.bind_eq_ok.1 h
    cases h
    exact ⟨rfl, ha, rfl⟩
  unfold ofNodes at h
  split at h
  · next callee hc =>
      obtain ⟨s, hs, h⟩ := Outcome.bind_eq_ok.1 h
      obtain ⟨hn, ha, hna⟩ := hm h
      refine ⟨hn, ha, ?_⟩
      rintro callee ⟨⟩
      cases hc
      rw [hs, hna]
  · next hno =>
      obtain ⟨hn, ha, -⟩ := hm h
      refine ⟨hn, ha, ?_⟩
      rintro callee ⟨⟩
      cases hno

theorem exists_of_mem_ofMatches {ms : List Match} (h : ofMatches src keep ms = .ok uses)
    (hu : u ∈ uses) : ∃ m ∈ ms, ofMatch? src m = .ok (some u) := by
  induction ms generalizing uses with
  | nil =>
    cases h
    cases hu
  | cons m ms ih =>
    have hm : ∀ {here : List MacroUse}, (∀ u ∈ here, ofMatch? src m = .ok (some u)) →
        (do return here ++ (← ofMatches src keep ms)) = Except.ok uses →
        ∃ m' ∈ m :: ms, ofMatch? src m' = .ok (some u) := by
      intro here hh h
      obtain ⟨more, hm, h⟩ := Outcome.bind_eq_ok.1 h
      cases h
      rcases mem_append.1 hu with hu | hu
      · exact ⟨m, mem_cons_self, hh u hu⟩
      · obtain ⟨m', hm', hma⟩ := ih hm hu
        exact ⟨m', mem_cons_of_mem m hm', hma⟩
    obtain ⟨use?, huse, h⟩ := Outcome.bind_eq_ok.1 h
    cases use? with
    | none => exact hm (by simp) h
    | some v =>
      obtain ⟨b, -, h⟩ := Outcome.bind_eq_ok.1 h
      cases b with
      | false => exact hm (by simp) h
      | true => exact hm (by simpa using huse) h

theorem exists_of_mem_found (h : ofMatches src keep (ns.filterMap (found? passes)) = .ok uses)
    (hu : u ∈ uses) : ∃ n ∈ ns, ∃ callee list, parts? n = some (callee, some list) ∧ passes callee ∧
      ofNodes src n (some list) (some callee) = .ok u := by
  obtain ⟨m, hm, hu⟩ := exists_of_mem_ofMatches h hu
  obtain ⟨n, hn, hm⟩ := mem_filterMap.1 hm
  unfold found? at hm
  split at hm
  · next callee list hpa =>
      split at hm
      · next hp =>
          cases hm
          rw [ofMatch?_found] at hu
          obtain ⟨v, hv, hu⟩ := map_eq_ok.1 hu
          cases hu
          exact ⟨n, hn, callee, list, hpa, (Bool.and_eq_true_iff.1 hp).2, hv⟩
      · cases hm
  · cases hm

/-- If they agree on each node, they agree on all. -/
theorem ofMatches_eq {found : Node → Option Match} (h : ∀ n ∈ ns, atNode? src names n = match found n with
      | some m => ofMatch? src m | none => .ok none) :
    ofMatches src (fun _ => .ok true) (ns.filterMap found) = atNodes src names ns := by
  induction ns with
  | nil => rfl
  | cons n ns ih =>
    obtain ⟨hn, hns⟩ := forall_mem_cons.1 h
    rw [atNodes, hn, ← ih hns, filterMap_cons]
    cases found n with
    | none =>
      cases ofMatches src (fun _ => .ok true) (ns.filterMap found) with
      | error e => rfl
      | ok us => rfl
    | some m =>
      dsimp only
      rw [ofMatches]
      cases ofMatch? src m with
      | error e => rfl
      | ok u =>
        cases u with
        | none => rfl
        | some u => rfl

section Total

theorem exists_parameterArguments (h : ∀ n ∈ ns, Readable src n) :
    ∃ args, parameterArguments src ns = .ok args := by
  induction ns with
  | nil => exact ⟨[], rfl⟩
  | cons n ns ih =>
    obtain ⟨hn, hns⟩ := forall_mem_cons.1 h
    obtain ⟨args, ha⟩ := ih hns
    rw [parameterArguments, hn.text?, ha]
    split
    · exact ⟨_, rfl⟩
    · split
      · exact ⟨_, rfl⟩
      · exact ⟨_, rfl⟩

theorem exists_callArguments (h : ∀ n ∈ ns, Readable src n) (current : List String) :
    ∃ args, callArguments src current ns = .ok args := by
  induction ns generalizing current with
  | nil => exact ⟨[], rfl⟩
  | cons n ns ih =>
    obtain ⟨hn, hns⟩ := forall_mem_cons.1 h
    rw [callArguments, hn.text?]
    split
    · exact ih hns current
    · split
      · obtain ⟨args, ha⟩ := ih hns []
        rw [ha]
        exact ⟨_, rfl⟩
      · split
        · obtain ⟨args, ha⟩ := ih hns current
          rw [ha]
          exact ⟨_, rfl⟩
        · exact ih hns _

theorem exists_argumentsOf {list : Node} (h : Every (Readable src) list) :
    ∃ args, argumentsOf src (some list) = .ok args := by
  have hch : ∀ c ∈ list.children, Readable src c := fun c hc => (h.child c hc).here
  unfold argumentsOf
  dsimp only
  split
  · exact exists_parameterArguments hch
  · split
    · exact exists_callArguments hch []
    · exact ⟨_, rfl⟩

theorem exists_ofNodes {callee list : Node} (hn : Readable src n) (hc : Readable src callee)
    (hl : Every (Readable src) list) : ∃ u, ofNodes src n (some list) (some callee) = .ok u := by
  obtain ⟨args, ha⟩ := exists_argumentsOf hl
  unfold ofNodes textOf
  rw [ha, hn.text?]
  change ∃ u, (callee.text? src >>= _) = _
  rw [hc.text?]
  exact ⟨_, rfl⟩

/-- In a tree of texts the walk does not fail. -/
theorem exists_atNode? (h : n.WellFormed src) (hn : Every (Readable src) n) (names : List String) :
    ∃ u, atNode? src names n = .ok u := by
  unfold atNode?
  cases hp : parts? n with
  | none => exact ⟨none, rfl⟩
  | some parts =>
    obtain ⟨callee, args⟩ := parts
    obtain ⟨list, rfl, hc, hl⟩ := parts_of_wellFormed h hn hp
    obtain ⟨u, hu⟩ := exists_ofNodes hn.here hc.here hl
    dsimp only
    rw [hc.here.text?, ok_bind, hu]
    split
    · split
      · exact ⟨_, rfl⟩
      · exact ⟨_, rfl⟩
    · exact ⟨_, rfl⟩

theorem exists_atNodes (h : ∀ n ∈ ns, ∃ u, atNode? src names n = .ok u) :
    ∃ uses, atNodes src names ns = .ok uses := by
  induction ns with
  | nil => exact ⟨[], rfl⟩
  | cons n ns ih =>
    obtain ⟨⟨u, hu⟩, hns⟩ := forall_mem_cons.1 h
    obtain ⟨uses, hus⟩ := ih hns
    rw [atNodes, hu, hus]
    exact ⟨_, rfl⟩

end Total

/-- A search that finds uses gives them without a note. -/
theorem searched_eq_ofValue {text : String} {hits : List Query.Match}
    (hs : Query.search text src root = .ok hits) (hu : ofMatches src keep hits = .ok uses) :
    searched src root text keep = .ofValue uses := by
  have hf : ((Query.search text src root).mapError Failure.noAnswer >>= ofMatches src keep) =
      .ok uses := by
    rw [hs]
    exact hu
  rw [searched, hf]
  rfl

/-- A query for uses finds those whose name passes its test, in the order in which they start. -/
theorem search_query {test value : String} {args : List String} (hp : Node.parse src = .ok root)
    (ht : test ∈ testNames) (hv : ReadsAs value args)
    (hd : Decides src (argsTest test args) passes) :
    Query.search (query test value) src root = .ok (root.preorder.filterMap (found? passes)) := by
  rw [Query.search, ofString_query ht hv, ok_bind]
  refine matchesFrom_eq (rfl : Query.rootKinds? _ = some useKinds) (by decide)
    (fun n hn hk => matchesAt_uses hd ((parse_wellFormed hp).of_mem_preorder hn) hk)
    (fun n hk => found?_of_not_use hk)
    (sorted_filterMap (fun n m hm => node_of_found? hm) (fun n m hm => ?_) (uses_sorted hp))
  by_contra hnot
  rw [found?_of_not_use fun hk => hnot (isUse_iff.2 hk)] at hm
  cases hm

theorem exists_walked (ht : decode src = .ok text) (hp : Node.parse src = .ok root)
    (names : List String) : ∃ uses, walked src root names = .ok uses :=
  exists_atNodes fun _ hn => exists_atNode? ((parse_wellFormed hp).of_mem_preorder hn)
    ((readable_of_parse ht hp).of_mem_preorder hn) names

/-- A query whose test passes the names that a walk looks for matches the uses that the walk finds. -/
theorem ofMatches_eq_walked (ht : decode src = .ok text) (hp : Node.parse src = .ok root)
    (hpa : ∀ n ∈ root.preorder, ∀ callee args, parts? n = some (callee, args) →
      callee.kind = "identifier" → passes callee = names.contains (decodeLossy (callee.text src))) :
    ofMatches src (fun _ => .ok true) (root.preorder.filterMap (found? passes)) = walked src root names :=
  ofMatches_eq fun n hn => atNode?_eq_of_passes ((parse_wellFormed hp).of_mem_preorder hn)
    ((readable_of_parse ht hp).of_mem_preorder hn) (hpa n hn)

theorem isNamed_eq (src : Bytes) (name : String) (n : Node) :
    isNamed src name n = [name].contains (decodeLossy (n.text src)) := by
  rw [contains_cons, contains_nil, Bool.or_false, isNamed]

/-- What a walk finds, the query for the name finds. -/
theorem named_of_walked (ht : decode src = .ok text) (hp : Node.parse src = .ok root)
    (hq : '"' ∉ name.toList) (hes : '\\' ∉ name.toList)
    (hu : walked src root [name] = .ok uses) : named src root name = .ofValue uses :=
  searched_eq_ofValue (search_query hp (by decide)
    (readsAs_of_sealed (sealed_of_plain hq hes)) (decides_name src hq))
    ((ofMatches_eq_walked ht hp fun _ _ callee _ _ _ => isNamed_eq src name callee).trans hu)

/-- In the tree of a text, the query for a name finds the uses that a walk finds, in the same order. -/
theorem named_eq_walked {text : String} (htext : Utf8.decode src = .ok text)
    (hparse : Node.parse src = .ok root) (hquote : '"' ∉ name.toList) (hescape : '\\' ∉ name.toList) :
    ∃ uses, walked src root [name] = .ok uses ∧ named src root name = .ofValue uses := by
  obtain ⟨uses, huses⟩ := exists_walked htext hparse [name]
  exact ⟨uses, huses, named_of_walked htext hparse hquote hescape huses⟩

/-- A use with a block that holds another use, and a function that looks like one. -/
theorem named_eq_walked_nested :
    let text := "M(a, \"é\") \x7b\n M(b + c); N(M);\n\x7d\nint M(int d) \x7b \x7d"
    let src := Bytes.ofString text
    ∃ root uses, Node.parse src = .ok root ∧ walked src root ["M"] = .ok uses ∧
      named src root "M" = .ofValue uses ∧
      uses.map (fun u => (u.arguments, u.text, u.line)) =
        [(["a", "\"é\""], "M(a, \"é\")", 1), (["b + c"], "M(b + c)", 2), (["d"], "int M(int d)", 4)] := by
  intro text src
  have hrun : (do
      let root ← (Node.parse src).toOption
      let uses ← (walked src root ["M"]).toOption
      return uses.map fun u => (u.arguments, u.text, u.line)) =
        some [(["a", "\"é\""], "M(a, \"é\")", 1), (["b + c"], "M(b + c)", 2),
          (["d"], "int M(int d)", 4)] := by
    decide +kernel
  simp only [bind, pure, bind_eq_some_iff, toOption_eq_some, some.injEq] at hrun
  obtain ⟨root, hparse, uses, huses, hrun⟩ := hrun
  obtain ⟨uses', hwalked, hnamed⟩ := named_eq_walked (Utf8.decode_ofString text) hparse
    (by decide : '"' ∉ "M".toList) (by decide)
  cases huses.symm.trans hwalked
  exact ⟨root, uses, hparse, hwalked, hnamed, hrun⟩

end MacroUse

end Excerpt
