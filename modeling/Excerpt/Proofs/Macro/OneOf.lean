import Excerpt.Proofs.Grammar.Descendant
import Excerpt.Proofs.Macro.Walk
import Excerpt.Proofs.Regex.Whole

/-!
# Uses of several macros, by query and by walk

The uses of several macros are found by a walk that compares names, or by a query
whose test is one expression made of all names. In the tree of a text the name of a
use does not end with a line feed (`text_callee_ne`), so the expression occurs in it
exactly if it is one of the names, and the two ways find the same uses. An
expression made of no names asks for nothing: there the query finds every use, and
the walk finds none.
-/

namespace Excerpt.MacroUse

open Query Node List Option Outcome Regex Utf8 Text Predicate

variable {src : Bytes} {root n callee : Node} {args : Option Node} {ns : List Node} {names : List String}
  {text : String} {uses : List MacroUse}

section Callee

/-- The name and the list of a use are children of one node, and neither is empty. -/
theorem exists_parent (hpa : Node.parse src = .ok root) (hn : n ∈ root.preorder)
    (hp : parts? n = some (callee, args)) :
    ∃ parent list, parent ∈ root.preorder ∧ parent.children = [callee, list] ∧
      Every (Inert src) callee ∧ list.start < list.stop := by
  have hw := (parse_wellFormed hpa).of_mem_preorder hn
  have hs : n.kind ∈ useKinds → Every (Settled src) n := by
    intro huse
    refine (eq_or_settled hpa hn).resolve_left ?_
    rintro rfl
    rw [← isUse_iff, isUse_root hpa] at huse
    cases huse
  have hfi : ∀ {m more}, n.children = m :: more → n.kind ∈ useKinds → Every (Inert src) m := by
    intro m more hc huse
    obtain ⟨m', more', hc', hm'⟩ := (hs huse).here.use huse
    rw [hc] at hc'
    cases hc'
    exact hm'
  by_cases hca : n.kind = "call_expression"
  · have huse : n.kind ∈ useKinds := hca ▸ mem_cons_self
    obtain ⟨name, list, hc, hf, -⟩ := hw.form.call_cases hca
    obtain ⟨name', list', hn', -, -, heq⟩ := parts?_of_call hw hca
    cases hp.symm.trans heq
    have hna : n.field? "function" = some name := by
      rw [Node.field?, hf, hc]
      rfl
    cases hna.symm.trans hn'
    exact ⟨n, list, hn, hc, hfi hc huse,
      (hs huse).here.call hca list (by simp [hc])⟩
  by_cases hd : n.kind = "function_definition"
  · have huse : n.kind ∈ useKinds := hd ▸ mem_cons_of_mem _ mem_cons_self
    obtain ⟨d, body, hc, hf⟩ := hw.form.functionDefinition_cases hd
    have hfield : n.field? "declarator" = some d := by
      rw [Node.field?, hf, hc]
      rfl
    obtain ⟨d', hd', ⟨-, hno⟩ | ⟨name', list', hk, hn', -, -, heq⟩⟩ :=
      parts?_of_definition hw hd
    · cases hp.symm.trans hno
    · cases hp.symm.trans heq
      cases hfield.symm.trans hd'
      have hmem : d ∈ n.children := by simp [hc]
      obtain ⟨name, list, hin, hnames, -⟩ := (hw.child d hmem).form.functionDeclarator_cases hk
      have hna : d.field? "declarator" = some name := by
        rw [Node.field?, hnames, hin]
        rfl
      cases hna.symm.trans hn'
      have hinert := hfi hc huse
      exact ⟨d, list, mem_preorder_child hn hmem, hin, hinert.child _ (by simp [hin]),
        (hinert.child list (by simp [hin])).here.lt⟩
  · rw [parts?, if_neg (by simpa using hca), if_neg (by simpa using hd)] at hp
    cases hp

/-- The bytes of a name that is an identifier do not end with a line feed. -/
theorem getLast?_callee_ne (hp : Node.parse src = .ok root) (hn : n ∈ root.preorder)
    (hparts : parts? n = some (callee, args)) (hk : callee.kind = "identifier") :
    (callee.text src).getLast? ≠ some Bytes.newline := by
  obtain ⟨parent, list, hpa, hch, hca, hl⟩ := exists_parent hp hn hparts
  have hmem : callee ∈ root.preorder := mem_preorder_child hpa (by simp [hch])
  have hstop := stop_le_length hp (mem_preorder_child hpa (by simp [hch] : list ∈ _))
  have ho := (layout_of_parse hp hpa).ordered
  rw [hch] at ho
  have hle := (pairwise_cons.1 ho).1 list mem_cons_self
  have hlt := hca.here.lt
  have hno := ((parse_wellFormed hp).of_mem_preorder hmem).form.children_of_flat (by rw [hk]; decide)
  have hs : (callee.text src).getLast? = (src.take callee.stop).getLast? := by
    rw [Node.text, Bytes.slice, getLast?_drop, if_neg]
    rw [length_take]
    omega
  rw [hs]
  cases hca.here.ends with
  | @token t ht hts _ =>
    rw [hts]
    refine Token.getLast?_take_stop_ne ht fun hf => ?_
    -- the end of the source stands behind the list
    obtain ⟨hst, hte⟩ := Token.start_of_finish ht hf
    rw [hts, Token.stop, hst, hte] at hle
    omega
  | child hc => simp [hno] at hc
  | array h => simp [hk] at h
  | definition h => simp [hk] at h

/-- The text of a name that is an identifier does not end with a line feed. -/
theorem text_callee_ne (ht : decode src = .ok text) (hp : Node.parse src = .ok root)
    (hn : n ∈ root.preorder) (hpa : parts? n = some (callee, args))
    (hk : callee.kind = "identifier") (cs : List Char) :
    (decodeLossy (callee.text src)).toList ≠ cs ++ ['\n'] := by
  intro heq
  obtain ⟨parent, list, hparent, hc, -⟩ := exists_parent hp hn hpa
  have hmem : callee ∈ root.preorder := mem_preorder_child hparent (by simp [hc])
  obtain ⟨s, hs⟩ := ((readable_of_parse ht hp).of_mem_preorder hmem).here
  rw [decodeLossy_of_decode hs] at heq
  exact getLast?_callee_ne hp hn hpa hk (getLast?_of_decode hs heq (by decide))

end Callee

section Expression

theorem toList_oneOfExpression (names : List String) : (oneOfExpression names).toList =
      List.intercalate ['|'] ((names.map String.toList).map anchored) := by
  have hbar : "|".toList = ['|'] := by decide
  rw [oneOfExpression, Text.join, String.toList_ofList, hbar, List.map_map, List.map_map]
  refine congrArg _ (map_congr_left fun name _ => ?_)
  simp [anchored]

/-- A mark that is no word character and stands in no list of names does not stand in the expression. -/
theorem not_mem_oneOfExpression (hn : ∀ name ∈ names, ∀ c ∈ name.toList, isWord c)
    {d : Char} (hd : isWord d = false) (hm : d ∉ ['^', '$', '|']) :
    d ∉ (oneOfExpression names).toList := by
  have hm' := hm
  simp only [mem_cons, not_mem_nil, or_false, not_or] at hm'
  refine not_mem_join (by simpa using hm'.2.2) fun s hs => ?_
  obtain ⟨name, hna, rfl⟩ := List.mem_map.1 hs
  simp only [String.toList_append, mem_append, not_or]
  exact ⟨⟨by simpa using hm'.1, fun hmem => ne_of_isWord (hn name hna d hmem) hd rfl⟩,
    by simpa using hm'.2.1⟩

/-- The expression of no names is read as asking for nothing, and any other as the choice between the
names. -/
theorem ofString_oneOfExpression (hna : ∀ name ∈ names, ∀ c ∈ name.toList, isWord c) :
    ∃ r, Regex.ofString (oneOfExpression names) = .ok r ∧ ∀ s : String, r.occursIn s ↔
      names = [] ∨ ∃ name ∈ names, s.toList = name.toList ∨ s.toList = name.toList ++ ['\n'] := by
  rw [Regex.ofString, toList_oneOfExpression]
  cases names with
  | nil =>
    refine ⟨.nothing, ?_, fun s => by simp [occursIn_nothing]⟩
    rw [map_nil, map_nil, intercalate_nil, readFrom_nil]
    rfl
  | cons name names =>
    have hw : ∀ n ∈ name.toList :: names.map String.toList, ∀ c ∈ n, isWord c := by
      intro n hn
      obtain ⟨name', hn', rfl⟩ := List.mem_map.1 (map_cons ▸ hn : n ∈ (name :: names).map _)
      exact hna name' hn'
    refine ⟨_, readFrom_names hw [], fun s => ?_⟩
    rw [foldl_nil, occursIn_anyOf_iff, ← map_cons (f := String.toList)]
    simp

theorem decides_match (src : Bytes) {value : String} {r : Regex} (hq : '"' ∉ value.toList)
    (hr : Regex.ofString value = .ok r) :
    Decides src (nameTest "#match?" value) fun n => r.occursIn (decodeLossy (n.text src)) := by
  intro n list
  have hs : (captured n list).get? (subject "@macro_name") = some [n] := by
    rw [show subject "@macro_name" = "macro_name" by decide]
    rfl
  rw [holds, nameTest, argsTest]
  dsimp only
  rw [hs, value_quoted hq, hr]
  rfl

end Expression

section Shown

def useName? (src : Bytes) (n : Node) : Option String :=
  (parts? n).bind fun parts =>
    if parts.1.kind = "identifier" then some (decodeLossy (parts.1.text src)) else none

/-- The uses in a tree with their names, in the order in which they start. -/
def allUses (src : Bytes) (root : Node) : List (Node × String) :=
  root.preorder.filterMap fun n => (useName? src n).map (n, ·)

theorem useName?_eq (hp : parts? n = some (callee, args)) : useName? src n =
      if callee.kind = "identifier" then some (decodeLossy (callee.text src)) else none := by
  rw [useName?, hp, bind_some]

theorem atNode?_shown (h : n.WellFormed src) (hn : Every (Readable src) n) {u : Option MacroUse}
    (hu : atNode? src names n = .ok u) :
    u.map (fun u => (u.node, u.name)) = ((useName? src n).filter (names.contains ·)).map (n, ·) := by
  unfold atNode? at hu
  cases hp : parts? n with
  | none =>
    rw [hp] at hu
    cases hu
    rw [useName?, hp]
    rfl
  | some parts =>
    obtain ⟨callee, args⟩ := parts
    obtain ⟨-, -, hca, -⟩ := parts_of_wellFormed h hn hp
    rw [hp] at hu
    dsimp only at hu
    rw [hca.here.text?, ok_bind] at hu
    rw [useName?_eq hp]
    split at hu
    · next hk =>
        rw [if_pos (beq_iff_eq.1 hk), filter_some]
        split at hu
        · next hc =>
            obtain ⟨u, hm, hu⟩ := Outcome.bind_eq_ok.1 hu
            cases hu
            obtain ⟨hno, -, hna⟩ := ofNodes_eq_ok hm
            have hna := Except.ok.inj (hca.here.text?.symm.trans (hna callee rfl))
            rw [if_pos hc, map_some, map_some, hno, hna]
        · next hc =>
            cases hu
            rw [if_neg hc]
            rfl
    · next hk =>
        cases hu
        rw [if_neg (by simpa using hk)]
        rfl

/-- A walk finds the uses whose names are among the names, in the order of the nodes. -/
theorem atNodes_shown (h : ∀ n ∈ ns, n.WellFormed src ∧ Every (Readable src) n)
    (hus : atNodes src names ns = .ok uses) : uses.map (fun u => (u.node, u.name)) =
      (ns.filterMap fun n => (useName? src n).map (n, ·)).filter (names.contains ·.2) := by
  induction ns generalizing uses with
  | nil =>
    cases hus
    rfl
  | cons n ns ih =>
    obtain ⟨⟨hw, hr⟩, hns⟩ := forall_mem_cons.1 h
    obtain ⟨u, hu, hus⟩ := Outcome.bind_eq_ok.1 hus
    obtain ⟨rest, hre, hus⟩ := Outcome.bind_eq_ok.1 hus
    cases hus
    have hs := atNode?_shown hw hr hu
    rw [map_append, ih hns hre, ← toList_map, hs, filterMap_cons]
    cases useName? src n with
    | none => rfl
    | some name =>
      rw [filter_some, map_some]
      rw [filter_cons]
      split
      · rfl
      · rfl

theorem isUse_of_useName? {name : String} (h : useName? src n = some name) : n.isUse := by
  obtain ⟨parts, hp, -⟩ := bind_eq_some_iff.1 h
  rw [isUse_iff]
  by_cases hc : n.kind = "call_expression"
  · simp [useKinds, hc]
  by_cases hd : n.kind = "function_definition"
  · simp [useKinds, hd]
  · rw [parts?, if_neg (by simpa using hc), if_neg (by simpa using hd)] at hp
    cases hp

theorem allUses_sorted (hp : Node.parse src = .ok root) :
    (allUses src root).Pairwise (·.1.start < ·.1.start) := by
  have hk : allUses src root =
      (root.preorder.filter isUse).filterMap fun n => (useName? src n).map (n, ·) := by
    rw [allUses, filterMap_filter]
    refine filterMap_congr fun n _ => ?_
    split
    · rfl
    · next hn =>
        rw [map_eq_none_iff]
        exact eq_none_iff_forall_not_mem.2 fun name hna => hn (isUse_of_useName? hna)
  rw [hk, pairwise_filterMap]
  refine (uses_sorted hp).imp fun hlt a ha b hb => ?_
  obtain ⟨-, -, rfl⟩ := map_eq_some_iff.1 ha
  obtain ⟨-, -, rfl⟩ := map_eq_some_iff.1 hb
  exact hlt

theorem walked_shown (ht : decode src = .ok text) (hp : Node.parse src = .ok root)
    (hu : walked src root names = .ok uses) :
    uses.map (fun u => (u.node, u.name)) = (allUses src root).filter (names.contains ·.2) :=
  atNodes_shown (fun _ hn => ⟨(parse_wellFormed hp).of_mem_preorder hn,
    (readable_of_parse ht hp).of_mem_preorder hn⟩) hu

end Shown

/-- The expression finds what a walk for `wanted` finds, if it occurs in the name of a use exactly when
the name is wanted. -/
theorem oneOf_eq_of_occurs {wanted : List String} (ht : decode src = .ok text)
    (hp : Node.parse src = .ok root) (hna : ∀ name ∈ names, ∀ c ∈ name.toList, isWord c)
    (hw : ∀ u ∈ allUses src root, names = [] ∨ u.2 ∈ names ↔ u.2 ∈ wanted) :
    ∃ uses, walked src root wanted = .ok uses ∧ oneOf src root names = .ofValue uses := by
  have hq := not_mem_oneOfExpression hna (by decide : isWord '"' = false) (by decide)
  have hes := not_mem_oneOfExpression hna (by decide : isWord '\\' = false) (by decide)
  obtain ⟨r, hr, ho⟩ := ofString_oneOfExpression hna
  obtain ⟨uses, hu⟩ := exists_walked ht hp wanted
  have hs := search_query hp (by decide) (readsAs_of_sealed (sealed_of_plain hq hes))
    (decides_match src hq hr)
  refine ⟨uses, hu, searched_eq_ofValue hs ((ofMatches_eq_walked ht hp
    fun n hn callee args hpa hk => ?_).trans hu)⟩
  have hmem : (n, decodeLossy (callee.text src)) ∈ allUses src root := by
    refine mem_filterMap.2 ⟨n, hn, ?_⟩
    rw [useName?_eq hpa, if_pos hk, map_some]
  rw [Bool.eq_iff_iff, ho, contains_iff_mem, ← hw _ hmem]
  refine or_congr_right ⟨?_, fun h => ⟨_, h, .inl rfl⟩⟩
  rintro ⟨name, hname, heq | heq⟩
  · exact String.toList_inj.1 heq ▸ hname
  · exact absurd heq (text_callee_ne ht hp hn hpa hk _)

/-- In the tree of a text, a walk finds the uses whose names are among the names, in the order in which
they start, and the query for the names finds the same list, unless there are no names: then the query
finds every use. -/
theorem oneOf_eq_walked_iff (htext : Utf8.decode src = .ok text) (hparse : Node.parse src = .ok root)
    (hnames : ∀ name ∈ names, ∀ c ∈ name.toList, Text.isWord c = true) :
    ∃ found uses, oneOf src root names = .ofValue found ∧ walked src root names = .ok uses ∧
      uses.map (fun u => (u.node, u.name)) = (allUses src root).filter (names.contains ·.2) ∧
      (allUses src root).Pairwise (·.1.start < ·.1.start) ∧
      (names = [] → found.map (fun u => (u.node, u.name)) = allUses src root) ∧
      (found = uses ↔ names ≠ [] ∨ allUses src root = []) := by
  by_cases hnone : names = []
  · -- the query asks for nothing, as a walk for all names of the tree does
    have hwanted : ∀ u ∈ allUses src root, names = [] ∨ u.2 ∈ names ↔
        u.2 ∈ (allUses src root).map (·.2) :=
      fun u hu => iff_of_true (.inl hnone) (List.mem_map_of_mem hu)
    obtain ⟨found, hfound, hsearch⟩ := oneOf_eq_of_occurs htext hparse hnames hwanted
    have hall : found.map (fun u => (u.node, u.name)) = allUses src root := by
      rw [walked_shown htext hparse hfound, filter_eq_self]
      exact fun u hu => contains_iff_mem.2 (List.mem_map_of_mem hu)
    obtain ⟨uses, huses⟩ := exists_walked htext hparse names
    have hshown := walked_shown htext hparse huses
    have hempty : uses = [] := by
      rw [hnone] at hshown
      simpa using hshown
    refine ⟨found, uses, hsearch, huses, hshown, allUses_sorted hparse, fun _ => hall, ?_⟩
    rw [hempty, ← hall]
    simp [hnone]
  · obtain ⟨uses, huses, hsearch⟩ := oneOf_eq_of_occurs htext hparse hnames
      fun u _ => (or_iff_right hnone : _ ↔ u.2 ∈ names)
    exact ⟨uses, uses, hsearch, huses, walked_shown htext hparse huses, allUses_sorted hparse,
      fun h => absurd h hnone, iff_of_true rfl (.inl hnone)⟩

/-- A use with a block that holds the uses of three macros, one of which is not asked for. -/
theorem oneOf_eq_walked_iff_chosen :
    let text := "M(a) \x7b\n N(b); NN(c); M(d);\n\x7d"
    let src := Bytes.ofString text
    ∃ root found uses all, Node.parse src = .ok root ∧ oneOf src root ["N", "M"] = .ofValue found ∧
      walked src root ["N", "M"] = .ok uses ∧ found = uses ∧
      uses.map (·.text) = ["M(a)", "N(b)", "M(d)"] ∧ oneOf src root [] = .ofValue all ∧
      walked src root [] = .ok [] ∧ all.map (·.node.start) = [0, 8, 14, 21] := by
  intro text src
  have htext : Utf8.decode src = .ok text := Utf8.decode_ofString text
  have hrun : (do
      let root ← (Node.parse src).toOption
      let uses ← (walked src root ["N", "M"]).toOption
      return (uses.map (·.text), (allUses src root).map (·.1.start))) =
        some (["M(a)", "N(b)", "M(d)"], [0, 8, 14, 21]) := by
    decide +kernel
  simp only [bind, pure, bind_eq_some_iff, toOption_eq_some, some.injEq, Prod.mk.injEq] at hrun
  obtain ⟨root, hparse, uses, huses, htexts, hstarts⟩ := hrun
  have hwords : (["N", "M"].all fun name => name.toList.all Text.isWord) = true := by decide
  obtain ⟨found, uses', hfound, huses', -, -, -, hiff⟩ :=
    oneOf_eq_walked_iff htext hparse (by simpa only [List.all_eq_true] using hwords)
  obtain ⟨all, none, hall, hnone, hempty, -, hshown, -⟩ :=
    oneOf_eq_walked_iff htext hparse fun name (hname : name ∈ []) => absurd hname not_mem_nil
  cases huses.symm.trans huses'
  have hnil : none = [] := by simpa using hempty
  refine ⟨root, found, uses, all, hparse, hfound, huses', hiff.2 (.inl (cons_ne_nil _ _)), htexts,
    hall, hnil ▸ hnone, ?_⟩
  rw [← hstarts, ← hshown rfl, List.map_map]
  rfl

end Excerpt.MacroUse
