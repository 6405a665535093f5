import Excerpt.Proofs.Cpp.FirstRecord

/-!
# Classes by query

A class can be asked for by a query as well. A class that has a name starts before all
classes in its body, so the query captures the classes of a name in the order of the source
(`search_recordQuery`). The walk over the tree gives the first node that introduces the name.
If that is always a class outside the functions of templates, both give the first
class of the name (`queriedRecord_agrees`).
-/

namespace Excerpt

open List Option Outcome Token

theorem Node.IsWord.start_lt_stop {src : Bytes} {n : Node} (h : n.IsWord (scan src)) :
    n.start < n.stop := by
  obtain ⟨t, ht, hk, hs⟩ := h
  rw [Node.start, Node.stop, hs]
  exact start_lt_stop_of_word ht hk

namespace Cpp

open Node Query

variable {src : Bytes} {cs : List Char} {name : String} {n d root : Node} {p : Place}
  {above : List Node}

/-- The kinds of nodes that the query asks for. -/
def queriedKinds : List String := ["struct_specifier", "class_specifier"]

def isRecordOf (src : Bytes) (name : String) (n : Node) : Bool :=
  calls src "type_identifier" name n && queriedKinds.contains n.kind

/-! ## Named classes -/

/-- A class of a name has a word for its name, which stands before its body. -/
theorem exists_label (hwf : n.WellFormed src) (hle : Legible (scan src) n)
    (h : isRecordOf src name n) :
    ∃ label body, n.children = label :: body ∧ n.childOf? ["type_identifier"] = some label ∧
      label.kind = "type_identifier" ∧ label.children = [] ∧ label.IsWord (scan src) ∧
      label.written src = name := by
  obtain ⟨hca, hki⟩ := Bool.and_eq_true_iff.1 h
  have hk : ∀ k ∈ queriedKinds, k ∈ classKinds := by decide
  have hcl := hk _ (contains_iff_mem.1 hki)
  obtain ⟨named, body, hc, hl, hf, -⟩ := hwf.form.record_cases hcl
  rw [calls, hf] at hca
  cases named with
  | none => cases hca
  | some label =>
    have hl := hl label rfl
    obtain ⟨-, hn⟩ := Bool.and_eq_true_iff.1 hca
    refine ⟨label, body.toList, hc, ?_, hl, ?_, ?_, beq_iff_eq.1 hn⟩
    · rw [childOf?, hc]
      exact find?_cons_of_pos (by simp [hl])
    · exact (hwf.field hf).form.children_of_flat (by rw [hl]; decide)
    · exact hle.record hcl label (by rw [hc]; exact mem_cons_self) hl

theorem isRecordOf_iff (hsrc : Utf8.Spells src cs) (hwf : n.WellFormed src)
    (hl : Legible (scan src) n) : isRecordOf src name n ↔
      (Introduces src name n ∧ name ≠ "") ∧ n.kind ∈ queriedKinds := by
  have hki : ∀ k ∈ queriedKinds, k ∈ classKinds ∧ k ∈ introducingKinds ∧ k ≠ "declaration" := by decide
  constructor
  · intro h
    have hk := contains_iff_mem.1 (Bool.and_eq_true_iff.1 h).2
    obtain ⟨-, hin, hnot⟩ := hki _ hk
    obtain ⟨label, body, -, hc, -, -, hwo, rfl⟩ := exists_label hwf hl h
    exact ⟨⟨⟨hin, by rw [ownName, if_neg hnot, hc]; rfl⟩, (hwo.wordy hsrc).ne_empty⟩, hk⟩
  · rintro ⟨⟨hintroduces, -⟩, hk⟩
    obtain ⟨hcl, -, hnot⟩ := hki _ hk
    have hn := hintroduces.named
    rw [ownName, if_neg hnot] at hn
    obtain ⟨c, hc, hw⟩ := map_eq_some_iff.1 hn
    obtain ⟨named, body, hch, hla, hf, hb⟩ := hwf.form.record_cases hcl
    have hkindC : c.kind = "type_identifier" := by simpa using find?_some hc
    -- the body is no name, so the field is what is found among the children
    have hf : n.field? "name" = some c := by
      rw [hf]
      have hmem := mem_of_find?_eq_some hc
      rw [childOf?, hch] at hc
      cases named with
      | none =>
        rw [hch] at hmem
        have hnot := hb c (mem_toList.1 hmem)
        exact absurd (hkindC.symm.trans hnot) (by decide)
      | some label =>
        rw [toList_some, singleton_append, find?_cons_of_pos (by simp [hla label rfl])] at hc
        exact hc
    rw [isRecordOf, calls, hf, any_some, hkindC, contains_iff_mem.2 hk, Bool.and_true,
      beq_self_eq_true, Bool.true_and]
    exact beq_iff_eq.2 hw

/-- The name of a class stands before all classes in it. -/
theorem leads_of_isRecordOf (hl : Layout n) (hwf : n.WellFormed src)
    (hlegible : Legible (scan src) n) : Node.Leads (isRecordOf src name) n := by
  refine ⟨hl, fun hn => ?_, fun hn c hc u hu hr hle => ?_⟩
  · obtain ⟨label, body, hch, -, -, -, hw, -⟩ := exists_label hwf hlegible hn
    have hin := hl.inside label (by rw [hch]; exact mem_cons_self)
    have hlt := hw.start_lt_stop
    omega
  · obtain ⟨label, body, hch, -, hk, hnil, hw, -⟩ := exists_label hwf hlegible hn
    have hin := hl.inside label (by rw [hch]; exact mem_cons_self)
    have hlt := hw.start_lt_stop
    have ho := hl.ordered
    rw [hch] at hc ho
    rcases mem_cons.1 hc with rfl | hc
    · rcases Node.mem_preorder.1 hu with rfl | ⟨e, he, -⟩
      · have hq := contains_iff_mem.1 (Bool.and_eq_true_iff.1 hr).2
        rw [hk] at hq
        exact absurd hq (by decide)
      · rw [hnil] at he
        cases he
    · have hb := (pairwise_cons.1 ho).1 c hc
      omega

/-! ## The query -/

theorem toList_recordQuery (name : String) : (anyOf (recordPatterns name)).toList =
      namedChars "type_identifier" "@result" "struct_specifier" "class_specifier" name "]" := by
  have hjoin : ∀ a b : String, String.intercalate "\n" [a, b] = a ++ "\n" ++ b := fun _ _ => rfl
  have hkind : " name: (type_identifier) " = " name: (" ++ "type_identifier" ++ ") " := rfl
  have hopen : ") @name (#eq? @name" = ") " ++ "@" ++ "name" ++ " (#eq? @" ++ "name" := rfl
  have hclose : "\")\n" = "\"" ++ ")\n" ∧ ")\n) " = ")\n" ++ ") " := ⟨rfl, rfl⟩
  have hlast : ") @result" = ") " ++ "@result" := rfl
  have hquote : " \"".toList = [' ', '"'] ∧ "\"".toList = ['"'] := ⟨rfl, rfl⟩
  unfold anyOf recordPatterns calledTest namedChars namedText
  dsimp only [toString, id, map]
  simp only [hjoin, hkind, hopen, hclose.1, hclose.2, hlast, hquote.1, hquote.2, String.toList_append,
    append_assoc, cons_append, nil_append]

/-- The query for a class captures the classes of the name in the order of the source. -/
theorem search_recordQuery (hq : '"' ∉ name.toList) (hes : '\\' ∉ name.toList)
    (hl : Every (Node.Leads (isRecordOf src name)) root) :
    ∃ ms, Query.search (anyOf (recordPatterns name)) src root = .ok ms ∧
      ms.flatMap (·.nodes "result") = root.preorder.filter (isRecordOf src name) := by
  have hqu := ofString_named (toList_recordQuery name)
    (readsAs_of_sealed (sealed_of_plain hq hes)) (part_of_ascii (by decide)) (part_of_ascii (by decide))
    (part_of_ascii (by decide)) (by decide) (rfl : _ = '@' :: "result".toList)
  refine exists_search (namedCaptures "result") hqu rfl (by decide) (fun _ => rfl) (fun n _ _ => ?_)
    (inOrder_of_leads hl).sorted
  have htry := tryAt_named src "type_identifier" "result" (quoted name) [] n
  rwa [value_quoted hq] at htry

/-! ## The first class -/

section First

variable {P : Node → Prop} {q : Node → Bool} {r : Option Node}

theorem preorderAll_eq_flatMap (ns : List Node) : preorderAll ns = ns.flatMap preorder := by
  induction ns with
  | nil => rfl
  | cons n ns ih => rw [preorderAll, ih, flatMap_cons]

/-- The first node with a property is the one that a walk over the tree meets first. -/
theorem FirstBelow.find? (h : FirstBelow P n p above d) (hq : ∀ m ∈ n.preorder, q m ↔ P m) :
    n.preorder.find? q = some d := by
  obtain ⟨hb, hd, hf⟩ := h
  induction hb with
  | here n => rw [preorder_eq, find?_cons_of_pos ((hq n (mem_preorder_self n)).2 hd)]
  | @child n c m i p above hch hb ih =>
    have hc : ∀ (j : Nat) (e : Node), n.children[j]? = some e →
        ∀ m ∈ e.preorder, m ∈ n.preorder := fun j e he m hm =>
      Node.mem_preorder.2 (.inr ⟨e, mem_of_getElem? he, hm⟩)
    have hnot : ¬ q n := fun hn =>
      hf [] [] n (.here n) ((hq n (mem_preorder_self n)).1 hn) (nil_lt_cons ..)
    rw [preorder_eq, find?_cons_of_neg hnot, preorderAll_eq_flatMap, find?_flatMap, findSome?_eq_some_iff]
    obtain ⟨hi, rfl⟩ := List.getElem?_eq_some_iff.1 hch
    refine ⟨n.children.take i, _, n.children.drop (i + 1), by simp, ih ?_ hd ?_, fun e he => ?_⟩
    · exact fun m hm => hq m (hc i _ hch m hm)
    · exact fun p' above' d' hb' hd' hlt =>
        hf _ _ _ (.child hch hb') hd' (cons_lt_cons_iff.2 (.inr ⟨rfl, hlt⟩))
    · -- all nodes in an earlier child come before
      obtain ⟨j, hj, rfl⟩ := mem_take_iff_getElem.1 he
      refine find?_eq_none.2 fun m hm hqm => ?_
      have hchildJ : n.children[j]? = some n.children[j] := getElem?_eq_getElem _
      obtain ⟨p', above', hb'⟩ := exists_below hm
      exact hf _ _ _ (.child hchildJ hb') ((hq m (hc j _ hchildJ m hm)).1 hqm)
        (cons_lt_cons_iff.2 (.inl (by omega)))

theorem GivesFirst.eq_find? (h : GivesFirst P root r) (hq : ∀ m ∈ root.preorder, q m ↔ P m)
    (ho : ∀ p above d, Below root p above d → P d → ¬ InTemplateFunction above d) :
    r = root.preorder.find? q := by
  cases h with
  | none h =>
    refine (find?_eq_none.2 fun m hm hqm => ?_).symm
    obtain ⟨p, above, hb⟩ := exists_below hm
    exact h p above m hb ((hq m hm).1 hqm)
  | some h =>
    rw [h.find? hq, standsFor_eq_self (ho _ _ _ h.below h.holds)]

end First

/-- A name without qualifiers is asked for that only classes have, none of them in the function of a
template. The query and the walk over the tree give the same answer: the first class of the name, or
nothing if there is none. The query makes no note. -/
theorem queriedRecord_agrees {text : String} (htext : Utf8.decode src = .ok text)
    (hcpp : Dialect.guess src = .cpp) (hroot : Node.parse src = .ok root)
    (hplain : Text.contains name "::" = false) (hquote : '"' ∉ name.toList) (hescape : '\\' ∉ name.toList)
    (hclasses : ∀ d ∈ root.preorder, Introduces src name d → d.kind ∈ memberKinds)
    (houtside : ∀ p above d, Below root p above d → Introduces src name d →
      ¬ InTemplateFunction above d) :
    ∃ found, record src root name = .ok found ∧ queriedRecord src root name = .ofValue found ∧
      found.map Definition.node = root.preorder.find? (isRecordOf src name) := by
  have hsrc := Utf8.spells_of_decode htext
  have hwf := parse_wellFormed hroot
  have hlegible := legible_of_parse hcpp hroot
  have hreadable := readable_of_parse htext hroot
  have hkinds : ∀ k ∈ memberKinds, k ∈ queriedKinds := by decide
  have hrecord : ∀ m ∈ root.preorder, isRecordOf src name m = true ↔ Introduces src name m ∧ name ≠ "" := fun
    m hm => (isRecordOf_iff hsrc (hwf.of_mem_preorder hm) (hlegible.of_mem_preorder hm).here).trans
    (and_iff_left_of_imp fun h => hkinds _ (hclasses m hm h.1))
  obtain ⟨r, hfind, hgives⟩ := findsFirst_of_judges hsrc (fun m hm => hm.1.mem_declaringKinds)
    (fun n => judges_introducing Iff.rfl hsrc) root hwf hlegible hreadable []
  have hleads : Every (Node.Leads (isRecordOf src name)) root := every_of_forall fun m hm =>
    leads_of_isRecordOf (layout_of_parse hroot hm) (hwf.of_mem_preorder hm)
      (hlegible.of_mem_preorder hm).here
  obtain ⟨ms, hsearch, hnodes⟩ := search_recordQuery hquote hescape hleads
  have hr := hgives.eq_find? hrecord fun p above d hbelow hd => houtside p above d hbelow hd.1
  have hhead : (ms.findSome? fun m => (m.nodes "result").head?) = r := by
    rw [← head?_flatMap, hnodes, head?_filter, hr]
  obtain ⟨found, hfound, hnode⟩ := exists_definition? name fun m hm =>
    (hreadable.of_mem_preorder (hgives.mem_preorder m hm)).here
  refine ⟨found, ?_, ?_, hnode.trans hr⟩
  · rw [record, find, ofString_unqualified hplain]
    exact Outcome.bind_eq_ok.2 ⟨r, hfind, hfound⟩
  · rw [queriedRecord, ofString_unqualified hplain]
    change queried src root name (anyOf (recordPatterns name)) = _
    rw [queried, hsearch]
    dsimp only
    rw [hhead]
    cases r with
    | none =>
      cases hfound
      rfl
    | some m =>
      obtain ⟨d, hd, heq⟩ := Outcome.bind_eq_ok.1 hfound
      cases heq
      dsimp only
      rw [hd]
      rfl

/-- Of a class that is declared, defined and defined again within another class, both give the
declaration. -/
theorem queriedRecord_agrees_nested :
    let src := Bytes.ofString "struct T \x7b class S; struct S \x7b\x7d; \x7d; class S \x7b\x7d;"
    ∃ (root : Node) (given : Definition), Node.parse src = .ok root ∧
      record src root "S" = .ok (some given) ∧ queriedRecord src root "S" = .ofValue (some given) ∧
      given.node.start = 11 := by
  intro src
  have hrun : (do
      let root : Node ← (Node.parse src).toOption
      let found : Option Definition ← (record src root "S").toOption
      let given : Definition ← found
      return (root.preorder.all fun d =>
          !(["enum_specifier", "declaration", "template_declaration"].contains d.kind)) &&
        given.node.start == 11) = some true := by
    decide +kernel
  simp only [bind, pure, bind_eq_some_iff, toOption_eq_some, some.injEq,
    Bool.and_eq_true, beq_iff_eq, List.all_eq_true] at hrun
  obtain ⟨root, hroot, found, hfound, given, rfl, hkinds, hstart⟩ := hrun
  have hnone : ∀ d ∈ root.preorder,
      d.kind ∉ ["enum_specifier", "declaration", "template_declaration"] := by simpa using hkinds
  have hclasses : ∀ d ∈ root.preorder, Introduces src "S" d → d.kind ∈ memberKinds := by
    have hmember : ∀ k ∈ introducingKinds,
        k ∉ ["enum_specifier", "declaration", "template_declaration"] → k ∈ memberKinds := by decide
    exact fun d hd hintroduces => hmember _ hintroduces.kind (hnone d hd)
  have houtside : ∀ p above d, Below root p above d → Introduces src "S" d →
      ¬ InTemplateFunction above d := by
    rintro p above d hbelow - ⟨outer, t, c, inner, heq, ht, -⟩
    have hmem : t ∈ above ++ [d] := heq ▸ mem_append_right _ mem_cons_self
    rcases mem_append.1 hmem with hmem | hmem
    · exact (hbelow.every (every_of_forall hnone) t hmem).here (by simp [ht])
    · cases mem_singleton.1 hmem
      exact hnone _ hbelow.mem_preorder (by simp [ht])
  obtain ⟨found, hfound', hqueried, -⟩ := queriedRecord_agrees (Utf8.decode_ofString _)
    (by decide) hroot (by decide : Text.contains "S" "::" = false) (by decide) (by decide)
    hclasses houtside
  cases hfound.symm.trans hfound'
  exact ⟨root, given, hroot, hfound, hqueried, hstart⟩

end Cpp

end Excerpt
