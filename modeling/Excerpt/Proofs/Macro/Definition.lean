import Excerpt.Proofs.Macro.Walk

/-!
# Definitions of macros, one by one and all at once

A definition starts with its keyword, so a walk over the tree meets definitions in
the order in which they start (`definitions_sorted`). Of the two queries, one finds all
definitions and the other those of one name (`captured_all`, `captured_named`). In the
tree of a text each of them can be read, so the definition of a name is the first of all
definitions that has the name (`first_of_all`).
-/

namespace Excerpt

open List Option Outcome

namespace Node

variable {src : Bytes} {n root : Node}

def isDefine (n : Node) : Bool :=
  defineKinds.contains n.kind

theorem isDefine_iff : n.isDefine ↔ n.kind ∈ defineKinds :=
  contains_iff_mem

/-- The keyword of a definition stands before all that is in it. -/
theorem leads_of_define (h : Settled src n) : Leads isDefine n := by
  refine ⟨h.toLayout, fun hn => ?_, fun hn c hc u _ _ hle => ?_⟩
  · obtain ⟨t, ht, hs, hst, -⟩ := (h.define (isDefine_iff.1 hn)).keyword
    have hlt := Token.start_lt_stop ht (Token.kind_ne_finish ht hs (by decide))
    have hstop := Token.stop_le_length ht
    exact h.full (by omega)
  · obtain ⟨t, ht, hs, hst, hch⟩ := (h.define (isDefine_iff.1 hn)).keyword
    have hlt := Token.start_lt_stop ht (Token.kind_ne_finish ht hs (by decide))
    have hb := hch c hc
    omega

theorem isDefine_root (h : parse src = .ok root) : root.isDefine = false := by
  have hn : ∀ k ∈ ["translation_unit", "source_file"], defineKinds.contains k = false := by decide
  exact hn _ (root_kind h)

/-- A walk over the tree of a source meets definitions in the order in which they start. -/
theorem definitions_sorted (h : parse src = .ok root) :
    (root.preorder.filter isDefine).Pairwise (·.start < ·.start) :=
  sorted_of_leads h (isDefine_root h) fun _ hm => leads_of_define hm

theorem Form.exists_name (h : Form src n) (hn : n.isDefine) :
    ∃ name, n.field? "name" = some name ∧ name.kind = "identifier" := by
  have hk := isDefine_iff.1 hn
  have ha : ∀ k ∈ defineKinds, k.toList.head?.any Char.isAlpha := by decide
  cases h with
  | definition hna => exact ⟨_, rfl, hna⟩
  | functionLikeDefinition hna hp => exact ⟨_, rfl, hna⟩
  | symbol hki => exact absurd_symbol hki rfl (ha _ hk)
  | flat hki | list hki | record hki | variableDeclarator hki => exact absurd_kinds hki hk (by decide)
  | _ => simp [defineKinds] at hk

end Node

namespace MacroDefinition

open Query Node MacroUse

variable {src : Bytes} {n root : Node} {ns : List Node} {name : String} {d : MacroDefinition}

section Text

variable {args : List String}

theorem toList_namedQuery (name : String) : (namedQuery name).toList =
      namedChars "identifier" "@macro" "preproc_def" "preproc_function_def" name "\n]" := by
  have hopen : " name: (identifier) @name (#eq? @name \"" =
      " name: (" ++ "identifier" ++ ") @name (#eq? @name" ++ " \"" := rfl
  have hclose : "\")\n) @macro\n" = "\"" ++ (")\n) " ++ "@macro" ++ "\n") := rfl
  have hlast : "\n]" = "\n" ++ "]" := rfl
  have hquote : " \"".toList = [' ', '"'] ∧ "\"".toList = ['"'] := ⟨rfl, rfl⟩
  unfold namedQuery namedChars namedText
  dsimp only [toString, id]
  simp only [hopen, hclose, hlast, hquote.1, hquote.2, String.toList_append, append_assoc, cons_append, nil_append]

theorem ofString_namedQuery (hn : ReadsAs name args) :
    Query.ofString (namedQuery name) = .ok ⟨defineKinds.map (namedPattern "identifier" "macro" args)⟩ :=
  ofString_named (toList_namedQuery name) hn (part_of_ascii (by decide)) (part_of_ascii (by decide))
    (part_of_ascii (by decide)) (by decide) rfl

theorem ofString_allQuery : Query.ofString allQuery = .ok ⟨defineKinds.map (kindPattern [] [] "macro")⟩ := by
  have ht : tokens allQuery.toList = ["[", "(", "preproc_def", ")", "@macro", "(",
      "preproc_function_def", ")", "@macro", "]"] :=
    (tokens_of_ascii (by decide)).trans (by decide)
  have hp : ∀ kind ∉ ["(", "["], ∀ rest, Reads (pattern ("(" :: kind :: ")" :: "@macro" :: rest))
      (kindPattern [] [] "macro" kind) rest := fun kind hk rest =>
    pattern_captured "macro" (bare_node hk (inside_close false .empty _)) rfl
  have hc := alternatives_cons (by decide) (hp "preproc_def" (by decide) _)
    (alternatives_cons (by decide) (hp "preproc_function_def" (by decide) _) (alternatives_close []))
  rw [Query.ofString, ht, patternsOf_cons (pattern_last (bare_choice hc)) (by rw [patternsOf])]
  rfl

end Text

section Matches

/-- A query for definitions captures those that pass its tests, in the order in which they start. -/
theorem captured_eq {text : String} {fields : List (String × Pattern)} {tests : List Predicate}
    (passes : Node → Bool) (caps : Node → Captures) (hp : Node.parse src = .ok root)
    (hq : Query.ofString text = .ok ⟨defineKinds.map (kindPattern fields tests "macro")⟩)
    (hc : ∀ n, (caps n).get? "macro" = some [n])
    (htry : ∀ n, ∃ cs, (kindPattern fields tests "macro" n.kind).tryAt src n [] = .ok (passes n, cs) ∧
      (passes n → cs = caps n)) :
    captured src root text = .ok ((root.preorder.filter isDefine).filter passes) := by
  have hs : (root.preorder.filter fun n => passes n && defineKinds.contains n.kind).Pairwise
      (·.start < ·.start) := by
    rw [← List.filter_filter]
    exact (definitions_sorted hp).filter passes
  obtain ⟨ms, hms, hn⟩ := exists_search caps hq rfl (by decide) hc (fun n _ _ => htry n) hs
  rw [captured, hms, List.filter_filter]
  exact congrArg Except.ok hn

theorem captured_all (hp : Node.parse src = .ok root) :
    captured src root allQuery = .ok (root.preorder.filter isDefine) := by
  have hc := captured_eq (fun _ => true) (fun n => [("macro", [n])]) hp ofString_allQuery
    (fun _ => rfl) fun n => ?_
  · simpa using hc
  · refine ⟨_, ?_, fun _ => rfl⟩
    rw [kindPattern, Pattern.tryAt_leaf, if_pos rfl]
    rfl

def defines (src : Bytes) (name : String) (n : Node) : Bool :=
  (n.field? "name").any (isNamed src name)

/-- The query for a name captures the definitions whose name is the first value of its test. -/
theorem captured_named {value : String} {args : List String} (hp : Node.parse src = .ok root)
    (hna : ReadsAs name (value :: args)) : captured src root (namedQuery name) =
      .ok ((root.preorder.filter isDefine).filter (defines src (Predicate.value value))) := by
  rw [captured_eq _ (namedCaptures "macro") hp (ofString_namedQuery hna) (fun _ => rfl)
    (tryAt_named src "identifier" "macro" value args)]
  refine congrArg Except.ok (filter_congr fun n hn => ?_)
  obtain ⟨hn, hd⟩ := mem_filter.1 hn
  obtain ⟨m, hm, hk⟩ := ((parse_wellFormed hp).of_mem_preorder hn).form.exists_name hd
  rw [calls, defines, hm, any_some, any_some, hk, beq_self_eq_true, Bool.true_and]

theorem find?_eq (hp : Node.parse src = .ok root) (hq : '"' ∉ name.toList)
    (hes : '\\' ∉ name.toList) : find? src root name =
      ((root.preorder.filter isDefine).filter (defines src name)).head?.elim (.ok none) (ofNode? src) := by
  have hc := captured_named hp (readsAs_of_sealed (sealed_of_plain hq hes))
  rw [value_quoted hq] at hc
  rw [find?, hc, ok_bind]
  cases ((root.preorder.filter isDefine).filter (defines src name)).head? with
  | none => rfl
  | some n => rfl

end Matches

section Read

theorem ofNode?_eq_some (h : ofNode? src n = .ok (some d)) : d.node = n ∧ n.text? src = .ok d.text ∧
      ∃ m, n.field? "name" = some m ∧ m.text? src = .ok d.name := by
  obtain ⟨text, ht, h⟩ := Outcome.bind_eq_ok.1 h
  cases hf : n.field? "name" with
  | none =>
    rw [hf] at h
    cases h
  | some m =>
    rw [hf] at h
    obtain ⟨name, hn, h⟩ := Outcome.bind_eq_ok.1 h
    split at h
    · obtain ⟨params, -, h⟩ := Outcome.bind_eq_ok.1 h
      cases h
      exact ⟨rfl, ht, m, rfl, hn⟩
    · cases h
      exact ⟨rfl, ht, m, rfl, hn⟩

/-- In a tree of texts, each definition can be read. -/
theorem exists_ofNode? (h : n.WellFormed src) (hr : Every (Readable src) n) (hn : n.isDefine) :
    ∃ d, ofNode? src n = .ok (some d) := by
  obtain ⟨m, hm, -⟩ := h.form.exists_name hn
  have hpa : ∀ p ∈ if n.kind == "preproc_function_def" then n.field? "parameters" else none,
      Readable src p := by
    intro p hp
    split at hp
    · exact (hr.field hp).here
    · cases hp
  unfold ofNode?
  rw [hr.here.text?, ok_bind, hm]
  dsimp only
  rw [(hr.field hm).here.text?, ok_bind]
  cases hp : (if n.kind == "preproc_function_def" then n.field? "parameters" else none) with
  | none => exact ⟨_, rfl⟩
  | some p =>
    dsimp only
    rw [(hpa p hp).text?]
    exact ⟨_, rfl⟩

theorem defines_eq (h : ofNode? src n = .ok (some d)) : defines src name n = (d.name == name) := by
  obtain ⟨-, -, m, hm, hn⟩ := ofNode?_eq_some h
  rw [defines, hm, any_some, isNamed, Utf8.decodeLossy_of_decode (mapError_eq_ok.1 hn)]

theorem exists_ofNodes (h : ∀ n ∈ ns, ∃ d, ofNode? src n = .ok (some d)) :
    ∃ ds, ofNodes src ns = .ok ds ∧ ds.map (·.node) = ns ∧
      ∀ name, ((ns.filter (defines src name)).head?.elim (.ok none) (ofNode? src) :
        Except Failure (Option MacroDefinition)) = .ok (ds.find? (·.name == name)) := by
  induction ns with
  | nil => exact ⟨[], rfl, rfl, fun name => rfl⟩
  | cons n ns ih =>
    obtain ⟨⟨d, hd⟩, hns⟩ := forall_mem_cons.1 h
    obtain ⟨ds, hds, hn, hf⟩ := ih hns
    refine ⟨d :: ds, ?_, ?_, fun name => ?_⟩
    · rw [ofNodes, hd, hds]
      rfl
    · rw [map_cons, hn, (ofNode?_eq_some hd).1]
    · rw [filter_cons, find?_cons, defines_eq hd]
      cases d.name == name with
      | true => exact hd
      | false => exact hf name

end Read

/-- In the tree of a text, the definition of a name is the first of all definitions that has the name, and
the definitions whose names start with a text are those of all definitions, in the same order. -/
theorem first_of_all {text : String} (htext : Utf8.decode src = .ok text)
    (hparse : Node.parse src = .ok root) :
    ∃ ds, all src root none = .ok ds ∧ ds.map (·.node) = root.preorder.filter isDefine ∧
      ds.Pairwise (·.node.start < ·.node.start) ∧
      (∀ start, all src root (some start) = .ok (ds.filter (Text.startsWith ·.name start))) ∧
      ∀ name : String, '"' ∉ name.toList → '\\' ∉ name.toList →
        find? src root name = .ok (ds.find? (·.name == name)) := by
  have hwell := parse_wellFormed hparse
  have hread := readable_of_parse htext hparse
  have hdefined : ∀ n ∈ root.preorder.filter isDefine, ∃ d, ofNode? src n = .ok (some d) := by
    intro n hn
    obtain ⟨hn, hdefine⟩ := mem_filter.1 hn
    exact exists_ofNode? (hwell.of_mem_preorder hn) (hread.of_mem_preorder hn) hdefine
  obtain ⟨ds, hds, hnodes, hfirst⟩ := exists_ofNodes hdefined
  have hall : ∀ start, all src root start =
      .ok (ds.filter fun d => start.all (Text.startsWith d.name ·)) := by
    intro start
    rw [all, captured_all hparse, ok_bind, hds]
    rfl
  refine ⟨ds, (hall none).trans (by simp), hnodes, ?_, fun start => hall (some start),
    fun name hquote hescape => (find?_eq hparse hquote hescape).trans (hfirst name)⟩
  have hsorted := definitions_sorted hparse
  rwa [← hnodes, pairwise_map] at hsorted

/-- A macro that is defined twice, and definitions inside a class and a function. -/
theorem first_of_all_twice :
    let src := Bytes.ofString ("#define A 1\nclass C \x7b\n#define AB(x) x\n\x7d;\n#define A 2\n" ++
      "void f() \x7b\n#define B\n\x7d\n")
    ∃ (root : Node) (ds : List MacroDefinition) (d : MacroDefinition), Node.parse src = .ok root ∧
      all src root none = .ok ds ∧ ds.map (fun d => (d.name, d.node.start)) =
        [("A", 0), ("AB", 22), ("A", 41), ("B", 64)] ∧
      find? src root "A" = .ok (some d) ∧ d.node.start = 0 ∧ find? src root "C" = .ok none ∧
      all src root (some "A") = .ok (ds.filter (Text.startsWith ·.name "A")) := by
  intro src
  have hrun : (do
      let root ← (Node.parse src).toOption
      let ds ← (ofNodes src (root.preorder.filter isDefine)).toOption
      let d ← ds.find? (·.name == "A")
      return ds.map (fun d => (d.name, d.node.start)) == [("A", 0), ("AB", 22), ("A", 41), ("B", 64)] &&
        d.node.start == 0 && (ds.find? (·.name == "C")).isNone) = some true := by
    decide +kernel
  simp only [bind, pure, bind_eq_some_iff, toOption_eq_some, some.injEq, Bool.and_eq_true, beq_iff_eq,
    isNone_iff_eq_none] at hrun
  obtain ⟨root, hparse, ds, hds, d, hd, hrun⟩ := hrun
  obtain ⟨ds', hall, -, -, hstart, hfind⟩ := first_of_all (Utf8.decode_ofString _) hparse
  obtain rfl : ds' = ds := by
    rw [all, captured_all hparse, ok_bind, hds] at hall
    cases hall
    exact filter_eq_self.2 fun _ _ => rfl
  refine ⟨root, ds', d, hparse, hall, hrun.1.1, ?_, hrun.1.2, ?_, hstart "A"⟩
  · rw [hfind "A" (by decide) (by decide), hd]
  · rw [hfind "C" (by decide) (by decide), hrun.2]

end MacroDefinition

end Excerpt
