import Excerpt.Proofs.Macro.Walk
import Excerpt.Proofs.Query.Local
import Excerpt.Proofs.Regex.Whole

/-!
# Directives without tests

The comments with directives are found by a query whose test looks for the mark of
directives in them. Where tests are refused, all comments are fetched and those
without the mark are left out. A test reads a text with replacements for what it
cannot decode, the filter reads it strictly. Where all comments can be read, both
ways find the same comments in the same order.
-/

namespace Excerpt

open List Outcome Predicate

namespace Regex

variable {total : Nat} {p : Place}

/-- A word, character by character. -/
def word (c : Char) : List Char → Regex
  | [] => char c
  | d :: ds => seq (char c) (word d ds)

/-- The place behind a word, if the word stands at the place. -/
def pass : List Char → Place → Option Place
  | [], p => .some p
  | c :: cs, p => (p.step? (· == c)).bind (pass cs)

theorem reach_char_eq (c : Char) (ps : List Place) :
    reach total (char c) ps = ps.filterMap (Place.step? (· == c)) := by
  have ht : (fun d => [ClassItem.range c c].any (·.has d) != false) = (· == c) := by
    funext d
    rw [Bool.eq_iff_iff, beq_iff_eq, ← has_range_self]
    simp
  rw [char, reach, ht]

theorem reach_word (c : Char) (cs : List Char) (ps : List Place) :
    reach total (word c cs) ps = ps.filterMap (pass (c :: cs)) := by
  induction cs generalizing c ps with
  | nil =>
    rw [word, reach_char_eq]
    exact filterMap_congr fun p _ => (Option.bind_fun_some _).symm
  | cons d ds ih =>
    rw [word, reach, reach_char_eq, ih, filterMap_filterMap]
    rfl

theorem isSome_pass (cs : List Char) : (pass cs p).isSome = cs.isPrefixOf p.text := by
  induction cs generalizing p with
  | nil => rfl
  | cons c cs ih =>
    obtain ⟨left, text⟩ := p
    cases text with
    | nil => rfl
    | cons d text =>
      by_cases hd : d = c
      · simp [pass, Place.step?, hd, ih]
      · simp [pass, Place.step?, isPrefixOf, hd, Ne.symm hd]

/-- A word occurs in a text that has it as a part. -/
theorem occursIn_word (c : Char) (cs : List Char) (s : String) :
    (word c cs).occursIn s = Text.hasPart (c :: cs) s.toList := by
  have hf : ∀ text, (!((Place.all text).filterMap (pass (c :: cs))).isEmpty) =
      Text.hasPart (c :: cs) text := by
    intro text
    induction text with
    | nil => rfl
    | cons d text ih =>
      rw [Place.all, Text.hasPart, ← ih, filterMap_cons]
      have hp := isSome_pass (p := ⟨(d :: text).length, d :: text⟩) (c :: cs)
      cases h : pass (c :: cs) ⟨(d :: text).length, d :: text⟩ with
      | none =>
        rw [h] at hp
        rw [← hp]
        rfl
      | some p =>
        rw [h] at hp
        rw [← hp]
        rfl
  rw [occursIn, reach_word, hf]

end Regex

namespace Directive

open Query

variable {src : Bytes} {n root : Node}

/-- A comment that passes the test. -/
def pattern : Pattern :=
  .group (.node "comment" [] [] [] ⟨false, some "comment"⟩) [⟨"#match?", ["@comment", "\"//@@\""]⟩] ⟨false, none⟩

theorem ofString_query : Query.ofString query = .ok ⟨[pattern]⟩ := by
  have ht : tokens query.toList =
      ["(", "(", "comment", ")", "@comment", "(", "#match?", "@comment", "\"//@@\"", ")", ")"] :=
    (tokens_of_ascii (by decide)).trans (by decide)
  have hn := pattern_captured "comment" (bare_node (u := "comment") (by decide)
    (inside_close false .empty ["@comment", "(", "#match?", "@comment", "\"//@@\"", ")", ")"])) rfl
  have ha := @testArgs_append ["@comment", "\"//@@\""] (by decide) [")"]
  have hte : Reads (inside true .empty ["(", "#match?", "@comment", "\"//@@\"", ")", ")"]) _ [] :=
    inside_test (by decide) ha (inside_close true _ [])
  rw [Query.ofString, ht, patternsOf_cons (pattern_last (bare_group (by decide) hn hte))
    (by rw [patternsOf])]
  rfl

/-- The comment has the mark of directives. -/
def marked (src : Bytes) (n : Node) : Bool :=
  Text.contains (Utf8.decodeLossy (n.text src)) "//@@"

theorem tryAt_pattern (h : n.kind = "comment") :
    pattern.tryAt src n [] = .ok (marked src n, [("comment", [n])]) := by
  have hr : Regex.ofString (value "\"//@@\"") = .ok (Regex.word '/' ['/', '@', '@']) := by
    decide +kernel
  have hh : holds src [("comment", [n])] ⟨"#match?", ["@comment", "\"//@@\""]⟩ =
      .ok (marked src n) := by
    have hs : subject "@comment" = "comment" := by decide
    rw [holds]
    dsimp only
    rw [hs, hr]
    exact congrArg Except.ok (Regex.occursIn_word _ _ _)
  rw [pattern, Pattern.tryAt, Pattern.tryAt_leaf, if_pos h, ok_bind]
  change (allHold src [("comment", [n])] _ >>= _) = _
  rw [allHold, hh, ok_bind]
  cases marked src n with
  | true => rfl
  | false => rfl

theorem startsAt_pattern : StartsAt ⟨[pattern]⟩ "comment" := by
  intro p hp
  rw [mem_singleton.1 hp]
  exact ⟨["comment"], rfl, fun k hk => mem_singleton.1 hk⟩

theorem hits_pattern (n : Node) : (⟨[pattern]⟩ : Query).Ends src n ∧ (⟨[pattern]⟩ : Query).hits src n =
    if n.kind == "comment" && marked src n then [⟨0, n, [("comment", [n])]⟩] else [] := by
  by_cases h : n.kind = "comment"
  · have htry : pattern.tryAt src n [] = _ := tryAt_pattern h
    refine ⟨fun p hp => ⟨_, mem_singleton.1 hp ▸ htry⟩, ?_⟩
    cases hm : marked src n with
    | true => simp [hits, accepted, htry, h, hm]
    | false => simp [hits, accepted, htry, hm]
  · have hk : (⟨[pattern]⟩ : Query).rootKinds? = some ["comment"] := by decide
    refine (ends_of_not_mem hk (mt mem_singleton.1 h)).imp_right fun hn => ?_
    simp [hn, h]

/-- What the query finds at a marked comment. -/
def hit (n : Node) : Match :=
  ⟨0, n, [("comment", [n])]⟩

theorem flatMap_hits (ns : List Node) : ns.flatMap ((⟨[pattern]⟩ : Query).hits src) =
    ((ns.filter (·.kind == "comment")).filter (marked src)).map hit := by
  induction ns with
  | nil => rfl
  | cons n ns ih =>
    rw [flatMap_cons, ih, (hits_pattern n).2, List.filter_filter, List.filter_filter, filter_cons, Bool.and_comm]
    split
    · rfl
    · rfl

/-- The query finds the comments that have the mark, whether or not they can be read. -/
theorem search_query (src : Bytes) (root : Node) : ∃ ms, Query.search query src root = .ok ms ∧
    ms.flatMap (·.nodes "comment") = root.comments.filter (marked src) := by
  refine ⟨byStart (root.walk.flatMap (hits ⟨[pattern]⟩ src)), ?_, ?_⟩
  · rw [Query.search, ofString_query, ok_bind]
    exact startsAt_pattern.matchesFrom.2 (matchesIn_eq_ok.2 ⟨fun n _ => (hits_pattern n).1, rfl⟩)
  · have hn : (fun n => (hit n).nodes "comment") = fun n => [n] := rfl
    rw [flatMap_hits, byStart, ← map_mergeSort_key (fun m : Match => m.node.start), flatMap_map, hn,
      flatMap_singleton']
    exact (filter_mergeSort Node.start _ _).symm

theorem zip_filter_map {ns : List Node} {texts : List String}
    (h : Forall₂ (fun n t => n.text? src = .ok t) ns texts) :
    ((ns.zip texts).filter fun e => Text.contains e.2 "//@@").map Prod.fst = ns.filter (marked src) := by
  induction h with
  | nil => rfl
  | @cons n t ns texts hn _ ih =>
    have hm : marked src n = Text.contains t "//@@" := by
      rw [marked, Utf8.decodeLossy_of_decode (mapError_eq_ok.1 hn)]
    rw [zip_cons_cons, filter_cons, filter_cons, hm]
    split
    · rw [map_cons, ih]
    · exact ih

/-- Both ways to look for directives answer with the marked comments. -/
def FoundBothWays (src : Bytes) (root : Node) : Prop :=
  (comments true src root).outcome = .ok (root.comments.filter (marked src)) ∧
    (comments false src root).outcome = .ok (root.comments.filter (marked src))

theorem foundBothWays_of_readable (h : ∀ n ∈ root.comments, n.Readable src) : FoundBothWays src root := by
  constructor
  · obtain ⟨ms, hms, hno⟩ := search_query src root
    rw [← hno, comments, if_pos rfl, hms]
    rfl
  · obtain ⟨texts, ht⟩ := exists_mapM_iff.2 fun n hn => ⟨_, (h n hn).text?⟩
    have hr := mapM_eq_ok.1 ht
    rw [← zip_filter_map hr, comments, if_neg Bool.false_ne_true]
    rw [Report.outcome_bind, Report.note, ok_bind, Report.outcome_bind, Report.mapM_eq_ok hr]
    rfl

/-- In every tree whose comments can be read, and so in every tree that a text is read as, the query with a test
and the filter that stands in for it find the same comments in the same order. -/
theorem comments_same_without_tests (src : Bytes) (root : Node) :
    ((∀ n ∈ root.comments, n.Readable src) → FoundBothWays src root) ∧
      ∀ text, Utf8.decode src = .ok text → Node.parse src = .ok root → FoundBothWays src root := by
  refine ⟨foundBothWays_of_readable, fun text htext hparse => foundBothWays_of_readable fun n hn => ?_⟩
  have hwalk := mem_of_mem_filter (mem_mergeSort.1 hn)
  exact ((Node.readable_of_parse htext hparse).of_mem_preorder ((Node.walk_perm_preorder root).mem_iff.1 hwalk)).here

/-- Of two comments the marked one, inside of a function, is found with the test and without it. -/
theorem comments_same_without_tests_one :
    let text := "// é\nvoid f() \x7b //@@start a\n\x7d"
    let src := Bytes.ofString text
    ∃ root n : Node, Node.parse src = .ok root ∧ Utf8.decode src = .ok text ∧ n.start = 17 ∧
      (comments true src root).outcome = .ok [n] ∧ (comments false src root).outcome = .ok [n] := by
  intro text src
  have hrun : ((Node.parse src).toOption.map fun root => (((root.walk.filter (·.kind == "comment")).insertionSort
      fun a b => a.start ≤ b.start).filter (marked src)).map Node.start) = some [17] := by
    decide +kernel
  have htext : Utf8.decode src = .ok text := Utf8.decode_ofString text
  obtain ⟨root, hparse, hstarts⟩ := Option.map_eq_some_iff.1 hrun
  have hparse := toOption_eq_some.1 hparse
  obtain ⟨n, hmarked, hn⟩ := map_eq_singleton_iff.1 hstarts
  rw [← Node.comments_eq_insertionSort] at hmarked
  obtain ⟨htest, hplain⟩ := (comments_same_without_tests src root).2 text htext hparse
  rw [hmarked] at htest hplain
  exact ⟨root, n, hparse, htext, hn, htest, hplain⟩

end Directive

end Excerpt
