import Excerpt.Proofs.Except
import Excerpt.Proofs.Query.Match
import Excerpt.Proofs.Query.Read
import Excerpt.Proofs.Text.Trim
import Excerpt.Query.Search

/-!
# Queries for nodes of two kinds

Some queries list one pattern for each of two kinds of nodes, and both patterns have the
same tests. What they capture are the nodes of these kinds that pass the tests, in the
order of the source (`exists_search`). A test may compare the name of a node with a text in
quotes (`ofString_named`, `tryAt_named`).
-/

namespace Excerpt.Query

open Outcome Predicate Pattern

variable {src : Bytes} {n root : Node}

section Tests

variable {name : String}

/-- The value of a test is the text in quotes, if that has no quotes at its ends. -/
theorem value_of_ends (hf : name.toList.head? ≠ some '"') (hl : name.toList.getLast? ≠ some '"') :
    Predicate.value (quoted name) = name := by
  have ht : Text.trimBy (· == '"') (['"'] ++ name.toList ++ ['"']) = name.toList :=
    Text.trimBy_append (by simp) (fun c hc => beq_eq_false_iff_ne.2 fun heq => hf (heq ▸ hc))
      (fun c hc => beq_eq_false_iff_ne.2 fun heq => hl (heq ▸ hc)) (by simp)
  rw [Predicate.value, quoted, String.toList_ofList]
  exact (congrArg String.ofList ht).trans String.ofList_toList

theorem value_quoted (hq : '"' ∉ name.toList) : Predicate.value (quoted name) = name :=
  value_of_ends (fun h => hq (List.mem_of_head? h)) fun h => hq (List.mem_of_getLast? h)

def isNamed (src : Bytes) (name : String) (n : Node) : Bool :=
  Utf8.decodeLossy (n.text src) == name

/-- A test for equality compares the text of the captured node with its first value. -/
theorem holds_eq {caps : Captures} {first second : String} (args : List String)
    (hf : caps.get? (subject first) = some [n]) :
    holds src caps ⟨"#eq?", first :: second :: args⟩ =
      .ok (isNamed src (Predicate.value second) n) := by
  rw [holds]
  dsimp only
  rw [hf]
  rfl

end Tests

section Kinds

variable {text capture : String} {kinds : List String} {fields : List (String × Pattern)} {tests : List Predicate}
  {passes : Node → Bool} {caps : Node → Captures}

def kindPattern (fields : List (String × Pattern)) (tests : List Predicate) (capture kind : String) :
    Pattern :=
  .node kind fields [] tests ⟨false, some capture⟩

def hit? (kinds : List String) (passes : Node → Bool) (caps : Node → Captures) (n : Node) : Option Match :=
  if passes n && kinds.contains n.kind then some ⟨kinds.idxOf n.kind, n, caps n⟩ else none

theorem hit?_eq_some {m : Match} (h : hit? kinds passes caps n = some m) :
    m.node = n ∧ (passes n && kinds.contains n.kind) := by
  unfold hit? at h
  split at h
  · next hp =>
      cases h
      exact ⟨rfl, hp⟩
  · cases h

theorem mayAccept_kindPattern (kind : String) :
    (kindPattern fields tests capture kind).mayAccept n.kind = (n.kind == kind) := by
  simp [kindPattern, Pattern.mayAccept, Pattern.rootKinds?, beq_eq_decide]

theorem matchesAt_of_not_mem (h : n.kind ∉ kinds) (i : Nat) :
    matchesAt src n i (kinds.map (kindPattern fields tests capture)) = .ok [] := by
  induction kinds generalizing i with
  | nil => rfl
  | cons kind kinds ih =>
    obtain ⟨hki, hk⟩ := not_or.1 (List.mem_cons.not.1 h)
    rw [List.map_cons, matchesAt_cons_of_not (by rw [mayAccept_kindPattern]; simpa using hki)]
    exact ih hk (i + 1)

/-- The patterns for all kinds find what the one for the kind of the node finds. -/
theorem matchesAt_kinds {cs : Captures} (hk : kinds.Nodup) (hki : n.kind ∈ kinds)
    (htry : (kindPattern fields tests capture n.kind).tryAt src n [] = .ok (passes n, cs)) (i : Nat) :
    matchesAt src n i (kinds.map (kindPattern fields tests capture)) =
      .ok (if passes n then [⟨i + kinds.idxOf n.kind, n, cs⟩] else []) := by
  induction kinds generalizing i with
  | nil => cases hki
  | cons kind kinds ih =>
    obtain ⟨hf, hk⟩ := List.nodup_cons.1 hk
    by_cases heq : n.kind = kind
    · subst heq
      rw [List.map_cons, matchesAt_cons (by rw [mayAccept_kindPattern, beq_self_eq_true]) htry
        (matchesAt_of_not_mem hf (i + 1)), List.idxOf_cons_self]
      rfl
    · rw [List.map_cons, matchesAt_cons_of_not (by rw [mayAccept_kindPattern]; simpa using heq),
        ih hk (List.mem_of_ne_of_mem heq hki), List.idxOf_cons_ne _ (Ne.symm heq),
        Nat.add_right_comm, Nat.add_assoc]

theorem flatMap_hits (hc : ∀ n, (caps n).get? capture = some [n]) (ns : List Node) :
    (ns.filterMap (hit? kinds passes caps)).flatMap (·.nodes capture) =
      ns.filter fun n => passes n && kinds.contains n.kind := by
  induction ns with
  | nil => rfl
  | cons n ns ih =>
    rw [List.filterMap_cons, List.filter_cons, hit?, ← ih]
    cases passes n && kinds.contains n.kind with
    | true =>
      change (caps n |>.get? capture |>.getD []) ++ _ = _
      rw [hc n]
      rfl
    | false => rfl

/-- A query for some kinds of nodes captures those that pass its tests, in the order in which they
start. -/
theorem exists_search (caps : Node → Captures)
    (hq : Query.ofString text = .ok ⟨kinds.map (kindPattern fields tests capture)⟩)
    (hr : Query.rootKinds? ⟨kinds.map (kindPattern fields tests capture)⟩ = some kinds)
    (hki : kinds.Nodup) (hc : ∀ n, (caps n).get? capture = some [n])
    (htry : ∀ n ∈ root.preorder, n.kind ∈ kinds → ∃ cs,
      (kindPattern fields tests capture n.kind).tryAt src n [] = .ok (passes n, cs) ∧
        (passes n → cs = caps n))
    (hs : (root.preorder.filter fun n => passes n && kinds.contains n.kind).Pairwise
      (·.start < ·.start)) : ∃ ms, Query.search text src root = .ok ms ∧
      ms.flatMap (·.nodes capture) = root.preorder.filter fun n => passes n && kinds.contains n.kind := by
  refine ⟨root.preorder.filterMap (hit? kinds passes caps), ?_, flatMap_hits hc _⟩
  rw [Query.search, hq, ok_bind]
  refine matchesFrom_eq hr hki (fun n hn hk => ?_) (fun n hk => ?_)
    (sorted_filterMap (fun n m hm => (hit?_eq_some hm).1) (fun n m hm => (hit?_eq_some hm).2) hs)
  · obtain ⟨cs, hcs, heq⟩ := htry n hn hk
    rw [matchesAt_kinds hki hk hcs, hit?, List.contains_iff_mem.2 hk, Bool.and_true, Nat.zero_add]
    split
    · next hp => rw [heq hp, Option.toList_some]
    · rfl
  · have hnot : kinds.contains n.kind = false := by simpa using hk
    rw [hit?, hnot, Bool.and_false]
    rfl

end Kinds

section Names

variable {kind nameKind capture mark text first second value last : String} {args : List String}

/-- The tokens of a pattern with a test on the name of a node, after the kind of the node. -/
def namedTokens (nameKind mark : String) (args : List String) : List String :=
  ["name:", "(", nameKind, ")", "@name", "(", "#eq?"] ++ ("@name" :: args ++ [")"] ++ [")", mark])

/-- The name of a node. -/
def nameFields (nameKind : String) : List (String × Pattern) :=
  [("name", .node nameKind [] [] [] ⟨false, some "name"⟩)]

/-- A pattern for the nodes of a kind whose name passes a test. -/
def namedPattern (nameKind capture : String) (args : List String) : String → Pattern :=
  kindPattern (nameFields nameKind) [⟨"#eq?", "@name" :: args⟩] capture

theorem pattern_named (hk : kind ∉ ["(", "["]) (hn : nameKind ∉ ["(", "["]) (ha : ")" ∉ args)
    (hm : mark.toList = '@' :: capture.toList) (rest : List String) :
    Reads (pattern ("(" :: kind :: (namedTokens nameKind mark args ++ rest)))
      (namedPattern nameKind capture args kind) rest := by
  have ha : ")" ∉ "@name" :: args := by simpa using ha
  have hin : Reads (inside false .empty (namedTokens nameKind mark args ++ rest))
      ⟨nameFields nameKind, [], [⟨"#eq?", "@name" :: args⟩]⟩ (mark :: rest) := by
    rw [namedTokens, List.append_assoc, List.append_assoc]
    refine inside_field (by decide) (by decide : _ = some "name")
      (pattern_captured "name" (bare_node hn (inside_close false .empty _)) rfl) ?_
    exact inside_test (by decide) (testArgs_append ha _) (inside_close false _ _)
  exact pattern_captured capture (bare_node hk hin) hm

/-- The text of a pattern with a test on the name of a node, up to the value of the test. -/
def namedText (nameKind kind : String) : String :=
  "(" ++ kind ++ " name: (" ++ nameKind ++ ") @name (#eq? @name"

/-- The tokens of that text. -/
def namedStart (nameKind kind : String) : List String :=
  ["(", kind, "name:", "(", nameKind, ")", "@name", "(", "#eq?", "@name"]

/-- The text of a query that lists patterns for two kinds of nodes by their names. -/
def namedChars (nameKind mark first second value last : String) : List Char :=
  ("[" ++ namedText nameKind first).toList ++ ' ' :: '"' :: (value.toList ++ '"' ::
    ((")\n) " ++ mark ++ "\n" ++ namedText nameKind second).toList ++ ' ' :: '"' ::
      (value.toList ++ '"' :: (")\n) " ++ mark ++ last).toList)))

/-- A query for two kinds of nodes has a pattern for each. The tokens of its fixed parts are
assumed. -/
theorem ofString_named (hte : text.toList = namedChars nameKind mark first second value last)
    (hv : ReadsAs value args) (hf : Part ("[" ++ namedText nameKind first) ("[" :: namedStart nameKind first))
    (hs : Part (")\n) " ++ mark ++ "\n" ++ namedText nameKind second)
      (")" :: ")" :: mark :: namedStart nameKind second))
    (hl : Part (")\n) " ++ mark ++ last) [")", ")", mark, "]"])
    (hk : ∀ kind ∈ [first, second, nameKind], kind ∉ ["(", "["])
    (hm : mark.toList = '@' :: capture.toList) :
    Query.ofString text = .ok ⟨[first, second].map (namedPattern nameKind capture args)⟩ := by
  have ht : tokens text.toList = "[" :: "(" :: first :: (namedTokens nameKind mark args ++
      "(" :: second :: (namedTokens nameKind mark args ++ ["]"])) := by
    rw [hte, namedChars, hf.tokens_append, hv.tokens, hs.tokens_append, hv.tokens, hl.tokens]
    simp only [namedStart, namedTokens, List.cons_append, List.nil_append, List.append_assoc]
  have hn := hk nameKind (by simp)
  have hc := alternatives_cons (by decide) (pattern_named (hk first (by simp)) hn hv.within
    hm _) (alternatives_cons (by decide) (pattern_named (hk second (by simp)) hn hv.within hm
    _) (alternatives_close []))
  rw [Query.ofString, ht, patternsOf_cons (pattern_last (bare_choice hc)) (by rw [patternsOf])]
  rfl

/-- Whether the node has a name of the kind, and it is `value`. -/
def calls (src : Bytes) (nameKind value : String) (n : Node) : Bool :=
  (n.field? "name").any fun m => m.kind == nameKind && isNamed src value m

def namedCaptures (capture : String) (n : Node) : Captures :=
  Captures.addFor [("name", (n.field? "name").toList)] ⟨false, some capture⟩ n

theorem tryAt_named (src : Bytes) (nameKind capture value : String) (args : List String) (n : Node) :
    ∃ cs, (namedPattern nameKind capture (value :: args) n.kind).tryAt src n [] =
        .ok (calls src nameKind (Predicate.value value) n, cs) ∧
      (calls src nameKind (Predicate.value value) n → cs = namedCaptures capture n) := by
  rw [namedPattern, kindPattern, tryAt_of_kind rfl, nameFields, calls, namedCaptures]
  cases hm : n.field? "name" with
  | none =>
    rw [tryFields, hm]
    exact ⟨_, rfl, by simp⟩
  | some m =>
    rw [tryFields_cons hm, tryAt_leaf, Option.any_some]
    by_cases hk : m.kind = nameKind
    · have hs : subject "@name" = "name" := by decide
      have hh : holds src [("name", [m])] ⟨"#eq?", "@name" :: value :: args⟩ =
          .ok (isNamed src (Predicate.value value) m) := holds_eq args (hs ▸ rfl)
      have hf : tryFields src [] n (Captures.addFor [] ⟨false, some "name"⟩ m) =
          .ok (true, [("name", [m])]) := by
        rw [tryFields]
        rfl
      rw [if_pos hk, ok_bind, if_pos rfl, hf, ok_bind, if_pos rfl,
        allHold, hh, beq_iff_eq.2 hk, Bool.true_and]
      cases isNamed src (Predicate.value value) m with
      | true => exact ⟨_, rfl, fun _ => rfl⟩
      | false => exact ⟨_, rfl, by simp⟩
    · have hfa : (m.kind == nameKind) = false := by simpa using hk
      rw [if_neg hk, hfa]
      exact ⟨_, rfl, by simp⟩

end Names

end Excerpt.Query
