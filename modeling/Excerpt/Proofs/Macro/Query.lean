import Excerpt.Macro.Use
import Excerpt.Proofs.Query.Match
import Excerpt.Proofs.Query.Read
import Excerpt.Proofs.Tree.Form
import Excerpt.Proofs.Tree.Layout

/-!
# The query for the uses of a macro

The text of the query spells two patterns, one for calls and one for functions
(`ofString_query`). In a well-formed tree a pattern accepts a call or a function
exactly if its name is an identifier that passes the test (`matchesAt_uses`).
-/

namespace Excerpt.MacroUse

open Query Node List Pattern Predicate

section Text

variable {test value : String} {args : List String}

def testNames : List String :=
  ["#eq?", "#match?"]

/-- The query up to its first test. -/
def callText : String :=
  "[((call_expression function: " ++ "(identifier) @macro_name"

/-- A test up to its value. -/
def testText (test : String) : String :=
  "(" ++ test ++ " @macro_name"

/-- The query from its first value to its second test. -/
def definitionText : String :=
  ")\n" ++ "arguments: (argument_list) @args) @macro_usage)\n" ++
    "((function_definition declarator: (function_declarator declarator: " ++
    "(identifier) @macro_name"

/-- The query after its second value. -/
def lastText : String :=
  ")\n" ++ "parameters: (parameter_list) @args)) @macro_usage)]"

theorem toList_query (test value : String) : (query test value).toList =
      callText.toList ++ ' ' :: ((testText test).toList ++ ' ' :: '"' :: (value.toList ++ '"' ::
        (definitionText.toList ++ ' ' :: ((testText test).toList ++ ' ' :: '"' :: (value.toList ++ '"' ::
          lastText.toList))))) := by
  have hname : "(identifier) @macro_name (" = "(identifier) @macro_name" ++ " " ++ "(" := rfl
  have hopen : " @macro_name \"" = " @macro_name" ++ " " ++ "\"" := rfl
  have hclose : "\")\n" = "\"" ++ ")\n" := rfl
  have hquote : " ".toList = [' '] ∧ "\"".toList = ['"'] := ⟨rfl, rfl⟩
  change ("[((call_expression function: " ++
    ("(identifier) @macro_name (" ++ test ++ " @macro_name \"" ++ value ++ "\")\n") ++
    "arguments: (argument_list) @args) @macro_usage)\n" ++
    ("((function_definition declarator: (function_declarator declarator: " ++
      ("(identifier) @macro_name (" ++ test ++ " @macro_name \"" ++ value ++ "\")\n")) ++
    "parameters: (parameter_list) @args)) @macro_usage)]").toList = _
  unfold callText testText definitionText lastText
  simp only [hname, hopen, hclose, hquote.1, hquote.2, String.toList_append, append_assoc, cons_append, nil_append]

/-- The tokens of a name with a test, after the label of its field. -/
def nameTokens (test : String) (args : List String) : List String :=
  "(" :: "identifier" :: ")" :: "@macro_name" :: "(" :: test :: "@macro_name" :: (args ++ [")"])

theorem part_callText : Part callText
    ["[", "(", "(", "call_expression", "function:", "(", "identifier", ")", "@macro_name"] :=
  part_of_ascii (by decide)

theorem part_testText (h : test ∈ testNames) : Part (testText test) ["(", test, "@macro_name"] := by
  simp only [testNames, mem_cons, not_mem_nil, or_false] at h
  rcases h with rfl | rfl
  · exact part_of_ascii (by decide)
  · exact part_of_ascii (by decide)

theorem part_definitionText : Part definitionText
    [")", "arguments:", "(", "argument_list", ")", "@args", ")", "@macro_usage", ")", "(", "(",
      "function_definition", "declarator:", "(", "function_declarator", "declarator:", "(", "identifier", ")",
      "@macro_name"] :=
  part_of_ascii (by decide)

theorem part_lastText : Part lastText
    [")", "parameters:", "(", "parameter_list", ")", "@args", ")", ")", "@macro_usage", ")", "]"] :=
  part_of_ascii (by decide)

theorem tokens_query (hte : test ∈ testNames) (hv : ReadsAs value args) :
    tokens (query test value).toList =
      "[" :: "(" :: "(" :: "call_expression" :: "function:" :: (nameTokens test args ++
        "arguments:" :: "(" :: "argument_list" :: ")" :: "@args" :: ")" :: "@macro_usage" :: ")" ::
        "(" :: "(" :: "function_definition" :: "declarator:" :: "(" :: "function_declarator" ::
        "declarator:" :: (nameTokens test args ++
        ["parameters:", "(", "parameter_list", ")", "@args", ")", ")", "@macro_usage", ")", "]"])) := by
  have ht := part_testText hte
  rw [toList_query, part_callText.tokens_append, ht.tokens_append, hv.tokens, part_definitionText.tokens_append,
    ht.tokens_append, hv.tokens, part_lastText.tokens]
  simp only [nameTokens, cons_append, nil_append, append_assoc]

end Text

section Patterns

variable {test value : String} {args : List String} {s : Suffix}

def argsTest (test : String) (args : List String) : Predicate :=
  ⟨test, "@macro_name" :: args⟩

def nameTest (test value : String) : Predicate :=
  argsTest test [quoted value]

/-- The fields of a node with a name and a list after it. -/
def listedFields (nameField listField listKind : String) : List (String × Pattern) :=
  [(nameField, .node "identifier" [] [] [] ⟨false, some "macro_name"⟩),
    (listField, .node listKind [] [] [] ⟨false, some "args"⟩)]

/-- A call whose name passes the test. -/
def callPattern (t : Predicate) : Pattern :=
  .group (.node "call_expression" (listedFields "function" "arguments" "argument_list") [] [t]
    ⟨false, some "macro_usage"⟩) [] ⟨false, none⟩

/-- A function whose name passes the test. -/
def definitionPattern (t : Predicate) : Pattern :=
  .group (.node "function_definition"
    [("declarator", .node "function_declarator"
      (listedFields "declarator" "parameters" "parameter_list") [] [t] ⟨false, none⟩)]
    [] [] ⟨false, some "macro_usage"⟩) [] ⟨false, none⟩

theorem inside_listed {nameLabel listLabel nameField listField listKind : String}
    (ht : test ∈ testNames) (ha : ")" ∉ args)
    (hn : nameLabel ∉ [")", "(", "["] ∧ fieldName? nameLabel = some nameField)
    (hl : listLabel ∉ [")", "(", "["] ∧ fieldName? listLabel = some listField)
    (hk : listKind ∉ ["(", "["]) (hne : nameField ≠ listField) (rest : List String) :
    Reads (inside false .empty (nameLabel :: (nameTokens test args ++
        listLabel :: "(" :: listKind :: ")" :: "@args" :: ")" :: rest)))
      ⟨listedFields nameField listField listKind, [], [argsTest test args]⟩ rest := by
  have ht : isTest test := (by decide : ∀ test ∈ testNames, isTest test) test ht
  refine inside_field hn.1 hn.2
    (pattern_captured "macro_name" (bare_node (by decide) (inside_close false .empty _)) rfl) ?_
  have ha : ")" ∉ "@macro_name" :: args := by simpa using ha
  refine inside_test ht (testArgs_append ha _) ?_
  refine inside_field hl.1 hl.2
    (pattern_captured "args" (bare_node hk (inside_close false .empty _)) rfl) ?_
  have hput : (Inside.withField listField
      ((Pattern.node listKind [] [] [] ⟨false, none⟩).withSuffix ⟨false, some "args"⟩)
      (Inside.withTest (argsTest test args) (Inside.withField nameField
        ((Pattern.node "identifier" [] [] [] ⟨false, none⟩).withSuffix ⟨false, some "macro_name"⟩)
        .empty))) = ⟨listedFields nameField listField listKind, [], [argsTest test args]⟩ := by
    simp [Inside.withField, Inside.withTest, Inside.empty, Table.put, hne, listedFields, Pattern.withSuffix]
  exact hput ▸ inside_close false _ rest

theorem pattern_call (ht : test ∈ testNames) (ha : ")" ∉ args) {t : String} (hm : t ≠ "?")
    (hc : isCapture t = false) (rest : List String) :
    Reads (pattern ("(" :: "(" :: "call_expression" :: "function:" :: (nameTokens test args ++
        "arguments:" :: "(" :: "argument_list" :: ")" :: "@args" :: ")" :: "@macro_usage" :: ")" ::
        t :: rest))) (callPattern (argsTest test args)) (t :: rest) := by
  have hin := inside_listed ht ha
    (by decide : "function:" ∉ _ ∧ _ = some "function")
    (by decide : "arguments:" ∉ _ ∧ _ = some "arguments")
    (by decide : "argument_list" ∉ _) (by decide) ("@macro_usage" :: ")" :: t :: rest)
  have hn := pattern_captured "macro_usage" (bare_node (u := "call_expression") (by decide) hin) rfl
  exact pattern_plain (bare_group (by decide) hn (inside_close true .empty _)) hm hc

theorem pattern_definition (ht : test ∈ testNames) (ha : ")" ∉ args) {t : String} (hm : t ≠ "?")
    (hc : isCapture t = false) (rest : List String) :
    Reads (pattern ("(" :: "(" :: "function_definition" :: "declarator:" :: "(" ::
        "function_declarator" :: "declarator:" :: (nameTokens test args ++
        "parameters:" :: "(" :: "parameter_list" :: ")" :: "@args" :: ")" :: ")" :: "@macro_usage" :: ")" ::
        t :: rest))) (definitionPattern (argsTest test args)) (t :: rest) := by
  have hin := inside_listed ht ha
    (by decide : "declarator:" ∉ _ ∧ _ = some "declarator")
    (by decide : "parameters:" ∉ _ ∧ _ = some "parameters")
    (by decide : "parameter_list" ∉ _) (by decide) (")" :: "@macro_usage" :: ")" :: t :: rest)
  have hd := pattern_plain (bare_node (u := "function_declarator") (by decide) hin)
    (by decide) (by decide)
  have hf := inside_field (i := .empty) (t := "declarator:") (by decide)
    (by decide : _ = some "declarator") hd (inside_close false _ _)
  have hn := pattern_captured "macro_usage" (bare_node (u := "function_definition") (by decide) hf) rfl
  exact pattern_plain (bare_group (by decide) hn (inside_close true .empty _)) hm hc

theorem ofString_query (ht : test ∈ testNames) (hv : ReadsAs value args) :
    Query.ofString (query test value) =
      .ok ⟨[callPattern (argsTest test args), definitionPattern (argsTest test args)]⟩ := by
  have hd := pattern_definition ht hv.within (t := "]") (by decide) (by decide) []
  have hc := alternatives_cons (by decide) (pattern_call ht hv.within (by decide)
    (by decide) _) (alternatives_cons (by decide) hd (alternatives_close []))
  rw [Query.ofString, tokens_query ht hv,
    patternsOf_cons (pattern_last (bare_choice hc)) (by rw [patternsOf])]
  rfl

end Patterns

section Matches

variable {src : Bytes} {n name list : Node} {t : Predicate} {passes : Node → Bool}

def captured (name list : Node) : Captures :=
  [("macro_name", [name]), ("args", [list])]

/-- The test holds of a name that `passes`, whatever the list is. -/
def Decides (src : Bytes) (t : Predicate) (passes : Node → Bool) : Prop :=
  ∀ name list, t.holds src (captured name list) = .ok (passes name)

/-- A node with a name and a list is accepted if its name is an identifier that passes the test. -/
theorem tryAt_listed {kind nameField listField listKind : String} (s : Suffix)
    (ht : Decides src t passes) (hk : n.kind = kind) (hn : n.field? nameField = some name)
    (hl : n.field? listField = some list) (hlistKind : list.kind = listKind) :
    ∃ caps, (Pattern.node kind (listedFields nameField listField listKind) [] [t] s).tryAt src n [] =
        .ok (name.kind == "identifier" && passes name, caps) ∧
      ((name.kind == "identifier" && passes name) →
        caps = Captures.addFor (captured name list) s n) := by
  rw [tryAt_of_kind hk, listedFields, tryFields_cons hn, tryAt_leaf]
  by_cases hid : name.kind = "identifier"
  · have hf : (tryFields src [(listField, .node listKind [] [] [] ⟨false, some "args"⟩)] n
        (Captures.addFor [] ⟨false, some "macro_name"⟩ name)) = .ok (true, captured name list) := by
      rw [tryFields_cons hl, tryAt_leaf, if_pos hlistKind]
      rfl
    have hall : allHold src (captured name list) [t] = .ok (passes name) := by
      rw [allHold, ht name list]
      cases passes name with
      | true => rfl
      | false => rfl
    rw [if_pos hid]
    change ∃ caps, ((tryFields src _ n _) >>= _) = _ ∧ _
    rw [hf]
    change ∃ caps, ((allHold src (captured name list) [t]) >>= _) = _ ∧ _
    rw [hall, hid]
    cases passes name with
    | true => exact ⟨_, rfl, fun _ => rfl⟩
    | false => exact ⟨_, rfl, by simp⟩
  · rw [if_neg hid]
    have hfa : (name.kind == "identifier") = false := by simpa using hid
    rw [hfa]
    exact ⟨_, rfl, by simp⟩

def found? (passes : Node → Bool) (n : Node) : Option Match :=
  match parts? n with
  | some (name, some list) =>
    if name.kind == "identifier" && passes name then
      some ⟨if n.kind == "call_expression" then 0 else 1, n,
        captured name list ++ [("macro_usage", [n])]⟩
    else none
  | _ => none

theorem parts?_of_call (h : n.WellFormed src) (hk : n.kind = "call_expression") :
    ∃ name list, n.field? "function" = some name ∧ n.field? "arguments" = some list ∧
      list.kind = "argument_list" ∧ parts? n = some (name, some list) := by
  obtain ⟨name, list, hc, hf, hl⟩ := h.form.call_cases hk
  have hn : n.field? "function" = some name := by
    rw [Node.field?, hf, hc]
    rfl
  have ha : n.field? "arguments" = some list := by
    rw [Node.field?, hf, hc]
    rfl
  refine ⟨name, list, hn, ha, hl, ?_⟩
  rw [parts?, if_pos (by simpa using hk), hn, ha]
  rfl

theorem parts?_of_definition (h : n.WellFormed src) (hk : n.kind = "function_definition") :
    ∃ d, n.field? "declarator" = some d ∧ ((d.kind ≠ "function_declarator" ∧ parts? n = none) ∨
      ∃ name list, d.kind = "function_declarator" ∧ d.field? "declarator" = some name ∧
        d.field? "parameters" = some list ∧ list.kind = "parameter_list" ∧
        parts? n = some (name, some list)) := by
  obtain ⟨d, body, hc, hf⟩ := h.form.functionDefinition_cases hk
  have hde : n.field? "declarator" = some d := by
    rw [Node.field?, hf, hc]
    rfl
  have hpa : parts? n = if d.kind == "function_declarator" then
      (d.field? "declarator").map fun f => (f, d.field? "parameters") else none := by
    rw [parts?, if_neg (by simp [hk]), if_pos (by simpa using hk), hde]
  refine ⟨d, hde, ?_⟩
  by_cases hd : d.kind = "function_declarator"
  · have hmem : d ∈ n.children := by
      rw [hc]
      exact mem_cons_self
    obtain ⟨name, list, hc', hf', -, hl⟩ := (h.child d hmem).form.functionDeclarator_cases hd
    have hn : d.field? "declarator" = some name := by
      rw [Node.field?, hf', hc']
      rfl
    have hp : d.field? "parameters" = some list := by
      rw [Node.field?, hf', hc']
      rfl
    refine .inr ⟨name, list, hd, hn, hp, hl, ?_⟩
    rw [hpa, if_pos (by simpa using hd), hn, hp]
    rfl
  · exact .inl ⟨hd, by rw [hpa, if_neg (by simpa using hd)]⟩

theorem matchesAt_call (ht : Decides src t passes) (h : n.WellFormed src)
    (hk : n.kind = "call_expression") :
    matchesAt src n 0 [callPattern t, definitionPattern t] = .ok (found? passes n).toList := by
  obtain ⟨name, list, hn, hl, hlistKind, hpa⟩ := parts?_of_call h hk
  obtain ⟨caps, htry, hca⟩ := tryAt_listed ⟨false, some "macro_usage"⟩ ht hk hn hl hlistKind
  have hc : (callPattern t).tryAt src n [] = .ok (name.kind == "identifier" && passes name, caps) := by
    rw [callPattern, tryAt_group, htry]
  have hno : matchesAt src n 1 [definitionPattern t] = .ok [] := by
    rw [matchesAt_cons_of_not (by rw [hk]; rfl)]
    rfl
  rw [matchesAt_cons (by rw [hk]; rfl) hc hno, found?, hpa]
  dsimp only
  split
  · next hp =>
      rw [hca hp, hk]
      rfl
  · rfl

theorem matchesAt_definition (ht : Decides src t passes) (h : n.WellFormed src)
    (hk : n.kind = "function_definition") :
    matchesAt src n 0 [callPattern t, definitionPattern t] = .ok (found? passes n).toList := by
  obtain ⟨d, hd, hc⟩ := parts?_of_definition h hk
  -- the attempt is the one at the declarator
  have htry : (definitionPattern t).tryAt src n [] =
      ((Pattern.node "function_declarator" (listedFields "declarator" "parameters" "parameter_list") []
        [t] ⟨false, none⟩).tryAt src d [] >>= fun r =>
        .ok (if r.1 then (true, r.2.addFor ⟨false, some "macro_usage"⟩ n) else (false, r.2))) := by
    rw [definitionPattern, tryAt_group, tryAt_of_kind hk, tryFields_cons hd]
    cases (Pattern.node "function_declarator" (listedFields "declarator" "parameters" "parameter_list") []
        [t] ⟨false, none⟩).tryAt src d [] with
    | error e => rfl
    | ok r =>
      obtain ⟨found, caps⟩ := r
      cases found with
      | false => rfl
      | true => rfl
  rw [matchesAt_cons_of_not (by rw [hk]; rfl)]
  rcases hc with ⟨hne, hpa⟩ | ⟨name, list, hdKind, hn, hl, hlistKind, hpa⟩
  · rw [tryAt_of_kind_ne hne] at htry
    rw [matchesAt_cons (by rw [hk]; rfl) htry rfl, found?, hpa]
    rfl
  · obtain ⟨caps, hin, hca⟩ := tryAt_listed ⟨false, none⟩ ht hdKind hn hl hlistKind
    rw [hin] at htry
    rw [found?, hpa]
    dsimp only
    cases hp : name.kind == "identifier" && passes name with
    | true =>
      rw [hp, hca hp] at htry
      rw [matchesAt_cons (by rw [hk]; rfl) htry rfl, hk]
      rfl
    | false =>
      rw [hp] at htry
      rw [matchesAt_cons (by rw [hk]; rfl) htry rfl]
      rfl

/-- At a call or a function the query finds the use that it is, or nothing. -/
theorem matchesAt_uses (ht : Decides src t passes) (h : n.WellFormed src) (hk : n.kind ∈ useKinds) :
    matchesAt src n 0 [callPattern t, definitionPattern t] = .ok (found? passes n).toList := by
  rcases mem_pair.1 hk with hk | hk
  · exact matchesAt_call ht h hk
  · exact matchesAt_definition ht h hk

theorem found?_of_not_use (hk : n.kind ∉ useKinds) : found? passes n = none := by
  obtain ⟨hc, hd⟩ := not_or.1 (mem_pair.not.1 hk)
  rw [found?, parts?, if_neg (by simpa using hc), if_neg (by simpa using hd)]

theorem node_of_found? {m : Match} (h : found? passes n = some m) : m.node = n := by
  unfold found? at h
  split at h
  · split at h
    · cases h
      rfl
    · cases h
  · cases h

end Matches

end Excerpt.MacroUse
