import Excerpt.Proofs.Text.Spelling
import Excerpt.Query.Read
import Mathlib.Data.List.TakeWhile

/-!
# What a query text spells

The tokens of a query text are those of its pieces between blanks, and a text in
quotes is one token if it does not close them itself (`tokens_append_blank`,
`tokens_quoted`). A reading of tokens is put together from readings of their parts:
there is one lemma for each rule by which patterns are written.
-/

namespace Excerpt.Query

open List Option

section Tokens

variable {c : Char} {cs ds : List Char} {n : Nat}

theorem run_append_blank {p : Char → Bool} (hp : p ' ' = false) (cs ds : List Char) :
    run p (cs ++ ' ' :: ds) = run p cs := by
  unfold run
  induction cs with
  | nil =>
    rw [nil_append, takeWhile_cons, hp]
    rfl
  | cons c cs ih =>
    rw [cons_append, takeWhile_cons, takeWhile_cons]
    split
    · rw [length_cons, length_cons, ih]
    · rfl

theorem run_le (p : Char → Bool) (cs : List Char) : run p cs ≤ cs.length :=
  ( takeWhile_prefix p).length_le

theorem colon_append_blank (hn : n ≤ cs.length) :
    (((cs ++ ' ' :: ds).drop n).head? == some ':') = ((cs.drop n).head? == some ':') := by
  rw [drop_append_of_le_length hn]
  cases cs.drop n with
  | nil => rfl
  | cons d rest => rfl

/-- A blank ends every token that is neither quoted nor a comment. -/
theorem tokenLength?_append_blank (hq : c ≠ '"') (hc : c ≠ ';') :
    tokenLength? c (cs ++ ' ' :: ds) = tokenLength? c cs := by
  unfold tokenLength?
  dsimp only
  rw [run_append_blank (by decide), run_append_blank (by decide), run_append_blank (by decide),
    colon_append_blank (run_le _ _)]
  simp only [beq_iff_eq, hq, hc, if_false]

theorem nonzero_le {m : Nat} (h : tokenLength?.nonzero m = some n) (hm : m ≤ cs.length) : n ≤ cs.length := by
  unfold tokenLength?.nonzero at h
  split at h
  · cases h
  · cases h
    exact hm

theorem tokenLength?_le (hq : c ≠ '"') (h : tokenLength? c cs = some n) : n ≤ cs.length := by
  unfold tokenLength? at h
  rw [if_neg (by simpa using hq)] at h
  split at h
  · cases h
    exact Nat.zero_le _
  · split at h
    · exact nonzero_le h (run_le _ cs)
    · split at h
      · exact nonzero_le h (run_le _ cs)
      · split at h
        · dsimp only at h
          cases h
          split
          · next hc =>
              by_contra hlt
              rw [drop_eq_nil_of_le (by omega)] at hc
              cases hc
          · exact run_le _ cs
        · split at h
          · cases h
            exact run_le _ cs
          · cases h

/-- The tokens before a blank, outside quotes and comments, are those of the text before it. -/
theorem tokens_append_blank (hq : '"' ∉ cs) (hco : ';' ∉ cs) (ds : List Char) :
    tokens (cs ++ ' ' :: ds) = tokens cs ++ tokens ds := by
  fun_induction tokens cs with
  | case1 =>
    rw [nil_append, nil_append, tokens]
    rfl
  | case2 c cs hl ih =>
    obtain ⟨hc, hq⟩ := not_or.1 (mem_cons.not.1 hq)
    obtain ⟨hc', hco⟩ := not_or.1 (mem_cons.not.1 hco)
    rw [cons_append, tokens, tokenLength?_append_blank (Ne.symm hc) (Ne.symm hc'), hl]
    exact ih hq hco
  | case3 c cs n hl rest hs ih => exact absurd (beq_iff_eq.1 hs ▸ mem_cons_self) hco
  | case4 c cs n hl rest hs ih =>
    obtain ⟨hc, hq⟩ := not_or.1 (mem_cons.not.1 hq)
    obtain ⟨hc', hco⟩ := not_or.1 (mem_cons.not.1 hco)
    have hle := tokenLength?_le (Ne.symm hc) hl
    rw [cons_append, tokens, tokenLength?_append_blank (Ne.symm hc) (Ne.symm hc'), hl]
    dsimp only
    rw [if_neg hs, take_append_of_le_length hle, drop_append_of_le_length hle, ih (fun h => hq
      (mem_of_mem_drop h)) (fun h => hco (mem_of_mem_drop h)), cons_append]

/-- The tokens of a query, with at most one step for each member of a list. They can be evaluated by
recursion on it. -/
def tokensAlong : List Char → List Char → List String
  | [], _ => []
  | _ :: _, [] => []
  | _ :: ks, c :: cs =>
    match tokenLength? c cs with
    | none => tokensAlong ks cs
    | some n =>
      let rest := tokensAlong ks (cs.drop n)
      if c == ';' then rest else String.ofList (c :: cs.take n) :: rest

theorem tokensAlong_eq {ks : List Char} (h : cs.length ≤ ks.length) : tokensAlong ks cs = tokens cs := by
  induction ks generalizing cs with
  | nil => rw [eq_nil_of_length_eq_zero (Nat.le_zero.1 h), tokens, tokensAlong]
  | cons k ks ih =>
    cases cs with
    | nil => rw [tokens, tokensAlong]
    | cons c cs =>
      have hle : cs.length ≤ ks.length := Nat.le_of_succ_le_succ h
      rw [tokens, tokensAlong]
      cases tokenLength? c cs with
      | none => exact ih hle
      | some n =>
        dsimp only
        rw [ih (by rw [length_drop]; omega)]

theorem tokens_of_ascii {text : String} (h : (Bytes.ofString text).all (· < 128)) :
    tokens text.toList =
      tokensAlong (Utf8.asciiChars (Bytes.ofString text)) (Utf8.asciiChars (Bytes.ofString text)) := by
  rw [tokensAlong_eq (Nat.le_refl _), Utf8.toList_of_ascii h]

/-- A part of a query without quotes and comments, and its tokens. -/
structure Part (text : String) (ts : List String) : Prop where
  quote : '"' ∉ text.toList
  comment : ';' ∉ text.toList
  tokens : Query.tokens text.toList = ts

theorem part_of_ascii {text : String} {ts : List String} (h : (Bytes.ofString text).all (· < 128) ∧
      ('"' ∉ Utf8.asciiChars (Bytes.ofString text) ∧ ';' ∉ Utf8.asciiChars (Bytes.ofString text)) ∧
      tokensAlong (Utf8.asciiChars (Bytes.ofString text)) (Utf8.asciiChars (Bytes.ofString text)) = ts) :
    Part text ts := by
  obtain ⟨ha, hp, ht⟩ := h
  rw [← Utf8.toList_of_ascii ha] at hp
  exact ⟨hp.1, hp.2, (tokens_of_ascii ha).trans ht⟩

theorem Part.tokens_append {text : String} {ts : List String} (h : Part text ts) (ds : List Char) :
    Query.tokens (text.toList ++ ' ' :: ds) = ts ++ Query.tokens ds := by
  rw [tokens_append_blank h.quote h.comment, h.tokens]

/-- What follows a closing quote does not move it. -/
theorem quotedLength_append (h : quotedLength cs = some n) (ds : List Char) :
    quotedLength (cs ++ ds) = some n := by
  fun_induction quotedLength cs generalizing n with
  | case1 cs => exact h
  | case2 c cs hc => cases h
  | case3 c cs hc ih =>
    obtain ⟨k, hk, hn⟩ := map_eq_some_iff.1 h
    rw [cons_append, cons_append, quotedLength, if_neg hc, ih hk, ← hn]
    rfl
  | case4 => cases h
  | case5 c cs hq hp hes ih =>
    have hne : c ≠ '\\' := by
      intro hc
      cases cs with
      | nil => exact hes hc rfl
      | cons d rest => exact hp d rest hc rfl
    obtain ⟨k, hk, hn⟩ := map_eq_some_iff.1 h
    rw [cons_append, quotedLength, ih hk, ← hn]
    · rfl
    · exact hq
    · exact fun d rest hc => absurd hc hne
    · exact fun hc => absurd hc hne
  | case6 => cases h

/-- In quotes, the text is read to its end and no further. -/
def Sealed (cs : List Char) : Prop :=
  quotedLength (cs ++ ['"']) = some (cs.length + 1)

theorem sealed_of_plain (hq : '"' ∉ cs) (hes : '\\' ∉ cs) : Sealed cs := by
  unfold Sealed
  induction cs with
  | nil => rfl
  | cons c cs ih =>
    obtain ⟨hc, hq⟩ := not_or.1 (mem_cons.not.1 hq)
    obtain ⟨hc', hes⟩ := not_or.1 (mem_cons.not.1 hes)
    rw [cons_append, quotedLength, ih hq hes]
    · rfl
    · exact fun h => hc h.symm
    · intro d rest h
      exact absurd h.symm hc'
    · intro h
      exact absurd h.symm hc'

theorem tokens_quoted (h : Sealed cs) (ds : List Char) :
    tokens ('"' :: (cs ++ '"' :: ds)) = String.ofList ('"' :: (cs ++ ['"'])) :: tokens ds := by
  have hs : cs ++ '"' :: ds = (cs ++ ['"']) ++ ds := by simp
  have hl : tokenLength? '"' (cs ++ '"' :: ds) = some (cs ++ ['"']).length := by
    rw [hs, length_append]
    exact quotedLength_append h ds
  rw [tokens, hl]
  dsimp only
  rw [if_neg (by decide), hs, take_left, drop_left]

/-- The text in quotes. -/
def quoted (value : String) : String :=
  String.ofList ('"' :: (value.toList ++ ['"']))

theorem quoted_ne (value : String) {s : String} (hs : s.toList.head? ≠ some '"') : quoted value ≠ s := by
  rintro rfl
  rw [quoted, String.toList_ofList] at hs
  exact hs rfl

/-- In quotes, the text is read as the arguments `args` of a test, whatever follows it. -/
structure ReadsAs (value : String) (args : List String) : Prop where
  tokens : ∀ ds, Query.tokens ('"' :: (value.toList ++ '"' :: ds)) = args ++ Query.tokens ds
  within : ")" ∉ args

theorem readsAs_of_sealed {value : String} (h : Sealed value.toList) : ReadsAs value [quoted value] :=
  ⟨tokens_quoted h, by simpa using (quoted_ne value (by decide)).symm⟩

end Tokens

/-- The tokens are read as the value `a`, and `rest` is left of them. -/
def Reads {α : Type} {ts : List String} (x : Reading α ts) (a : α) (rest : List String) : Prop :=
  ∃ h, x = .ok (a, ⟨rest, h⟩)

section Reads

variable {t u name : String} {ts us rest rest' args : List String} {p inner : Pattern} {ps : List Pattern}
  {i i' : Inside} {isGroup : Bool}

/-- A test runs to the first token that closes it. -/
theorem testArgs_append (ha : ")" ∉ args) (ts : List String) :
    Reads (testArgs (args ++ [")"] ++ ts)) args ts := by
  rw [append_assoc, singleton_append]
  induction args with
  | nil =>
    rw [nil_append, testArgs]
    exact ⟨_, rfl⟩
  | cons t args ih =>
    obtain ⟨ht, ha⟩ := not_or.1 (mem_cons.not.1 ha)
    obtain ⟨hlt, h⟩ := ih ha
    rw [cons_append, testArgs, if_neg (by simpa using Ne.symm ht), h]
    exact ⟨_, rfl⟩

/-- What follows a pattern if it is not marked as optional. -/
theorem suffix_of_unmarked (hm : t ≠ "?") (ts : List String) :
    (suffix (t :: ts)).1 = ⟨false, if isCapture t then some (String.ofList (t.toList.drop 1)) else none⟩ ∧
      (suffix (t :: ts)).2.1 = if isCapture t then ts else t :: ts := by
  have ho : ((t :: ts).head? == some "?") = false := by simpa using hm
  unfold suffix
  extract_lets optional after ha
  have ho : optional = false := ho
  have ht : after = t :: ts := by
    rw [show after = if optional then ts else t :: ts from rfl, ho]
    rfl
  clear_value ha after optional
  subst ho ht
  dsimp only
  split
  · exact ⟨rfl, rfl⟩
  · exact ⟨rfl, rfl⟩

theorem suffix_capture (hn : t.toList = '@' :: name.toList) (ts : List String) :
    (suffix (t :: ts)).1 = ⟨false, some name⟩ ∧ (suffix (t :: ts)).2.1 = ts := by
  have hm : t ≠ "?" := by
    rintro rfl
    exact absurd hn (by simp)
  have hc : isCapture t := by
    rw [isCapture, hn]
    rfl
  have hd : String.ofList (t.toList.drop 1) = name := by
    rw [hn]
    exact String.ofList_toList
  obtain ⟨hs, hr⟩ := suffix_of_unmarked hm ts
  rw [hs, hr, if_pos hc, if_pos hc, hd]
  exact ⟨rfl, rfl⟩

theorem suffix_none (hm : t ≠ "?") (hc : isCapture t = false) (ts : List String) :
    (suffix (t :: ts)).1 = ⟨false, none⟩ ∧ (suffix (t :: ts)).2.1 = t :: ts := by
  obtain ⟨hs, hr⟩ := suffix_of_unmarked hm ts
  rw [hs, hr, hc]
  exact ⟨rfl, rfl⟩

theorem pattern_of_suffix {s : Suffix} (h : Reads (bare ts) p rest) (hs : (suffix rest).1 = s)
    (hr : (suffix rest).2.1 = rest') : Reads (pattern ts) (p.withSuffix s) rest' := by
  obtain ⟨hlt, h⟩ := h
  rw [pattern, h]
  subst hs hr
  exact ⟨_, rfl⟩

theorem pattern_captured (name : String) (h : Reads (bare ts) p (t :: rest))
    (hn : t.toList = '@' :: name.toList) : Reads (pattern ts) (p.withSuffix ⟨false, some name⟩) rest :=
  pattern_of_suffix h (suffix_capture hn rest).1 (suffix_capture hn rest).2

/-- A pattern with a token behind it that cannot belong to it. -/
theorem pattern_plain (h : Reads (bare ts) p (t :: rest)) (hm : t ≠ "?")
    (hc : isCapture t = false) : Reads (pattern ts) (p.withSuffix ⟨false, none⟩) (t :: rest) :=
  pattern_of_suffix h (suffix_none hm hc rest).1 (suffix_none hm hc rest).2

/-- A pattern with nothing behind it. -/
theorem pattern_last (h : Reads (bare ts) p []) : Reads (pattern ts) (p.withSuffix ⟨false, none⟩) [] :=
  pattern_of_suffix h rfl rfl

theorem bare_node (hu : u ∉ ["(", "["]) (h : Reads (inside false .empty us) i rest) :
    Reads (bare ("(" :: u :: us)) (.node u i.fields i.children i.tests ⟨false, none⟩) rest := by
  obtain ⟨hlt, h⟩ := h
  rw [bare, if_neg (by decide), if_pos (beq_self_eq_true _)]
  rw [if_neg (by simpa using hu), h]
  exact ⟨_, rfl⟩

theorem bare_group (hu : u ∈ ["(", "["]) (hin : Reads (pattern (u :: us)) inner rest)
    (h : Reads (inside true .empty rest) i rest') :
    Reads (bare ("(" :: u :: us)) (.group inner i.tests ⟨false, none⟩) rest' := by
  obtain ⟨hlt, hin⟩ := hin
  obtain ⟨hlt', h⟩ := h
  rw [bare, if_neg (by decide), if_pos (beq_self_eq_true _)]
  rw [if_pos (by simpa using hu), hin]
  dsimp only [bind, Except.bind]
  rw [h]
  exact ⟨_, rfl⟩

theorem bare_choice (h : Reads (alternatives ts) ps rest) :
    Reads (bare ("[" :: ts)) (.choice ps ⟨false, none⟩) rest := by
  obtain ⟨hlt, h⟩ := h
  unfold bare
  rw [if_pos (beq_self_eq_true _), h]
  exact ⟨_, rfl⟩

theorem alternatives_close (ts : List String) : Reads (alternatives ("]" :: ts)) [] ts := by
  rw [alternatives, if_pos (beq_self_eq_true _)]
  exact ⟨_, rfl⟩

theorem alternatives_cons (ht : t ≠ "]") (h : Reads (pattern (t :: ts)) p rest)
    (h' : Reads (alternatives rest) ps rest') : Reads (alternatives (t :: ts)) (p :: ps) rest' := by
  obtain ⟨hlt, h⟩ := h
  obtain ⟨hlt', h'⟩ := h'
  rw [alternatives, if_neg (by simpa using ht), h]
  dsimp only [bind, Except.bind]
  rw [h']
  exact ⟨_, rfl⟩

theorem inside_close (isGroup : Bool) (i : Inside) (ts : List String) :
    Reads (inside isGroup i (")" :: ts)) i ts := by
  rw [inside, if_pos (beq_self_eq_true _)]
  exact ⟨_, rfl⟩

theorem inside_test (hn : isTest name) (h : Reads (testArgs ts) args rest)
    (h' : Reads (inside isGroup (i.withTest ⟨name, args⟩) rest) i' rest') :
    Reads (inside isGroup i ("(" :: name :: ts)) i' rest' := by
  obtain ⟨hlt, h⟩ := h
  obtain ⟨hlt', h'⟩ := h'
  rw [inside, if_neg (by decide), if_pos (by simpa using hn)]
  dsimp only [tail_cons, headD_cons]
  rw [h]
  dsimp only [bind, Except.bind]
  rw [h']
  exact ⟨_, rfl⟩

theorem inside_field (ht : t ∉ [")", "(", "["]) (hn : fieldName? t = some name)
    (h : Reads (pattern ts) p rest) (h' : Reads (inside false (i.withField name p) rest) i' rest') :
    Reads (inside false i (t :: ts)) i' rest' := by
  obtain ⟨hlt, h⟩ := h
  obtain ⟨hlt', h'⟩ := h'
  obtain ⟨hc, ho, hb, -⟩ : t ≠ ")" ∧ t ≠ "(" ∧ t ≠ "[" ∧ True := by simpa using ht
  rw [inside, if_neg (by simpa using hc), if_neg (by simp [ho]), if_neg (by simp [ho, hb])]
  simp only [Bool.false_eq_true, if_false, hn]
  rw [h]
  dsimp only [bind, Except.bind]
  rw [h']
  exact ⟨_, rfl⟩

theorem patternsOf_cons (h : Reads (pattern (t :: ts)) p rest) (h' : patternsOf rest = .ok ps) :
    patternsOf (t :: ts) = .ok (p :: ps) := by
  obtain ⟨hlt, h⟩ := h
  rw [patternsOf, h]
  dsimp only [bind, Except.bind]
  rw [h']
  rfl

end Reads

end Excerpt.Query
