import Excerpt.Proofs.Macro.Choice
import Excerpt.Proofs.Macro.OneOf

/-!
# The arguments of a call

The list of a call is cut at the commas that stand in no inner parentheses. The
arguments of the call are the pieces that are not empty (`callArguments_of_cut`), so
each of them stands at its place in the list exactly if no piece is empty
(`positional_iff`). Both the search by an argument and the conditions on arguments
compare what stands at a place among the arguments, and not what stands there in the
list (`arguments_without_empty`).
-/

namespace Excerpt

open List Option Outcome Token

namespace Tokens

variable {src : Bytes}

/-- The number of parentheses open after a token. -/
def depthAfter (t : Token) (depth : Nat) : Nat :=
  if t.spelled "(" then depth + 1 else if t.spelled ")" then depth - 1 else depth

/-- The pieces of a list in parentheses, up to its closing parenthesis: the tokens between the commas that
stand in no inner parentheses. None if the list is not closed. -/
def cut (depth : Nat) : List Token → Option (List (List Token))
  | [] => none
  | t :: ts =>
    if t.isFinish then none
    else if t.spelled ")" && depth == 0 then some [[]]
    else if t.spelled "," && depth == 0 then (cut 0 ts).map ([] :: ·)
    else (cut (depthAfter t depth) ts).map (List.modifyHead (t :: ·))

/-- The tokens behind the one that starts at a place. -/
def behind (src : Bytes) (i : Nat) : List Token :=
  (scan src).dropWhile (·.start ≤ i)

theorem behind_eq {t : Token} {ts : List Token} (hts : t :: ts <:+ scan src)
    (hlt : t.start < t.stop) : behind src t.start = ts := by
  obtain ⟨before, hs⟩ := hts
  have ho := hs ▸ pairwise_scan src
  obtain ⟨-, ht, hb⟩ := pairwise_append.1 ho
  have hd : ∀ u ∈ before ++ [t], decide (u.start ≤ t.start) := by
    intro u hu
    rcases mem_append.1 hu with hu | hu
    · have hle := hb u hu t mem_cons_self
      have hu := u.start_le_stop
      exact decide_eq_true (by omega)
    · rw [mem_singleton.1 hu]
      exact decide_eq_true (Nat.le_refl _)
  rw [behind, ← hs, ← singleton_append, ← append_assoc, dropWhile_append_of_pos hd]
  cases ts with
  | nil => rfl
  | cons u ts =>
    have hle := (pairwise_cons.1 ht).1 u mem_cons_self
    rw [dropWhile_cons_of_neg (by simp; omega)]

/-- The text of a piece, without blanks around it. -/
def pieceText (src : Bytes) : List Token → String
  | [] => ""
  | t :: ts => Text.trim (Utf8.decodeLossy (src.slice t.start (ts.getLastD t).stop))

def filledTexts (src : Bytes) (pieces : List (List Token)) : List String :=
  (pieces.filter (· != [])).map (pieceText src)

theorem filledTexts_cons (src : Bytes) (piece : List Token) (pieces : List (List Token)) :
    filledTexts src (piece :: pieces) = filledTexts src [piece] ++ filledTexts src pieces := by
  rw [filledTexts, filledTexts, filledTexts, ← map_append, ← filter_append]
  rfl

/-- Each piece stands at its place exactly if none is empty. -/
theorem positional_iff {pieces : List (List Token)} :
    (∀ (i : Nat) piece, pieces[i]? = some piece → (filledTexts src pieces)[i]? = some (pieceText src piece)) ↔
      [] ∉ pieces := by
  constructor
  · intro h hmem
    -- the last place is one too many
    have hlt : (filledTexts src pieces).length < pieces.length := by
      rw [filledTexts, length_map, length_filter_lt_length_iff_exists]
      exact ⟨[], hmem, by simp⟩
    have hl := h (pieces.length - 1) _ (getElem?_eq_getElem (by omega))
    rw [getElem?_eq_none (by omega)] at hl
    cases hl
  · intro h i piece hpi
    have hall : pieces.filter (· != []) = pieces :=
      filter_eq_self.2 fun p hp => bne_iff_ne.2 fun heq => h (heq ▸ hp)
    rw [filledTexts, hall, getElem?_map, hpi]
    rfl

end Tokens

namespace MacroUse

open Node Grammar Tokens Query

variable {src : Bytes} {n root : Node} {u : MacroUse} {uses : List MacroUse} {name : String}
  {piece ts : List Token} {pieces : List (List Token)} {depth : Nat} {keep : MacroUse → Except Failure Bool}

section Cut

/-- The ends of a piece. -/
def ends? : List Token → Option (Token × Token)
  | [] => none
  | t :: ts => some (t, ts.getLastD t)

theorem ends?_concat (piece : List Token) (t : Token) :
    ends? (piece ++ [t]) = extendItem t (ends? piece) := by
  cases piece with
  | nil => rfl
  | cons first piece => rw [cons_append, ends?, getLastD_concat, ends?, extendItem]

theorem exists_close (kind : String) (item : Option (Token × Token)) (h : cut depth ts = some pieces) :
    ∃ t rest, (listItems kind item depth ts).rest = t :: rest ∧ t.spelled ")" := by
  fun_induction cut depth ts generalizing item pieces with
  | case1 => cases h
  | case2 => cases h
  | case3 depth t ts hf hc =>
    obtain ⟨hs, hd⟩ := Bool.and_eq_true_iff.1 hc
    rw [listItems, if_pos (by rw [hc, Bool.or_true])]
    exact ⟨t, ts, rfl, hs⟩
  | case4 depth t ts hf hc hco ih =>
    obtain ⟨more, hm, -⟩ := map_eq_some_iff.1 h
    rw [listItems, if_neg (by simp [hf, hc]), if_pos hco]
    exact ih none hm
  | case5 depth t ts hf hc hco ih =>
    obtain ⟨more, hm, -⟩ := map_eq_some_iff.1 h
    rw [listItems, if_neg (by simp [hf, hc]), if_neg hco]
    exact ih _ hm

/-- What has been read of an argument when its last token was read. -/
def current (src : Bytes) (piece : List Token) : List String :=
  (ends? piece).toList.map fun e => Utf8.decodeLossy (src.slice e.1.start e.2.stop)

theorem closed_current (piece : List Token) :
    callArguments.closed (current src piece) = filledTexts src [piece] := by
  cases piece with
  | nil => rfl
  | cons t ts =>
    simp [callArguments.closed, current, ends?, filledTexts, pieceText, String.join]

theorem callArguments_item (hr : ∀ c ∈ closeItem "argument" (ends? piece), Readable src c)
    (ns : List Node) : callArguments src [] (closeItem "argument" (ends? piece) ++ ns) =
      callArguments src (current src piece) ns := by
  cases piece with
  | nil => rfl
  | cons t ts =>
    rw [ends?, closeItem, singleton_append, callArguments, (hr _ mem_cons_self).text?]
    rfl

theorem modifyHead_nil_append (pieces : List (List Token)) : pieces.modifyHead ([] ++ ·) = pieces := by
  cases pieces with
  | nil => rfl
  | cons first more => rfl

/-- The arguments of a list that is cut are its pieces that are not empty. `piece` has been read of the
first one. -/
theorem callArguments_of_cut (h : cut depth ts = some pieces) (piece : List Token)
    (hr : ∀ c ∈ (listItems "argument" (ends? piece) depth ts).value, Readable src c) (t : Token) :
    callArguments src [] ((listItems "argument" (ends? piece) depth ts).value ++ [.leaf ")" t]) =
      .ok (filledTexts src (pieces.modifyHead (piece ++ ·))) := by
  fun_induction cut depth ts generalizing piece pieces with
  | case1 => cases h
  | case2 => cases h
  | case3 depth u ts hf hcl =>
    cases h
    rw [listItems, if_pos (by rw [hcl, Bool.or_true])] at hr ⊢
    refine (callArguments_item hr _).trans ?_
    change Except.ok (callArguments.closed (current src piece) ++ []) = _
    rw [closed_current, append_nil, modifyHead_cons, append_nil]
  | case4 depth u ts hf hcl hco ih =>
    obtain ⟨more, hm, rfl⟩ := map_eq_some_iff.1 h
    rw [listItems, if_neg (by simp [hf, hcl]), if_pos hco] at hr ⊢
    obtain ⟨hit, hr⟩ := forall_mem_append.1 hr
    have hre := ih hm [] fun c hc => hr c (mem_cons_of_mem _ hc)
    change callArguments src [] ((_ ++ _ :: _) ++ _) = _
    rw [append_assoc, callArguments_item hit]
    change (callArguments src [] ((listItems "argument" (ends? []) 0 ts).value ++ [Node.leaf ")" t]) >>=
      fun args => pure (callArguments.closed (current src piece) ++ args)) = _
    rw [hre, modifyHead_nil_append, closed_current, modifyHead_cons, append_nil,
      filledTexts_cons src piece more]
    rfl
  | case5 depth u ts hf hcl hco ih =>
    obtain ⟨more, hm, rfl⟩ := map_eq_some_iff.1 h
    rw [listItems, if_neg (by simp [hf, hcl]), if_neg hco] at hr ⊢
    have hm := ih hm (piece ++ [u]) (by rwa [ends?_concat])
    rw [ends?_concat] at hm
    refine hm.trans ?_
    cases more with
    | nil => rfl
    | cons first more => simp

theorem start_parenthesised (kind itemKind : String) (t : Token) (ts : List Token) :
    (parenthesised kind itemKind t ts).value.start = t.start := by
  unfold parenthesised
  dsimp only
  split
  · rfl
  · split
    · rfl
    · rfl

theorem argumentsOf_of_cut {opening : Token} {list : Node} (h : cut 0 ts = some pieces)
    (hl : list = (parenthesised "argument_list" "argument" opening ts).value)
    (hre : Every (Readable src) list) : argumentsOf src (some list) = .ok (filledTexts src pieces) := by
  obtain ⟨t, rest, hr, hcl⟩ := exists_close "argument" none h
  have hm : list = .spanning "argument_list" (.leaf "(" opening)
      ((listItems "argument" none 0 ts).value ++ [Node.leaf ")" t]) [] := by
    rw [hl, parenthesised]
    generalize listItems "argument" none 0 ts = items at hr
    obtain ⟨nodes, rest', hle⟩ := items
    cases hr
    dsimp only
    rw [if_pos hcl]
  have ha := callArguments_of_cut h [] (fun c hc => (hre.child c (by
    rw [hm]
    exact mem_cons_of_mem _ (mem_append_left _ hc))).here) t
  rw [modifyHead_nil_append] at ha
  rw [hm]
  exact ha

end Cut

theorem ofMatches_filter {p : MacroUse → Bool}
    {ms : List Query.Match} (h : ofMatches src (fun _ => .ok true) ms = .ok uses)
    (hk : ∀ u, keep u = .ok (p u)) : ofMatches src keep ms = .ok (uses.filter p) := by
  induction ms generalizing uses with
  | nil =>
    cases h
    rfl
  | cons m ms ih =>
    rw [ofMatches] at h ⊢
    cases hm : ofMatch? src m with
    | error e =>
      rw [hm] at h
      cases h
    | ok found =>
      rw [hm] at h
      cases found with
      | none =>
        change (ofMatches src _ ms >>= fun us => pure ([] ++ us)) = _ at h
        obtain ⟨more, hmo, h⟩ := Outcome.bind_eq_ok.1 h
        cases h
        rw [ih hmo]
        rfl
      | some u =>
        change (ofMatches src _ ms >>= fun us => pure ([u] ++ us)) = _ at h
        obtain ⟨more, hmo, h⟩ := Outcome.bind_eq_ok.1 h
        cases h
        rw [ok_bind]
        dsimp only
        rw [hk u, ih hmo, singleton_append, filter_cons]
        cases p u with
        | true => rfl
        | false => rfl

/-- Whether the argument at a place has a value. -/
def hasAt (i : Nat) (value : Value) (u : MacroUse) : Bool :=
  u.arguments[i]?.any fun a => value.isText (Text.trim a)

theorem hasArgument_eq (i : Nat) (value : Value) (u : MacroUse) :
    hasArgument i value u = .ok (hasAt i value u) := by
  have hat : argumentAt? u.arguments i = .ok u.arguments[i]? := by
    rw [argumentAt?]
    split
    · next hle => rw [getElem?_eq_none (by omega)]
    · rw [if_pos (by omega), Int.toNat_natCast]
  rw [hasArgument, hat]
  rfl

theorem passing_eq (i : Nat) (value : Value) (uses : List MacroUse) :
    Cpp.passing i value uses = .ok (uses.filter (hasAt i value)) := by
  induction uses with
  | nil => rfl
  | cons u uses ih =>
    rw [Cpp.passing, hasArgument_eq, ih, filter_cons, ok_bind]
    cases hasAt i value u with
    | true => rfl
    | false => rfl

theorem arguments_of_call {text : String} {passes : Node → Bool}
    (ht : Utf8.decode src = .ok text) (hp : Node.parse src = .ok root)
    (hus : ofMatches src keep (root.preorder.filterMap (found? passes)) = .ok uses) (hu : u ∈ uses)
    (hk : u.node.kind = "call_expression") : ∃ list, u.node.field? "arguments" = some list ∧
      ∀ pieces, cut 0 (behind src list.start) = some pieces → u.arguments = filledTexts src pieces := by
  obtain ⟨n, hn, callee, list, hpa, -, hm⟩ := exists_of_mem_found hus hu
  obtain ⟨rfl, ha, -⟩ := ofNodes_eq_ok hm
  obtain ⟨name, list, -, hli, hlistKind, hp'⟩ :=
    parts?_of_call ((parse_wellFormed hp).of_mem_preorder hn) hk
  cases hpa.symm.trans hp'
  have hs : Every (Settled src) u.node := by
    rcases eq_or_settled hp hn with heq | hs
    · have huse : root.isUse := isUse_iff.2 (by rw [← heq, hk]; decide)
      rw [isUse_root hp] at huse
      cases huse
    · exact hs
  obtain ⟨itemKind, opening, ts, hl, hts, ho, hv⟩ :=
    (hs.field hli).here.list (by rw [hlistKind]; decide)
  rw [hlistKind] at hl hv
  obtain rfl : itemKind = "argument" := by simpa [listedKinds] using hl
  have hlt := start_lt_stop (hts.subset mem_cons_self)
    (kind_ne_finish (hts.subset mem_cons_self) ho (by decide))
  refine ⟨list, hli, fun pieces hpi => ?_⟩
  rw [hv, start_parenthesised, behind_eq hts hlt] at hpi
  have hr := ((readable_of_parse ht hp).of_mem_preorder hn).field hli
  exact Except.ok.inj (ha.symm.trans (argumentsOf_of_cut hpi hv hr))

/-- The arguments of a call are the pieces of its list that are not empty, so they stand at their places
exactly if no piece is empty. The search by an argument and the conditions on arguments compare what stands
at a place among the arguments. -/
theorem arguments_without_empty {text : String} (htext : Utf8.decode src = .ok text)
    (hparse : Node.parse src = .ok root) (hquote : '"' ∉ name.toList) (hescape : '\\' ∉ name.toList) :
    ∃ uses, named src root name = .ofValue uses ∧
      (∀ u ∈ uses, u.node.kind = "call_expression" → ∃ list, u.node.field? "arguments" = some list ∧
        ∀ pieces, cut 0 (behind src list.start) = some pieces →
          u.arguments = filledTexts src pieces ∧
          ((∀ (i : Nat) piece, pieces[i]? = some piece →
            u.arguments[i]? = some (pieceText src piece)) ↔ [] ∉ pieces)) ∧
      (∀ (i : Nat) value, withArgument src root name i value =
        .ofValue (uses.filter (hasAt i (.text value)))) ∧
      ∀ (i : Nat) key value, place? key = .ok (some (i : Int)) →
        meeting [(key, value)] uses = .ok (uses.filter (hasAt i value)) ∧
        Cpp.narrowed uses [(key, value)] = .ok (uses.filter (hasAt i value)) := by
  obtain ⟨uses, huses⟩ := exists_walked htext hparse [name]
  have hsearch := search_query hparse (by decide : "#eq?" ∈ testNames)
    (readsAs_of_sealed (sealed_of_plain hquote hescape)) (decides_name src hquote)
  have hfound : ofMatches src (fun _ => .ok true) (root.preorder.filterMap (found? (isNamed src name))) =
      .ok uses :=
    (ofMatches_eq_walked htext hparse fun _ _ callee _ _ _ => isNamed_eq src name callee).trans huses
  refine ⟨uses, searched_eq_ofValue hsearch hfound, fun u hu hkind => ?_, fun i value => ?_,
    fun i key value hplace => ⟨?_, ?_⟩⟩
  · obtain ⟨list, hlist, harguments⟩ := arguments_of_call htext hparse hfound hu hkind
    refine ⟨list, hlist, fun pieces hpieces => ?_⟩
    rw [harguments pieces hpieces]
    exact ⟨rfl, positional_iff⟩
  · exact searched_eq_ofValue hsearch (ofMatches_filter hfound fun u => hasArgument_eq i (.text value) u)
  · exact (meeting_cons_eq_ok hplace).2 ⟨_, passing_eq i value uses, meeting_nil _⟩
  · rw [Cpp.narrowed, hplace]
    change (Cpp.passing i value uses >>= fun kept => Cpp.narrowed kept []) = _
    rw [passing_eq]
    rfl

/-- An empty argument moves the one behind it to an earlier place. -/
theorem arguments_without_empty_middle :
    let src := Bytes.ofString "M(a, , f(b, c));"
    ∃ (root : Node) (u : MacroUse) (list : Node) (pieces : List (List Token)),
      Node.parse src = .ok root ∧ named src root "M" = .ofValue [u] ∧
      u.node.field? "arguments" = some list ∧ cut 0 (behind src list.start) = some pieces ∧
      pieces.map (pieceText src) = ["a", "", "f(b, c)"] ∧ u.arguments = ["a", "f(b, c)"] ∧
      withArgument src root "M" 1 "f(b, c)" = .ofValue [u] ∧
      withArgument src root "M" 2 "f(b, c)" = .ofValue [] := by
  intro src
  have hrun : (do
      let root ← (Node.parse src).toOption
      let uses ← (walked src root ["M"]).toOption
      let u ← uses.head?
      let list ← u.node.field? "arguments"
      let pieces ← cut 0 (behind src list.start)
      return uses.length == 1 && u.node.kind == "call_expression" &&
        pieces.map (pieceText src) == ["a", "", "f(b, c)"] &&
        filledTexts src pieces == ["a", "f(b, c)"]) = some true := by
    decide +kernel
  simp only [bind, pure, bind_eq_some_iff, toOption_eq_some, some.injEq, Bool.and_eq_true, beq_iff_eq] at hrun
  have htext := Utf8.decode_ofString "M(a, , f(b, c));"
  obtain ⟨root, hparse, uses, huses, u, hu, list, hlist, pieces, hpieces, ⟨⟨hlength, hkind⟩,
    htexts⟩, hfilled⟩ := hrun
  obtain ⟨v, rfl⟩ := length_eq_one_iff.1 hlength
  cases hu
  obtain ⟨uses, hnamed, hcalls, hwith, -⟩ := arguments_without_empty htext hparse
    (by decide : '"' ∉ "M".toList) (by decide)
  cases (named_of_walked htext hparse (by decide) (by decide) huses).symm.trans hnamed
  obtain ⟨list', hlist', harguments⟩ := hcalls u mem_cons_self hkind
  cases hlist.symm.trans hlist'
  have harguments := (harguments pieces hpieces).1.trans hfilled
  refine ⟨root, u, list, pieces, hparse, hnamed, hlist, hpieces, htexts, harguments, ?_, ?_⟩
  · refine (hwith 1 "f(b, c)").trans (congrArg Report.ofValue ?_)
    rw [filter_cons, hasAt, harguments, if_pos (by decide)]
    rfl
  · refine (hwith 2 "f(b, c)").trans (congrArg Report.ofValue ?_)
    rw [filter_cons, hasAt, harguments]
    rfl

end MacroUse

end Excerpt
