import Excerpt.Proofs.Grammar.Row

/-!
# The layout of declarations

What is read as a name, a list in parentheses, a statement or a declaration is
well formed and laid out over the tokens that were taken for it. Names, lists
and declarators hold no items and no uses of macros, and are not empty; a call is a
use. The parts of a name form a chain: all but the last one are plain names or
types with template arguments, since template arguments before a parenthesis end
the name.
-/

namespace Excerpt

open Node List Option Token Tokens Utf8

theorem isAlpha_ofNat_of_not_isWordStart {b : UInt8} (hb : b < 128)
    (hs : Lexeme.isWordStart b = false) : (Char.ofNat b.toNat).isAlpha = false := by
  have hall : ∀ n < 128, Lexeme.isWordStart (UInt8.ofNat n) = false →
      (Char.ofNat n).isAlpha = false := by decide
  have hlt : b.toNat < 128 := UInt8.lt_iff_toNat_lt.1 hb
  exact hall b.toNat hlt (by rw [UInt8.ofNat_toNat]; exact hs)

variable {src : Bytes} {ts us : List Token} {t : Token} {i : Nat} {kind : String}

namespace Node

theorem head_text_of_not_word (ht : t ∈ scan src) (hk : t.kind ≠ .word)
    (hki : kind = decodeLossy t.text ∨ decode t.text = .ok kind) :
    kind.toList.head?.any Char.isAlpha = false := by
  cases hte : t.text with
  | nil =>
    rw [hte] at hki
    have hem : kind = "" := by
      rcases hki with rfl | hki
      · simp [decodeLossy, pieces]
      · simpa [decode, pieces, chars, Except.map] using hki.symm
    rw [hem]
    decide
  | cons b bs =>
    obtain ⟨hs, hb⟩ := head_of_not_word ht hk (by rw [hte, head?_cons])
    rw [hte] at hki
    have hh : kind.toList.head? = some (Char.ofNat b.toNat) := by
      rcases hki with rfl | hki
      · exact head_decodeLossy hb bs
      · exact head_decode hb hki
    rw [hh, any_some]
    exact isAlpha_ofNat_of_not_isWordStart hb hs

theorem contained_symbol (ht : t ∈ scan src) (hk : t.kind ≠ .finish)
    (hki : kind.toList.head?.any Char.isAlpha = false) : Contained src (.leaf kind t) :=
  contained_of_form (.symbol hki) (not_mem_of_symbol hki (by decide)) (sited_leaf ht)
    (start_lt_stop ht hk)

theorem named_word (hki : kind ∈ flatKinds) (ht : t ∈ scan src) (hk : t.kind = .word) :
    Every (Named src) (.leaf kind t) :=
  .childless rfl ⟨contained_of_form (.flat hki) (main_of_flat hki) (sited_leaf ht)
    (start_lt_stop ht (by rw [hk]; decide)), (spelt_word ht hk).here⟩

end Node

namespace NamePart

variable {part : NamePart}

/-- The part of a name is a word of the source, or a node that may stand in a name. -/
inductive MadeOf (src : Bytes) : NamePart → Prop where
  | plain {t : Token} (ht : t ∈ scan src) (hk : t.kind = .word) :
      MadeOf src (.plain (.leaf "identifier" t))
  | special {n : Node} (hkind : n.kind ∈ chainKinds) : MadeOf src (.special n)

/-- The part may stand in front of others. -/
def Qualifies (part : NamePart) : Prop :=
  part.qualifier.kind = "namespace_identifier" ∨ part.qualifier.kind = "template_type"

/-- The parts form a name: all but the last one qualify it. -/
inductive Chain (src : Bytes) : List NamePart → Prop where
  | empty : Chain src []
  | last {part : NamePart} (hpart : part.MadeOf src) : Chain src [part]
  | cons {part next : NamePart} {more : List NamePart} (hpart : part.MadeOf src)
      (hqualifies : part.Qualifies) (hmore : Chain src (next :: more)) :
      Chain src (part :: next :: more)

theorem Chain.extend {parts : List NamePart} (hpa : Chain src parts) (hp : part.MadeOf src)
    (hq : part.Qualifies) : Chain src (part :: parts) := by
  cases parts with
  | nil => exact .last hp
  | cons next more => exact .cons hp hq hpa

/-- The part under the kind that it has in front of others keeps its place. -/
theorem MadeOf.qualifier_row {ns : List Node} (h : part.MadeOf src)
    (hrow : Row (Named src) us i (part.node :: ns)) : Row (Named src) us i (part.qualifier :: ns) := by
  cases h with
  | plain ht hk =>
    cases hrow with
    | cons hi hn hns => exact .cons hi (named_word (by decide) ht hk) hns
  | special hki => exact hrow

end NamePart

/-- The node of the declaration is well formed and laid out over the tokens from `ts` to `rest`. -/
inductive Declaration.Laid (src : Bytes) (ts rest : List Token) : Declaration → Prop where
  | function {declarator : Node} (h : Excerpt.Laid (Contained src) ts rest [declarator]) :
      Declaration.Laid src ts rest (.function declarator)
  | whole {node : Node} (h : Excerpt.Laid (Complete src) ts rest [node]) :
      Declaration.Laid src ts rest (.whole node)

namespace Grammar

section Names

variable {a : Token} {part : NamePart} {more : List NamePart}

theorem word_laid (hki : kind ∈ flatKinds) (hts : t :: ts <:+ scan src) (hk : t.kind = .word) :
    Laid (Named src) (t :: ts) ts [.leaf kind t] :=
  .leaf hts (named_word hki (hts.subset mem_cons_self) hk)

theorem operatorPart_laid (hts : t :: ts <:+ scan src) (hk : t.kind = .word) :
    Laid (Named src) (t :: ts) (ts.dropWhile isOperatorSymbol) [(operatorPart t ts).node] := by
  have hr := (suffix_cons t ts).trans hts
  have hsy : ∀ s ∈ ts.takeWhile isOperatorSymbol, s ∈ scan src ∧ s.kind = .operator := by
    intro s hs
    have hh := mem_takeWhile_imp hs
    rw [isOperatorSymbol, Bool.and_eq_true, beq_iff_eq] at hh
    exact ⟨hr.subset (takeWhile_subset _ hs), hh.1⟩
  have hl : ∀ s ∈ ts.takeWhile isOperatorSymbol,
      ∃ kind, Node.leaf (decodeLossy s.text) s = .leaf kind s ∧
        Every (Named src) (.leaf (decodeLossy s.text) s) := by
    intro s hs
    obtain ⟨hmem, ho⟩ := hsy s hs
    have hhe := head_text_of_not_word hmem (by rw [ho]; decide) (.inl rfl)
    exact ⟨_, rfl, .childless rfl ⟨contained_symbol hmem (by rw [ho]; decide) hhe,
      spelt_of_kind (not_mem_of_symbol hhe (by decide))⟩⟩
  have hsymbols : Laid (Named src) (ts.takeWhile isOperatorSymbol ++ ts.dropWhile isOperatorSymbol)
      (ts.dropWhile isOperatorSymbol)
      ((ts.takeWhile isOperatorSymbol).map fun s => .leaf (decodeLossy s.text) s) := by
    refine .leaves (by rwa [takeWhile_append_dropWhile]) ?_
    exact forall₂_map_right_iff.2 (forall₂_same.2 hl)
  rw [takeWhile_append_dropWhile] at hsymbols
  refine ((word_laid (by decide : "operator" ∈ flatKinds) hts hk).append hsymbols).map fun _ h =>
    h.named_spanning (by decide) (.list (by decide)) ⟨?_, fun _ c hc => ?_⟩
  · exact fun h => absurd h (by decide : "operator_name" ∉ wordKinds)
  · rcases mem_cons.1 hc with rfl | hc
    · exact ⟨t, hts.subset mem_cons_self, .inl hk, rfl⟩
    · obtain ⟨s, hs, rfl⟩ := List.mem_map.1 hc
      exact ⟨s, (hsy s hs).1, .inr (hsy s hs).2, rfl⟩

theorem templatePart_laid (hts : t :: a :: ts <:+ scan src) (hk : t.kind = .word)
    (ha : a.kind = .angled) (call : Bool) :
    Laid (Named src) (t :: a :: ts) ts [(templatePart t a call).node] ∧
      (templatePart t a call).MadeOf src := by
  have hta := (suffix_cons t _).trans hts
  have hmem := hta.subset mem_cons_self
  have hte : (src.slice a.start a.stop).head? = some 60 := by
    rw [slice_of_mem_scan hmem]
    exact head_of_angled hmem ha
  have har : Laid (Named src) (a :: ts) ts [.leaf "template_argument_list" a] :=
    .leaf hta (.childless rfl ⟨contained_of_form (.templateArguments hte)
      (by decide : "template_argument_list" ∉ mainKinds) (sited_leaf hmem)
      (start_lt_stop hmem (by rw [ha]; decide)),
      spelt_of_kind (by decide : "template_argument_list" ∉ spelledKinds)⟩)
  cases call with
  | true =>
    refine ⟨((word_laid (by decide : "identifier" ∈ flatKinds) hts hk).append har).map fun _ h => ?_,
      .special (by decide : "template_function" ∈ chainKinds)⟩
    exact h.named_spanning (by decide) (.templateFunction rfl rfl)
      (spelt_of_kind (by decide : "template_function" ∉ spelledKinds))
  | false =>
    have hn : (Node.leaf "type_identifier" t).text src ≠ [] := by
      have ht := hts.subset mem_cons_self
      change src.slice t.start t.stop ≠ []
      rw [slice_of_mem_scan ht]
      exact text_ne_nil_of_word ht hk
    refine ⟨((word_laid (by decide : "type_identifier" ∈ flatKinds) hts hk).append har).map
      fun _ h => ?_, .special (by decide : "template_type" ∈ chainKinds)⟩
    exact h.named_spanning (by decide) (.templateType rfl hn rfl)
      (spelt_of_kind (by decide : "template_type" ∉ spelledKinds))

/-- Where `::` comes next, no parenthesis does. -/
theorem at?_paren_eq_false {s : Token} (h : s.spelled "::") : at? "(" (s :: ts) = false := by
  have ht : s.text = Bytes.ofString "::" := beq_iff_eq.1 h
  simp only [at?, head?_cons, any_some, Token.spelled, ht]
  decide

theorem nameParts_laid (hts : ts <:+ scan src) :
    Laid (Named src) ts (nameParts ts).rest ((nameParts ts).value.map (·.node)) ∧
      NamePart.Chain src (nameParts ts).value := by
  have hp : ∀ {t : Token} {ts : List Token}, ¬(t.kind != .word) →
      t :: ts <:+ scan src → Laid (Named src) (t :: ts) ts [.leaf "identifier" t] ∧
        (NamePart.plain (.leaf "identifier" t)).MadeOf src := by
    intro t ts hw hts
    rw [bne_iff_ne, not_not] at hw
    exact ⟨word_laid (by decide) hts hw, .plain (hts.subset mem_cons_self) hw⟩
  have ht : ∀ {t a : Token} {ts : List Token} (call : Bool), ¬(t.kind != .word) →
      (a.kind == .angled) → t :: a :: ts <:+ scan src →
      Laid (Named src) (t :: a :: ts) ts [(templatePart t a call).node] ∧
        (templatePart t a call).MadeOf src := by
    intro t a ts call hw ha hts
    rw [bne_iff_ne, not_not] at hw
    exact templatePart_laid hts hw (beq_iff_eq.1 ha) call
  fun_induction nameParts ts with
  | case1 | case2 => exact ⟨.skip suffix_rfl, .empty⟩
  | case3 t ts hw ho =>
    rw [bne_iff_ne, not_not] at hw
    exact ⟨operatorPart_laid hts hw, .last (.special (by decide : "operator_name" ∈ chainKinds))⟩
  | case4 t hw ho name => exact (hp hw hts).imp_right .last
  | case5 t hw ho a ha part => exact (ht _ hw ha hts).imp_right .last
  | case6 t hw ho a ha s ts hc more part ih =>
    obtain ⟨hl, hm⟩ := ht (at? "(" (s :: ts)) hw ha hts
    obtain ⟨hmo, hch⟩ := ih ((suffix_append [t, a, s] ts).trans hts)
    refine ⟨hl.append (hmo.skip_left (suffix_cons s ts)), hch.extend hm ?_⟩
    change (templatePart t a (at? "(" (s :: ts))).Qualifies
    rw [at?_paren_eq_false hc]
    exact .inr rfl
  | case7 t hw ho a ha s ts hc part =>
    exact (ht _ hw ha hts).imp_right .last
  | case8 t hw ho name a ts ha hc more ih =>
    obtain ⟨hl, hm⟩ := hp hw hts
    obtain ⟨hmo, hch⟩ := ih ((suffix_append [t, a] ts).trans hts)
    exact ⟨hl.append (hmo.skip_left (suffix_cons a ts)), hch.extend hm (.inl rfl)⟩
  | case9 t hw ho name a ts ha hc => exact (hp hw hts).imp_right .last

theorem nameChain_row (hpa : NamePart.Chain src (part :: more))
    (h : Row (Named src) us i ((part :: more).map (·.node))) :
    Row (Named src) us i [nameChain part more] ∧ (nameChain part more).kind ∈ chainKinds := by
  induction more generalizing part i with
  | nil =>
    refine ⟨h, ?_⟩
    cases hpa with
    | last hp =>
      cases hp with
      | plain ht hk => exact (by decide : "identifier" ∈ chainKinds)
      | special hki => exact hki
  | cons next more ih =>
    cases hpa with
    | cons hp hq hm =>
      cases hp.qualifier_row h with
      | cons hi hn hns =>
        obtain ⟨hrow, hki⟩ := ih hm hns
        exact ⟨(Row.cons hi hn hrow).named_spanning (by decide) (.qualified hq hki)
          (spelt_of_kind (by decide : "qualified_identifier" ∉ spelledKinds)),
          (by decide : "qualified_identifier" ∈ chainKinds)⟩

/-- The node is a name that may stand where a name is declared or used, over the tokens from `ts`
to `us`. -/
structure NameLaid (src : Bytes) (ts us : List Token) (n : Node) : Prop where
  laid : Laid (Named src) ts us [n]
  kind : n.kind ∈ nameKinds

theorem nameNode_laid (hkind : kind ∈ ["identifier", "field_identifier"])
    (hp : NamePart.Chain src (part :: more)) (h : Laid (Named src) ts us ((part :: more).map (·.node))) :
    NameLaid src ts us (nameNode kind part more) := by
  have hki : ∀ k ∈ ["identifier", "field_identifier"], k ∈ flatKinds ∧ k ∈ nameKinds := by decide
  unfold nameNode
  split
  · next n =>
      refine ⟨h.map fun i hrow => ?_, (hki kind hkind).2⟩
      cases hp with
      | last hpa =>
        cases hpa with
        | plain ht hk =>
          cases hrow with
          | cons hi hn hns => exact .cons hi (named_word (hki kind hkind).1 ht hk) hns
  · exact ⟨h.map fun i hrow => (nameChain_row hp hrow).1,
      mem_cons_of_mem _ (nameChain_row hp (h.row 0 fun _ _ => Nat.zero_le _)).2⟩

end Names

section Lists

variable {itemKind : String} {opening : Token} {item : Option (Token × Token)}

theorem symbol_laid (hki : kind.toList.head?.any Char.isAlpha = false)
    (hts : t :: ts <:+ scan src) (hk : t.kind ≠ .finish) :
    Laid (Contained src) (t :: ts) ts [.leaf kind t] :=
  .leaf hts (.childless rfl (contained_symbol (hts.subset mem_cons_self) hk hki))

theorem closeItem_row (hk : kind ∈ flatKinds)
    (hit : ∀ ends ∈ item, Token.Run src i ts ends.1 ends.2) (hi : Tokens.Ahead ts i) :
    Row (Contained src) ts i (closeItem kind item) := by
  cases item with
  | none => exact .nil hi
  | some ends => exact (hit ends rfl).row hk

theorem extendItem_run (hts : t :: ts <:+ scan src) (hlt : t.start < t.stop)
    (hit : ∀ ends ∈ item, Token.Run src i (t :: ts) ends.1 ends.2) (hi : Tokens.Ahead (t :: ts) i) :
    ∀ ends ∈ extendItem t item, Token.Run src i ts ends.1 ends.2 := by
  intro ends hen
  cases item with
  | none =>
    cases hen
    exact run_single hts hlt hi
  | some old =>
    cases hen
    exact (hit old rfl).extend hts

theorem ne_finish_of_not_end {b : Bool} (h : ¬(t.isFinish || b)) : t.kind ≠ .finish := by
  intro hk
  simp [isFinish, hk] at h

theorem listItems_row (hki : kind ∈ flatKinds) (hts : ts <:+ scan src)
    (item : Option (Token × Token)) (depth : Nat) :
    ∀ i, (∀ ends ∈ item, Token.Run src i ts ends.1 ends.2) → Tokens.Ahead ts i →
      Row (Contained src) (listItems kind item depth ts).rest i (listItems kind item depth ts).value := by
  fun_induction listItems kind item depth ts with
  | case1 item depth => exact fun i hit hi => closeItem_row hki hit hi
  | case2 item depth t ts hend => exact fun i hit hi => closeItem_row hki hit hi
  | case3 item depth t ts hend hc more ih =>
    intro i hit hi
    have hr := (suffix_cons t ts).trans hts
    have hc : Laid (Contained src) (t :: ts) ts [.leaf "," t] :=
      symbol_laid (by decide) hts (ne_finish_of_not_end hend)
    refine (closeItem_row hki hit hi).append fun j hj => ?_
    exact (hc.row j hj).append fun k hk => ih hr k (by simp) hk
  | case4 item depth t ts hend hc inner ih =>
    intro i hit hi
    have hlt := start_lt_stop (hts.subset mem_cons_self) (ne_finish_of_not_end hend)
    exact ih ((suffix_cons t ts).trans hts) i (extendItem_run hts hlt hit hi) (hi.suffix (suffix_cons t ts))

theorem parenthesised_laid (hl : (kind, itemKind) ∈ listedKinds)
    (hts : opening :: ts <:+ scan src) (ho : opening.spelled "(") :
    Laid (Contained src) (opening :: ts) (parenthesised kind itemKind opening ts).rest
      [(parenthesised kind itemKind opening ts).value] := by
  have hk : ∀ k ∈ listedKinds, k.1 ∉ useKinds ++ defineKinds ∧ k.1 ∉ outerKinds ∧
      k.1 ∈ listKinds ∧ k.2 ∈ flatKinds := by decide
  obtain ⟨hki, hou, hli, hitem⟩ := hk _ hl
  have ht := (suffix_cons opening ts).trans hts
  have hh : Laid (Contained src) (opening :: ts) ts [.leaf "(" opening] :=
    symbol_laid (by decide) hts
      (kind_ne_finish (hts.subset mem_cons_self) ho (by decide))
  have hit : Laid (Contained src) ts (listItems itemKind none 0 ts).rest
      (listItems itemKind none 0 ts).value :=
    ⟨listItems_suffix itemKind none 0 ts, fun i hi => listItems_row hitem ht none 0 i (by simp) hi⟩
  have hall := hh.append hit
  -- the list as a node, whatever its items are
  have hm : ∀ {rest more}, Laid (Contained src) (opening :: ts) rest (.leaf "(" opening :: more) →
      (parenthesised kind itemKind opening ts).value = .spanning kind (.leaf "(" opening) more [] →
      Laid (Contained src) (opening :: ts) rest [.spanning kind (.leaf "(" opening) more []] := by
    intro rest more hla hv
    refine hla.map fun _ hrow => hrow.spanning (fun _ hn => hn.inert.toSited) (by simp) fun hs => ?_
    exact ⟨⟨hs, hki, fun _ => ⟨itemKind, opening, ts, hl, hts, ho, hv.symm⟩,
      hrow.lt_spanning (fun _ hn => hn) hs⟩, .list hli, hou⟩
  unfold parenthesised at hm ⊢
  generalize listItems itemKind none 0 ts = items at hit hall hm
  obtain ⟨nodes, rest, hle⟩ := items
  cases rest with
  | nil => exact hm hall rfl
  | cons t rest =>
    dsimp only at hm ⊢
    split
    · next hc =>
        have hr := hit.suffix.trans ht
        have hlast : Laid (Contained src) (t :: rest) rest [.leaf ")" t] :=
          symbol_laid (by decide) hr
            (kind_ne_finish (hr.subset mem_cons_self) hc (by decide))
        exact hm (hall.append hlast) (by rw [if_pos hc])
    · next hc => exact hm hall (by rw [if_neg hc])

theorem parenthesised_kind (kind itemKind : String) (opening : Token) (ts : List Token) :
    (parenthesised kind itemKind opening ts).value.kind = kind := by
  unfold parenthesised
  dsimp only
  split
  · rfl
  · split
    · rfl
    · rfl

theorem map_listItems (item : Option (Token × Token)) (depth : Nat) (ts : List Token) :
    (listItems "argument" item depth ts).value.map
        (fun c => if c.kind == "argument" then c.relabel "parameter_declaration" else c) =
      (listItems "parameter_declaration" item depth ts).value ∧ (listItems "argument" item depth ts).rest =
      (listItems "parameter_declaration" item depth ts).rest := by
  have hc : ∀ item, (closeItem "argument" item).map
      (fun c => if c.kind == "argument" then c.relabel "parameter_declaration" else c) =
        closeItem "parameter_declaration" item := by
    intro item
    cases item with
    | none => rfl
    | some ends => rfl
  fun_induction listItems "argument" item depth ts with
  | case1 item depth => exact ⟨hc item, rfl⟩
  | case2 item depth t ts hend =>
    rw [listItems, if_pos hend]
    exact ⟨hc item, rfl⟩
  | case3 item depth t ts hend hco more ih =>
    rw [listItems, if_neg hend, if_pos hco]
    refine ⟨?_, ih.2⟩
    change List.map _ (_ ++ _ :: _) = _ ++ _ :: _
    rw [map_append, map_cons, hc, ih.1]
    rfl
  | case4 item depth t ts hend hco inner ih =>
    rw [listItems, if_neg hend, if_neg hco]
    exact ih

theorem asParameters_spanning (opening : Token) (nodes : List Node) :
    asParameters (.spanning "argument_list" (.leaf "(" opening) nodes []) =
      .spanning "parameter_list" (.leaf "(" opening) (nodes.map fun c =>
        if c.kind == "argument" then c.relabel "parameter_declaration" else c) [] := by
  have hs : ∀ c : Node,
      (if c.kind == "argument" then c.relabel "parameter_declaration" else c).span = c.span := by
    intro c
    split
    · rfl
    · rfl
  unfold asParameters spanning
  rw [getLastD_eq_getLast?, getLastD_eq_getLast?, getLast?_map]
  cases nodes.getLast? with
  | none => rfl
  | some c =>
    rw [map_some, getD_some, getD_some, hs]
    rfl

theorem asParameters_parenthesised (opening : Token) (ts : List Token) :
    asParameters (parenthesised "argument_list" "argument" opening ts).value =
      (parenthesised "parameter_list" "parameter_declaration" opening ts).value ∧
    (parenthesised "argument_list" "argument" opening ts).rest =
      (parenthesised "parameter_list" "parameter_declaration" opening ts).rest := by
  obtain ⟨hmap, hr⟩ := map_listItems none 0 ts
  unfold parenthesised
  generalize listItems "argument" none 0 ts = args at hmap hr
  generalize listItems "parameter_declaration" none 0 ts = params at hmap hr
  obtain ⟨args, rest, hle⟩ := args
  obtain ⟨params, rest', hle'⟩ := params
  subst hmap hr
  cases rest with
  | nil => exact ⟨asParameters_spanning opening args, rfl⟩
  | cons t rest =>
    dsimp only
    split
    · refine ⟨(asParameters_spanning opening _).trans ?_, rfl⟩
      rw [map_append]
      rfl
    · exact ⟨asParameters_spanning opening args, rfl⟩

end Lists

section Statements

variable {first last : Token}

theorem controlEnd_run (depth : Nat) (hts : ts <:+ scan src) (h : Token.Run src i ts first last) :
    Token.Run src i (controlEnd depth last ts).rest first (controlEnd depth last ts).value := by
  fun_induction controlEnd depth last ts with
  | case1 depth last => exact h
  | case2 depth last t ts hend => exact h
  | case3 depth last t ts hend inner hc => exact h.extend hts
  | case4 depth last t ts hend inner hc ih =>
    exact ih ((suffix_cons t ts).trans hts) (h.extend hts)

theorem plainEnd_run (hts : ts <:+ scan src) (h : Token.Run src i ts first last) :
    Token.Run src i (plainEnd last ts).rest first (plainEnd last ts).value := by
  fun_induction plainEnd last ts with
  | case1 last => exact h
  | case2 last t ts hend => exact h
  | case3 last t ts hend hc => exact h.extend hts
  | case4 last t ts hend hc ih => exact ih ((suffix_cons t ts).trans hts) (h.extend hts)

theorem statement_laid {r : Reading Token ts} (hre : r.rest <:+ ts)
    (hr : ∀ i, Tokens.Ahead (t :: ts) i → Token.Run src i r.rest t r.value) :
    Laid (Contained src) (t :: ts) r.rest [.between "statement" t r.value] :=
  ⟨hre.trans (suffix_cons t ts), fun i hi => (hr i hi).row (by decide)⟩

theorem control_laid (hts : t :: ts <:+ scan src) (hlt : t.start < t.stop) :
    Laid (Contained src) (t :: ts) (control t ts).rest [(control t ts).value] :=
  statement_laid (controlEnd_suffix 0 t ts) fun _ hi =>
    controlEnd_run 0 ((suffix_cons t ts).trans hts) (run_single hts hlt hi)

theorem plain_laid (hts : t :: ts <:+ scan src) (hlt : t.start < t.stop) :
    Laid (Contained src) (t :: ts) (plain t ts).rest [(plain t ts).value] :=
  statement_laid (plainEnd_suffix t ts) fun _ hi =>
    plainEnd_run ((suffix_cons t ts).trans hts) (run_single hts hlt hi)

end Statements

section Declarators

variable {vs : List Token} {name params function : Node} {first : Token}

theorem brackets_value (hts : ts <:+ scan src) : ∀ close ∈ (brackets ts).value,
    close ∈ ts ∧ close.spelledIn ["[", "]"] ∧ Tokens.Ahead (brackets ts).rest close.stop := by
  intro close hc
  unfold brackets at hc ⊢
  split at hc
  · cases hc
  · next t ts =>
      split at hc
      · next ho =>
          have hs := skipTo_suffix (·.spelled "]") ts
          have ha := ahead_tail hts
          rw [if_pos ho]
          cases hc
          change _ ∧ _ ∧ Tokens.Ahead (Tokens.skip "]" (skipTo (·.spelled "]") ts)) _
          simp only [Reading.skipTo, Reading.stay]
          generalize skipTo (·.spelled "]") ts = us at hs ⊢
          cases us with
          | nil => simpa [Tokens.skip, at?, Token.spelledIn, ho] using ha.suffix hs
          | cons u us =>
            -- the bracket that ends them, or the one that opens them
            by_cases hu : u.spelled "]"
            · have hl := ahead_tail (hs.trans ((suffix_cons t ts).trans hts))
              simpa [Tokens.skip, at?, Option.filter, Token.spelledIn, hu] using
                ⟨.inr (hs.subset mem_cons_self), hl⟩
            · simpa [Tokens.skip, at?, Option.filter, Token.spelledIn, hu, ho] using
                ha.suffix hs
      · cases hc

/-- The name of an array with its end moved to a later bracket. -/
theorem contained_array {close : Token} (h : Inert src name) (hk : name.kind ∈ nameKinds)
    (hc : close ∈ scan src) (hb : close.spelledIn ["[", "]"])
    (hle : name.stop ≤ close.stop) : Contained src (variableDeclarator [] (some close) name) := by
  have hlt := Nat.lt_of_lt_of_le h.lt hle
  refine contained_of_form (.variableDeclarator mem_cons_self hk)
    (by decide : "array_declarator" ∉ mainKinds) ?_ hlt
  exact
    { le := Nat.le_of_lt hlt
      inside := forall_mem_singleton.2 ⟨Nat.le_refl _, hle⟩
      ordered := pairwise_singleton _ _
      fields := by simp [variableDeclarator, spanning]
      starts := h.starts
      ends := .array rfl hc hb rfl
      full := fun _ => hlt }

theorem variableDeclarator_laid (marks : List Token) (hus : us <:+ scan src)
    (h : NameLaid src ts us name) :
    Laid (Contained src) ts (brackets us).rest [variableDeclarator marks (brackets us).value name] ∧
      (variableDeclarator marks (brackets us).value name).kind ∈
        "array_declarator" :: "pointer_declarator" :: nameKinds := by
  have hr := brackets_suffix us
  have hc := brackets_value hus
  cases hv : (brackets us).value with
  | some close =>
    obtain ⟨hmem, hs, ha⟩ := hc close hv
    refine ⟨⟨hr.trans h.laid.suffix, fun i hi => ?_⟩, mem_cons_self⟩
    cases h.laid.contained.row i hi with
    | cons hle hn hns =>
      cases hns with
      | nil hb =>
        have hst := Nat.le_trans (hb close hmem) close.start_le_stop
        exact .single hle (.node (contained_array hn.here.inert h.kind (hus.subset hmem)
          hs hst) (forall_mem_singleton.2 hn)) ha
  | none =>
    have hsk := h.laid.contained.skip_right hr
    unfold variableDeclarator
    dsimp only
    split
    · exact ⟨hsk.map fun _ hrow => hrow.contained_spanning (by decide)
        (.variableDeclarator (by decide) h.kind) (by simp), mem_cons_of_mem _ mem_cons_self⟩
    · exact ⟨hsk, mem_cons_of_mem _ (mem_cons_of_mem _ h.kind)⟩

theorem functionDeclarator_laid (hna : NameLaid src ts us name)
    (hp : Laid (Contained src) us vs [params]) (hk : params.kind = "parameter_list") :
    Laid (Contained src) ts vs [functionDeclarator name params] := by
  have hs := (hna.laid.every name mem_cons_self).mono fun _ hn => hn.spelt
  exact (hna.laid.contained.append hp).map fun _ hrow =>
    hrow.contained_spanning (by decide) (.functionDeclarator hna.kind hs hk) (by simp)

theorem wrapDeclarator_laid (marks : List Token) (h : Laid (Contained src) ts us [function])
    (hk : function.kind = "function_declarator") :
    Laid (Contained src) ts us [wrapDeclarator marks function] := by
  unfold wrapDeclarator
  split
  · exact h.map fun _ hrow => hrow.contained_spanning (by decide) (.pointerToFunction hk) (by simp)
  · split
    · exact h.map fun _ hrow => hrow.contained_spanning (by decide) (.reference hk) (by simp)
    · exact h

theorem prototypeNode_laid (hts : first :: ts <:+ scan src)
    (h : Laid (Contained src) (first :: ts) us [function]) (hk : function.kind = "function_declarator") :
    Laid (Complete src) (first :: ts) us [prototypeNode first function] :=
  h.complete.spanningFrom (fun _ hn => hn.settled.toSited) hts (by simp) fun hs =>
    complete_of_form (.prototype hk) (by decide : "field_declaration" ∉ mainKinds) hs

theorem variableNode_laid (hts : first :: ts <:+ scan src)
    (h : Laid (Contained src) (first :: ts) us [name])
    (hk : name.kind ∈ "array_declarator" :: "pointer_declarator" :: nameKinds) :
    Laid (Complete src) (first :: ts) us [variableNode first name] := by
  have hin : Laid (Contained src) (first :: ts) us [.spanning "init_declarator" name [] []] :=
    h.map fun _ hrow => hrow.contained_spanning (by decide) (.initDeclarator hk) (by simp)
  exact hin.complete.spanningFrom (fun _ hn => hn.settled.toSited) hts (by simp) fun hs =>
    complete_of_form (.variableDeclaration rfl) (by decide : "declaration" ∉ mainKinds) hs

/-- A call is a use, and there is none in its name. -/
theorem callNode_laid {callee args : Node} (hca : NameLaid src ts us callee)
    (ha : Laid (Contained src) us vs [args]) (hk : args.kind = "argument_list") :
    Laid (Complete src) ts vs [callNode callee args] := by
  refine (hca.laid.contained.append ha).map fun i hrow => ?_
  have hin := (hrow.every callee mem_cons_self).mono fun _ hn => hn.inert
  have hco := hrow.mono fun _ hn => hn.complete
  have hcall : Row (Complete src) vs i
      [.spanning "call_expression" callee [args] [("function", 0), ("arguments", 1)]] :=
    hco.spanning (fun _ hn => hn.settled.toSited) (by simp) fun hs =>
      ⟨{ hs with
          use := fun _ => ⟨callee, [args], rfl, hin⟩
          call := fun _ c hc => (hrow.every c hc).here.inert.lt
          define := fun hd => absurd hd (by decide : "call_expression" ∉ defineKinds)
          list := fun hl => absurd hl (by decide : "call_expression" ∉ listedKinds.map (·.1)) },
        .call hca.kind hk, (by decide : "call_expression" ∉ outerKinds)⟩
  exact hcall.spanning (fun _ hn => hn.settled.toSited) (by simp) fun hs =>
    complete_of_form (.expression rfl) (by decide : "expression_statement" ∉ mainKinds) hs

end Declarators

end Grammar

/-- The node of a declaration that starts with the token `first` is made over what is laid out from
`ts` to `rest`. -/
inductive Declaration.Made (src : Bytes) (first : Token) (ts rest : List Token) : Declaration → Prop where
  | function {declarator : Node} (h : Excerpt.Laid (Contained src) ts rest [declarator]) :
      Made src first ts rest (.function declarator)
  | prototype {function : Node} (h : Excerpt.Laid (Contained src) ts rest [function])
      (hkind : function.kind = "function_declarator") :
      Made src first ts rest (.whole (Grammar.prototypeNode first function))
  | named {declarator : Node} (h : Excerpt.Laid (Contained src) ts rest [declarator])
      (hkind : declarator.kind ∈ "array_declarator" :: "pointer_declarator" :: nameKinds) :
      Made src first ts rest (.whole (Grammar.variableNode first declarator))

namespace Declaration.Made

variable {first : Token} {rest : List Token} {d : Declaration}

theorem laid (h : d.Made src first us rest) (hts : first :: ts <:+ scan src)
    (hus : us <:+ first :: ts) : d.Laid src (first :: ts) rest := by
  cases h with
  | function h => exact .function (h.skip_left hus)
  | prototype h hk => exact .whole (Grammar.prototypeNode_laid hts (h.skip_left hus) hk)
  | named h hk => exact .whole (Grammar.variableNode_laid hts (h.skip_left hus) hk)

theorem lt_stop (h : d.Made src first us rest) (hi : Tokens.Ahead us i) {n : Node}
    (hd : d = .whole n) : i < n.stop := by
  cases h with
  | function h => cases hd
  | prototype h hk =>
    cases hd
    exact h.lt_stop hi
  | named h hk =>
    cases hd
    exact h.lt_stop hi

end Declaration.Made

namespace Grammar

section Declared

variable {first opening : Token} {marks : List Token} {part : NamePart} {more : List NamePart}

theorem declaredFunction_made (inClass : Bool) (hus : us <:+ scan src)
    (hpa : NamePart.Chain src (part :: more))
    (h : Laid (Named src) us (opening :: ts) ((part :: more).map (·.node)))
    (ho : opening.spelled "(") :
    (declaredFunction inClass first marks part more opening ts).value.Made src first us
      (declaredFunction inClass first marks part more opening ts).rest := by
  have hn : NameLaid src us (opening :: ts)
      (nameNode (if inClass then "field_identifier" else "identifier") part more) := by
    refine nameNode_laid ?_ hpa h
    cases inClass with
    | true => exact mem_cons_of_mem _ mem_cons_self
    | false => exact mem_cons_self
  have hp := parenthesised_laid (by decide : ("parameter_list", "parameter_declaration") ∈ _)
    (h.suffix.trans hus) ho
  have hf := functionDeclarator_laid hn hp (parenthesised_kind _ _ _ _)
  have hs := skipTo_suffix (·.spelledIn ["\x7b", ";"])
    (parenthesised "parameter_list" "parameter_declaration" opening ts).rest
  unfold declaredFunction
  dsimp only
  split
  · exact .function ((wrapDeclarator_laid marks hf rfl).skip_right hs)
  · exact .prototype (hf.skip_right ((skip_suffix ";" _).trans hs)) rfl

theorem declared_made (inClass : Bool) (hus : us <:+ scan src)
    (hp : NamePart.Chain src (part :: more)) (h : Laid (Named src) us ts ((part :: more).map (·.node))) :
    (declared inClass first marks part more ts).value.Made src first us
      (declared inClass first marks part more ts).rest := by
  have hn : NameLaid src us ts (nameNode "identifier" part more) :=
    nameNode_laid (by decide) hp h
  have hd := variableDeclarator_laid marks (h.suffix.trans hus) hn
  have hr := brackets_suffix ts
  unfold declared
  generalize brackets ts = r at hd hr
  obtain ⟨bracket, rest, hle⟩ := r
  dsimp only
  split
  · next hpa =>
      cases rest with
      | nil =>
        exact .named (hn.laid.contained.skip_right nil_suffix) (mem_cons_of_mem _
          (mem_cons_of_mem _ hn.kind))
      | cons opening rest =>
        have ho : opening.spelled "(" := by simpa [at?] using hpa
        exact declaredFunction_made inClass hus hp (h.skip_right hr) ho
  · exact .named (hd.1.skip_right (afterVariable_suffix rest)) hd.2

theorem called_laid (hus : us <:+ scan src) (hpa : NamePart.Chain src (part :: more))
    (h : Laid (Named src) us (opening :: ts) ((part :: more).map (·.node)))
    (ho : opening.spelled "(") :
    (called part more opening ts).value.Laid src us (called part more opening ts).rest := by
  have hn : NameLaid src us (opening :: ts) (nameNode "identifier" part more) :=
    nameNode_laid (by decide) hpa h
  have hts := h.suffix.trans hus
  have ha := parenthesised_laid (by decide : ("argument_list", "argument") ∈ _) hts ho
  have hp := parenthesised_laid (by decide : ("parameter_list", "parameter_declaration") ∈ _)
    hts ho
  obtain ⟨hv, hr⟩ := asParameters_parenthesised opening ts
  rw [← hv, ← hr] at hp
  unfold called
  dsimp only
  split
  · exact .function (functionDeclarator_laid hn hp rfl)
  · exact .whole ((callNode_laid hn ha (parenthesised_kind _ _ _ _)).skip_right
      (skip_suffix ";" _))

/-- A declaration, an expression or a statement is laid out over the tokens taken for it. -/
theorem declaration_laid (inClass : Bool) (hts : first :: ts <:+ scan src)
    (hlt : first.start < first.stop) : (declaration inClass first ts).value.Laid src (first :: ts)
      (declaration inClass first ts).rest := by
  obtain ⟨hh, hc⟩ := nameParts_laid hts
  have ha : Laid (Named src) (first :: ts) ((nameParts (first :: ts)).skipWhile isMark).rest
      ((nameParts (first :: ts)).value.map (·.node)) :=
    hh.skip_right (dropWhile_suffix _)
  obtain ⟨hn, hnextChain⟩ := nameParts_laid (ha.suffix.trans hts)
  have hs : Declaration.Laid src (first :: ts) (plain first ts).rest
      (.whole (plain first ts).value) := .whole (plain_laid hts hlt).complete
  unfold declaration
  extract_lets head marks after statement
  change NamePart.Chain _ after.value at hc
  change Laid _ _ after.rest (after.value.map _) at ha
  split
  · next part more rest h heq =>
      rw [heq] at hn hnextChain
      exact (declared_made inClass (ha.suffix.trans hts) hnextChain hn).laid hts ha.suffix
  · clear_value after
    obtain ⟨parts, rest, hle⟩ := after
    cases parts with
    | nil => exact hs
    | cons part more =>
      cases rest with
      | nil => exact hs
      | cons opening rest =>
        dsimp only
        split
        · next ho => exact called_laid hts hc ha ho
        · exact hs

end Declared

end Grammar

end Excerpt
