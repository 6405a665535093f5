import Excerpt.Proofs.Grammar.Declaration
import Excerpt.Proofs.Grammar.Step
import Excerpt.Proofs.Tree.Place
import Excerpt.Tree.Parse

/-!
# The layout of items

The items of a source are well formed and laid out over the tokens they are read
from, in both dialects. An item is built in two steps, as it is read: its lead
first, then the block that closes it. The layout of a whole tree follows by
induction over the tokens left. A function, a template or a class was read as an
item of its own (`Grown`).
-/

namespace Excerpt

open Node List Token BlockOwner Tokens Outcome Dialect Reading

variable {src : Bytes} {g : Grammar} {t : Token} {ts us rest : List Token} {owner : BlockOwner} {i : Nat}

namespace Node

/-- The kinds of nodes that are read as items of their own. -/
def ownKinds : List String :=
  ["function_definition", "template_declaration"] ++ classKinds

/-- The name of a namespace. -/
structure IsSpaceName (src : Bytes) (n : Node) : Prop where
  kind : n.kind = "namespace_identifier" ∨ n.kind = "nested_namespace_specifier"
  path : n.IsPath (scan src)

/-- The name of a class. -/
structure IsRecordName (src : Bytes) (n : Node) : Prop where
  kind : n.kind = "type_identifier"
  word : n.IsWord (scan src)

end Node

/-- The keywords of the message language that own a block. -/
def messageKeywords : List String := ["message", "enum", "service"]

/-- The owner starts with the token `t`, and the parts of it that have been read are laid out over the
tokens up to `rest`. -/
inductive BlockOwner.Laid (src : Bytes) (t : Token) (ts : List Token) :
    List Token → BlockOwner → Prop where
  | nobody : BlockOwner.Laid src t ts (t :: ts) .nobody
  | space {name : Option Node} {rest : List Token}
      (h : Excerpt.Laid (Contained src) ts rest name.toList)
      (hname : ∀ n ∈ name, n.IsSpaceName src) : BlockOwner.Laid src t ts rest (.space t name)
  | record {name : Option Node} {rest : List Token}
      (h : Excerpt.Laid (Contained src) ts rest name.toList)
      (hname : ∀ n ∈ name, n.IsRecordName src) : BlockOwner.Laid src t ts rest (.record t name)
  | function {declarator : Node} {rest : List Token}
      (h : Excerpt.Laid (Contained src) (t :: ts) rest [declarator]) :
      BlockOwner.Laid src t ts rest (.function t declarator)
  | message {name : Token} {rest : List Token} (h : t.spelledIn messageKeywords)
      (hts : ts = name :: rest) : BlockOwner.Laid src t ts rest (.message t name)

/-- What has been read of the item that starts with the token `t` is laid out over the tokens up to
`rest`. -/
inductive Lead.Laid (src : Bytes) (t : Token) (ts : List Token) : List Token → Lead → Prop where
  | none {rest : List Token} (h : rest <:+ t :: ts) : Lead.Laid src t ts rest (.whole none)
  | comment (h : t.isComment) : Lead.Laid src t ts ts (.whole (some (.leaf "comment" t)))
  | inner {n : Node} {rest : List Token} (h : Excerpt.Laid (Complete src) (t :: ts) rest [n]) :
      Lead.Laid src t ts rest (.whole (some n))
  | forward {name : Option Node} {rest : List Token}
      (h : Excerpt.Laid (Contained src) ts rest name.toList)
      (hname : ∀ n ∈ name, n.IsRecordName src) :
      Lead.Laid src t ts rest (.whole (some (Grammar.forwardRecord t name)))
  | opens {owner : BlockOwner} {rest : List Token} (h : owner.Laid src t ts rest) :
      Lead.Laid src t ts rest (.opens owner)

theorem BlockOwner.Laid.suffix (h : owner.Laid src t ts rest) : rest <:+ t :: ts := by
  cases h with
  | nobody => exact suffix_rfl
  | space h _ | record h _ => exact h.suffix.trans (suffix_cons t ts)
  | function h => exact h.suffix
  | @message name _ _ hts =>
    rw [hts]
    exact suffix_append [t, name] rest

theorem Lead.Laid.suffix {l : Lead} (h : l.Laid src t ts rest) : rest <:+ t :: ts := by
  cases h with
  | none h => exact h
  | comment _ => exact suffix_cons t ts
  | inner h => exact h.suffix
  | forward h _ => exact h.suffix.trans (suffix_cons t ts)
  | opens h => exact h.suffix

namespace Grammar

theorem leaf_laid {kind : String} (hf : Form src (.leaf kind t)) (hk : kind ∉ mainKinds)
    (hts : t :: ts <:+ scan src) : Laid (Complete src) (t :: ts) ts [.leaf kind t] :=
  .leaf hts (.childless rfl
    (complete_of_form hf hk (sited_leaf (hts.subset mem_cons_self))))

section Directives

theorem parameterNode_complete {n : Node} (ht : t ∈ scan src) (h : parameterNode t = .ok n) :
    ∃ kind, n = .leaf kind t ∧ Every (Complete src) n := by
  unfold parameterNode at h
  split at h
  · cases h
    exact ⟨_, rfl, .childless rfl (complete_of_form (.flat (by decide))
      (by decide : "identifier" ∉ mainKinds) (sited_leaf ht))⟩
  · next hw =>
      split at h
      · next kind hki =>
          cases h
          have hh := head_text_of_not_word ht (fun hk => hw (by rw [hk]; rfl)) (.inr hki)
          exact ⟨_, rfl, .childless rfl (complete_of_form (.symbol hh)
            (not_mem_of_symbol hh (by decide)) (sited_leaf ht))⟩
      · cases h

theorem definitionParameters_laid {nameStop : Nat} {r : Reading (Option Node) ts}
    (hts : ts <:+ scan src) (h : definitionParameters nameStop ts = .ok r) :
    Laid (Complete src) ts r.rest r.value.toList ∧ ∀ p ∈ r.value,
      p.kind = "preproc_params" ∧ ∃ t ∈ scan src, p.stop = t.stop := by
  unfold definitionParameters at h
  split at h
  · cases h
    exact ⟨.skip suffix_rfl, by simp [stay]⟩
  · next t ts =>
      have ht := (suffix_cons t ts).trans hts
      split at h
      · obtain ⟨inner, hinner, h⟩ := bind_eq_ok.1 h
        have hmem : ∀ s ∈ before (·.spelled ")") ts, s ∈ scan src := fun s hs =>
          ht.subset (takeWhile_subset _ hs)
        have hl := ((forall₂_and_left _ _).2 ⟨hmem, mapM_eq_ok.1 hinner⟩).imp
          fun s n hn => parameterNode_complete hn.1 hn.2
        have hsp : before (·.spelled ")") ts ++ skipTo (·.spelled ")") ts = ts :=
          takeWhile_append_dropWhile
        have hin : Laid (Complete src) ts (skipTo (·.spelled ")") ts) inner := by
          have hla := Laid.leaves (hsp.symm ▸ ht) hl
          rwa [hsp] at hla
        have ho := (leaf_laid (.symbol (by decide)) (by decide : "(" ∉ mainKinds) hts).append hin
        have hr := hin.suffix.trans ht
        split at h
        · cases h
        · next value closing rest hle heq =>
            have hsk : skipTo (·.spelled ")") ts = closing :: rest :=
              congrArg Reading.rest heq
            rw [hsk] at ho hr
            cases h
            have hc := leaf_laid (.symbol (by decide)) (by decide : ")" ∉ mainKinds) hr
            refine ⟨(ho.append hc).map fun _ hrow =>
              hrow.spanning (fun _ hn => hn.settled.toSited) (by simp) fun hsi =>
                complete_of_form (.list (by decide)) (by decide : "preproc_params" ∉ mainKinds) hsi, ?_⟩
            rintro p ⟨⟩
            refine ⟨rfl, closing, hr.subset mem_cons_self, ?_⟩
            change ((inner ++ [Node.leaf ")" closing]).getLastD _).stop = closing.stop
            rw [getLastD_concat]
            rfl
      · cases h
        exact ⟨.skip suffix_rfl, by simp [stay]⟩

/-- A definition over its name and its parameters, up to the end of its line. The tokens on the line
are passed over. -/
theorem definitionNode_laid {kind : String} {span : Span} {name : Node} {more : List Node}
    {fields : List (String × Nat)} {last : Token}
    (hki : kind ∈ defineKinds) (hfo : Form src ⟨kind, span, name :: more, fields⟩)
    (hts : t :: ts <:+ scan src)
    (hk : t.spelled "#define") (h : Laid (Complete src) ts us (name :: more))
    (hf : ∀ e ∈ fields, e.2 < (name :: more).length) (hl : last ∈ scan src)
    (hend : (more.getLastD name).stop = last.stop)
    (hsp : span = ⟨t.start, last.stop + definitionLength (src.drop last.stop), t.point,
      ⟨t.point.row + (src.slice t.start (last.stop + definitionLength (src.drop last.stop))).newlines, 0⟩⟩) :
    Laid (Complete src) (t :: ts) (skipTo (span.stop ≤ ·.start) us)
      [⟨kind, span, name :: more, fields⟩] := by
  have hs : ∀ n, Complete src n → Sited src n := fun _ hn => hn.settled.toSited
  have hrow := h.row t.stop (ahead_tail hts)
  have hb := hrow.start_le hs
  have hst : ∀ c ∈ name :: more, t.start ≤ c.start := fun c hc =>
    Nat.le_trans t.start_le_stop (hb c hc)
  have hstop : ∀ c ∈ name :: more, c.stop ≤ span.stop := by
    intro c hc
    have hle := hrow.stop_le hs c hc
    rw [hend] at hle
    rw [hsp]
    exact Nat.le_trans hle (Nat.le_add_right _ _)
  have hna := hs name (hrow.every name mem_cons_self).here
  have hle : span.start ≤ span.stop := by
    rw [hsp]
    exact Nat.le_trans (hst name mem_cons_self) (Nat.le_trans hna.le (hsp ▸ hstop name mem_cons_self))
  have ht : t ∈ scan src := hts.subset mem_cons_self
  have hfu : span.start < src.length → span.start < span.stop := by
    have hfi : span.start ≤ name.start := by
      rw [hsp]
      exact hst name mem_cons_self
    have hl := hstop name mem_cons_self
    have hnameFull := hna.full
    have hnameLe := hna.le
    omega
  have hno : ∀ k ∈ defineKinds, k ∉ useKinds ∧ k ∉ listedKinds.map (·.1) ∧ k ∉ outerKinds := by
    decide
  obtain ⟨huse, hli, ho⟩ := hno kind hki
  subst hsp
  have hstopLe := endsAt_le ⟨last, hl, .inr rfl⟩
  have hsk := skipTo_suffix (last.stop + definitionLength (src.drop last.stop) ≤ ·.start) us
  have hend : ∀ stop row, t.start ≤ stop → row = t.point.row + (src.slice t.start stop).newlines →
      row = Bytes.newlines (src.take stop) := by
    rintro stop row hle rfl
    rw [point_eq ht, Point.row_ofOffset]
    exact Point.newlines_take_add_slice hle
  refine ⟨(hsk.trans h.suffix).trans (suffix_cons t ts), fun i hi => .single
    (hi t mem_cons_self) (.node ⟨?_, hfo, ho⟩ hrow.every)
    (ahead_skipTo (h.suffix.trans ((suffix_cons t ts).trans hts)) hstopLe)⟩
  exact
    { le := hle
      inside := fun c hc => ⟨hst c hc, hstop c hc⟩
      ordered := hrow.pairwise hs
      fields := hf
      starts := ⟨t, ht, rfl, rfl⟩
      ends := .definition hki hl rfl (hend _ _ hle rfl)
      full := hfu
      use := fun h => absurd h huse
      call := fun (h : kind = _) => absurd (h ▸ mem_cons_self) huse
      define := fun _ => ⟨⟨t, ht, hk, rfl, hb⟩, ⟨last, hl, rfl⟩, hend _ _ hle rfl⟩
      list := fun h => absurd h hli }

theorem definition_laid (hts : t :: ts <:+ scan src) (hk : t.spelled "#define")
    {r : Reading Node ts} (h : definition src t ts = .ok r) :
    Laid (Complete src) (t :: ts) r.rest [r.value] := by
  unfold definition at h
  split at h
  · cases h
  · next name ts =>
      have hn := (suffix_cons t _).trans hts
      obtain ⟨params, hpa, h⟩ := bind_eq_ok.1 h
      obtain ⟨hl, hv⟩ := definitionParameters_laid ((suffix_cons name ts).trans hn) hpa
      have hall := (leaf_laid (.flat (by decide)) (by decide : "identifier" ∉ mainKinds) hn).append hl
      split at h
      · next hno =>
          rw [hno] at hall h
          cases h
          exact definitionNode_laid (by decide) (.definition rfl) hts hk hall (by simp)
            (hn.subset mem_cons_self) rfl rfl
      · next p hp =>
          obtain ⟨hki, closing, hc, hs⟩ := hv p hp
          rw [hp] at hall h
          cases h
          exact definitionNode_laid (by decide) (.functionLikeDefinition rfl hki) hts hk hall
            (by simp) hc hs (by rw [← hs])

theorem directive_laid (hts : t :: ts <:+ scan src) {r : Reading Node ts}
    (h : directive src t ts = .ok r) : Laid (Complete src) (t :: ts) r.rest [r.value] := by
  unfold directive at h
  split at h
  · next hk => exact definition_laid hts hk h
  · cases h
    exact (leaf_laid (.flat (by decide)) (by decide) hts).skip_right (skipTo_suffix _ _)

end Directives

section Leads

variable {first : Token} {last : Option Token} {inClass : Bool}

theorem namespaceName_run (hts : ts <:+ scan src)
    (h : Token.Run src i ts first (last.getD first)) :
    Row (Contained src) (namespaceName first last ts).rest i [(namespaceName first last ts).value] := by
  have hn : ∀ {last : Option Token} {us : List Token},
      Token.Run src i us first (last.getD first) →
      Row (Contained src) us i [namespaceName.name first last] := by
    intro last us hrun
    cases last with
    | none => exact (hrun.row (by decide) : Row _ _ _ [.between "namespace_identifier" first first])
    | some last => exact hrun.row (by decide)
  fun_induction namespaceName first last ts with
  | case1 last a b ts hc ih =>
    have hb := (suffix_cons a _).trans hts
    exact ih ((suffix_cons b ts).trans hb) ((h.extend hts).extend hb)
  | case2 last a b ts hc => exact hn h
  | case3 last ts hs => exact hn h

theorem namespaceName_laid (hts : first :: ts <:+ scan src) (hk : first.kind = .word) :
    Laid (Contained src) (first :: ts) (namespaceName first none ts).rest
      [(namespaceName first none ts).value] := by
  have hlt := start_lt_stop (hts.subset mem_cons_self) (by rw [hk]; decide)
  refine ⟨(namespaceName_suffix first none ts).trans (suffix_cons first ts), fun i hi => ?_⟩
  exact namespaceName_run ((suffix_cons first ts).trans hts) (run_single hts hlt hi)

theorem namespaceName_kind (first : Token) (last : Option Token) (ts : List Token) :
    (namespaceName first last ts).value.kind = "namespace_identifier" ∨
      (namespaceName first last ts).value.kind = "nested_namespace_specifier" := by
  fun_induction namespaceName first last ts with
  | case1 last a b ts hc ih => exact ih
  | case2 last | case3 last =>
    cases last with
    | none => exact .inl rfl
    | some last => exact .inr rfl

/-- The name of a namespace is a path that starts with the last word so far. -/
theorem namespaceName_path
    (hwo : (last.getD first).kind = .word) (ts : List Token) :
    ∃ us words, last.getD first :: ts = us ++ (namespaceName first last ts).rest ∧
      Token.Path us words ∧ words.head? = some (last.getD first) ∧
      (namespaceName first last ts).value.start = first.start ∧
      ∀ w ∈ words.getLast?, (namespaceName first last ts).value.stop = w.stop := by
  have hn : ∀ last : Option Token, (namespaceName.name first last).start = first.start ∧
      (namespaceName.name first last).stop = (last.getD first).stop := by
    intro last
    cases last with
    | none => exact ⟨rfl, rfl⟩
    | some last => exact ⟨rfl, rfl⟩
  fun_induction namespaceName first last ts with
  | case1 last a b ts hc ih =>
    rw [Bool.and_eq_true, beq_iff_eq] at hc
    obtain ⟨us, words, hus, hp, hh, hs, hst⟩ := ih hc.2
    refine ⟨last.getD first :: a :: us, last.getD first :: words, ?_, .cons hwo hc.1 hp,
      rfl, hs, ?_⟩
    · exact congrArg (fun vs => last.getD first :: a :: vs) hus
    · intro w hw
      rw [getLast?_cons] at hw
      cases hl : words.getLast? with
      | none =>
        rw [getLast?_eq_none_iff.1 hl] at hh
        cases hh
      | some v =>
        rw [hl] at hw
        cases hw
        exact hst v hl
  | case2 last a b ts hc =>
    refine ⟨[last.getD first], [last.getD first], rfl, .last hwo, rfl, (hn last).1, ?_⟩
    rintro w ⟨⟩
    exact (hn last).2
  | case3 last ts hsh =>
    refine ⟨[last.getD first], [last.getD first], rfl, .last hwo, rfl, (hn last).1, ?_⟩
    rintro w ⟨⟩
    exact (hn last).2

theorem isSpaceName_namespaceName (hwo : first.kind = .word)
    (hts : first :: ts <:+ scan src) : (namespaceName first none ts).value.IsSpaceName src := by
  obtain ⟨us, words, hus, hp, hh, hs, hst⟩ :=
    namespaceName_path (show ((none : Option Token).getD first).kind = .word from hwo) ts
  have hf : us <+: first :: ts := ⟨_, hus.symm⟩
  refine ⟨namespaceName_kind first none ts, us, words, hf.isInfix.trans hts.isInfix, hp, ?_, hst⟩
  intro w hw
  rw [hh] at hw
  cases hw
  exact hs

theorem namespaceLead_laid (hts : t :: ts <:+ scan src) :
    (namespaceLead t ts).value.Laid src t ts (namespaceLead t ts).rest := by
  have hn : Lead.Laid src t ts ts (.opens (.space t none)) := .opens (.space (.skip suffix_rfl) (by simp))
  unfold namespaceLead
  split
  · exact hn
  · next first ts =>
      split
      · next hw =>
          have ht := (suffix_cons t _).trans hts
          rw [beq_iff_eq] at hw
          refine .opens (.space (namespaceName_laid ht hw) ?_)
          rintro n ⟨⟩
          exact isSpaceName_namespaceName hw ht
      · exact hn

theorem recordName_laid (hts : ts <:+ scan src) :
    Laid (Contained src) ts (recordName ts).rest (recordName ts).value.toList ∧
      ∀ n ∈ (recordName ts).value, n.IsRecordName src := by
  unfold recordName
  split
  · exact ⟨.skip suffix_rfl, by simp [stay]⟩
  · next t ts =>
      split
      · next hw =>
          rw [beq_iff_eq] at hw
          refine ⟨(word_laid (by decide) hts hw).contained, ?_⟩
          rintro n ⟨⟩
          exact ⟨rfl, t, hts.subset mem_cons_self, hw, rfl⟩
      · exact ⟨.skip suffix_rfl, by simp [stay]⟩

theorem recordKind_mem (keyword : Token) : recordKind keyword ∈ classKinds := by
  unfold recordKind
  split
  · decide
  · split
    · decide
    · decide

theorem recordLead_laid (hts : t :: ts <:+ scan src) :
    (recordLead t ts).value.Laid src t ts (recordLead t ts).rest := by
  obtain ⟨hl, hn⟩ := recordName_laid ((suffix_cons t ts).trans hts)
  have hs := hl.skip_right (skipTo_suffix (·.spelledIn ["\x7b", ";"]) _)
  unfold recordLead
  dsimp only
  split
  · exact .opens (.record hs hn)
  · exact .forward (hs.skip_right (skip_suffix ";" _)) hn

theorem skipEntry_value (ts : List Token) : (skipEntry ts).value = .whole none := by
  fun_induction skipEntry ts with
  | case1 | case2 | case3 => rfl
  | case4 t ts hend hc ih => exact ih

theorem protoLead_laid {r : Reading Lead (t :: ts)} (h : protoLead t ts = .ok r) :
    r.value.Laid src t ts r.rest := by
  unfold protoLead at h
  split at h
  · next hk =>
      rw [Bool.and_eq_true] at hk
      split at h
      · cases h
      · cases h
        exact .opens (.message hk.2 rfl)
  · split at h
    · cases h
      rw [skipEntry_value]
      exact .none (skipEntry_suffix (t :: ts))
    · cases h
      exact .none suffix_rfl

theorem declarationLead_laid (inClass : Bool) (hts : t :: ts <:+ scan src) (hlt : t.start < t.stop) :
    (wordLead.declarationLead inClass t ts).value.Laid src t ts
      (wordLead.declarationLead inClass t ts).rest := by
  have hv := declaration_laid inClass hts hlt
  unfold wordLead.declarationLead
  dsimp only
  split
  · next declarator heq =>
      rw [heq] at hv
      cases hv with
      | function h => exact .opens (.function h)
  · next node heq =>
      rw [heq] at hv
      cases hv with
      | whole h => exact .inner h

theorem wordLead_laid (inClass : Bool) (hts : t :: ts <:+ scan src) (hk : t.kind = .word) :
    (wordLead inClass t ts).value.Laid src t ts (wordLead inClass t ts).rest := by
  have hlt := start_lt_stop (hts.subset mem_cons_self) (by rw [hk]; decide)
  unfold wordLead
  split
  · exact namespaceLead_laid hts
  split
  · exact recordLead_laid hts
  split
  · exact .inner ((leaf_laid (.flat (by decide)) (by decide) hts).skip_right (skip_suffix ":" ts))
  split
  · exact .inner (control_laid hts hlt).complete
  · exact declarationLead_laid inClass hts hlt

theorem lead_laid (hts : t :: ts <:+ scan g.source)
    {start : Reading Lead (t :: ts)} (h : lead g inClass t ts = .ok start) :
    start.value.Laid g.source t ts start.rest := by
  unfold lead at h
  split at h
  · next hc =>
      cases h
      exact .comment hc
  split at h
  · obtain ⟨d, hd, h⟩ := bind_eq_ok.1 h
    cases h
    exact .inner (directive_laid hts hd)
  split at h
  · exact protoLead_laid h
  split at h
  · next hk =>
      cases h
      exact wordLead_laid inClass hts hk
  split at h
  · next hk =>
      cases h
      have ht := hts.subset mem_cons_self
      refine declarationLead_laid inClass hts (start_lt_stop ht fun hf => ?_)
      simp [hf] at hk
  split at h
  · cases h
    exact .none (suffix_cons t ts)
  split at h
  · cases h
    exact .opens .nobody
  · cases h
    exact .none suffix_rfl

theorem laid_of_opens (hts : t :: ts <:+ scan g.source)
    {start : Reading Lead (t :: ts)} (hs : lead g inClass t ts = .ok start)
    (ho : start.value = .opens owner) : owner.Laid g.source t ts start.rest := by
  have hl := lead_laid hts hs
  rw [ho] at hl
  generalize start.rest = rest at hl
  cases hl with
  | opens h => exact h

theorem exists_keyword {keyword : Token} (h : keyword.spelledIn messageKeywords) :
    ∃ s ∈ messageKeywords, keyword.spelled s ∧ Utf8.decodeLossy keyword.text = s := by
  obtain ⟨s, hs, hsp⟩ := List.any_eq_true.1 h
  refine ⟨s, hs, hsp, ?_⟩
  rw [beq_iff_eq.1 hsp]
  exact Utf8.decodeLossy_of_decode (Utf8.decode_ofString s)

theorem blockKind_mem (h : owner.Laid src t ts rest) : owner.blockKind ∈ blockKinds := by
  cases h with
  | nobody => decide
  | space _ _ => exact (by decide : "declaration_list" ∈ blockKinds)
  | record _ _ => exact (by decide : "field_declaration_list" ∈ blockKinds)
  | function _ => exact (by decide : "compound_statement" ∈ blockKinds)
  | message hk _ =>
    have hall : ∀ s ∈ messageKeywords, s ++ "_body" ∈ blockKinds := by decide
    obtain ⟨s, hs, -, hki⟩ := exists_keyword hk
    rw [blockKind, hki]
    exact hall s hs

end Leads

/-- The node was read as an item, from tokens at the end of the source. -/
def ReadAsItem (g : Grammar) (n : Node) : Prop :=
  ∃ inClass us, us <:+ scan g.source ∧ ∃ r, item g inClass us = .ok r ∧ r.value = some n

/-- The node has one of the forms, and a node of a kind that is read as an item was read as one. -/
structure Grown (g : Grammar) (n : Node) : Prop where
  form : Form g.source n
  own : n.kind ∈ ownKinds → g.ReadAsItem n

/-- The node is laid out, and it is grown. -/
structure Placed (g : Grammar) (n : Node) : Prop where
  settled : Settled g.source n
  grown : g.Grown n

theorem placed_of_complete {vs : List Token} {ns : List Node} (h : Laid (Complete g.source) us vs ns) :
    Laid g.Placed us vs ns := by
  have hown : ∀ k ∈ ownKinds, k ∈ outerKinds := by decide
  exact h.mono fun m hm => ⟨hm.settled, hm.inner.form, fun hk => absurd (hown _ hk) hm.inner.kind⟩

section Items

variable {kind : String} {n body : Node} {more : List Node} {fields : List (String × Nat)}
  {node : Option Node}

theorem list_laid {vs : List Token} (hki : kind ∈ listKinds) (hkey : kind ∉ keyKinds)
    (h : Laid g.Placed us vs (n :: more)) : Laid g.Placed us vs [.spanning kind n more []] := by
  have hn : ∀ k ∈ listKinds, k ∉ ownKinds := by decide
  exact h.map fun _ hrow => hrow.spanning (fun _ hm => hm.settled.toSited) (by simp) fun hs =>
    ⟨settled_of_kind hs hkey, .list hki, fun hk => absurd hk (hn kind hki)⟩

theorem blockNode_kind (kind : String) (opening : Token) (nodes : List Node) (ts : List Token) :
    (blockNode kind opening nodes ts).value.kind = kind := by
  unfold blockNode
  split
  · rfl
  · dsimp only
    split
    · rfl
    · rfl

theorem blockNode_laid {opening : Token} {nodes : List Node} (hki : kind ∈ blockKinds)
    (hts : opening :: ts <:+ scan g.source) (h : Laid g.Placed ts us nodes) :
    Laid g.Placed (opening :: ts) (blockNode kind opening nodes us).rest
      [(blockNode kind opening nodes us).value] := by
  have hk : ∀ k ∈ blockKinds, k ∈ listKinds ∧ k ∉ keyKinds := by decide
  obtain ⟨hl, hkey⟩ := hk kind hki
  have ho := (placed_of_complete (leaf_laid (.symbol (by decide)) (by decide : "\x7b" ∉ mainKinds)
    hts)).append h
  unfold blockNode
  split
  · exact list_laid hl hkey ho
  · next t us =>
      split
      · have hus := h.suffix.trans ((suffix_cons opening ts).trans hts)
        have hc := placed_of_complete (leaf_laid (.symbol (by decide))
          (by decide : "\x7d" ∉ mainKinds) hus)
        exact list_laid hl hkey (ho.append hc)
      · exact list_laid hl hkey ho

theorem leaf_placed (hts : t :: ts <:+ scan g.source) (hkey : kind ∉ keyKinds)
    (hf : Form g.source (.leaf kind t)) (hr : g.ReadAsItem (.leaf kind t)) :
    Laid g.Placed (t :: ts) ts [.leaf kind t] :=
  .leaf hts (.childless rfl ⟨settled_of_kind (sited_leaf (hts.subset mem_cons_self)) hkey,
    hf, fun _ => hr⟩)

/-- A construct over some nodes, with its keyword before them. -/
theorem keyword_laid (hts : t :: ts <:+ scan g.source) (hkey : kind ∉ keyKinds)
    (h : Laid g.Placed ts us (n :: more)) (hf : ∀ e ∈ fields, e.2 < (n :: more).length)
    (hfo : Form g.source (.startingAt t (.spanning kind n more fields)))
    (hr : g.ReadAsItem (.startingAt t (.spanning kind n more fields))) :
    Laid g.Placed (t :: ts) us [.startingAt t (.spanning kind n more fields)] :=
  (h.skip_left (suffix_cons t ts)).spanningFrom (fun _ hm => hm.settled.toSited) hts hf
    fun hs => ⟨settled_of_kind hs hkey, hfo, fun _ => hr⟩

theorem form_record {span : Span} {name body : Option Node} (t : Token)
    (hna : ∀ n ∈ name, n.IsRecordName src) (hb : ∀ n ∈ body, n.kind = "field_declaration_list")
    (hf : fields.lookup "name" = name.map fun _ => 0) :
    Form src ⟨recordKind t, span, name.toList ++ body.toList, fields⟩ :=
  .record (recordKind_mem t) (fun n hn => ⟨(hna n hn).kind, (hna n hn).word⟩) hb hf

theorem recordKind_not_use (keyword : Token) : recordKind keyword ∉ keyKinds := by
  have hn : ∀ k ∈ classKinds, k ∉ keyKinds := by decide
  exact hn _ (recordKind_mem keyword)

theorem function_laid {declarator : Node} (hts : t :: ts <:+ scan g.source)
    (hd : Laid (Contained g.source) (t :: ts) rest [declarator])
    (hb : Laid g.Placed rest us [body]) (hk : body.kind = "compound_statement")
    (hr : g.ReadAsItem (close (.function t declarator) body)) :
    Laid g.Placed (t :: ts) us [close (.function t declarator) body] := by
  have hin := (hd.every declarator mem_cons_self).mono fun _ hn => hn.inert
  refine ((placed_of_complete hd.complete).append hb).spanningFrom
    (fun _ hm => hm.settled.toSited) hts (by simp) fun hs => ⟨?_, .functionDefinition hk, fun _ => hr⟩
  exact
    { hs with
      use := fun _ => ⟨declarator, [body], rfl, hin⟩
      call := fun h => absurd h (by decide : "function_definition" ≠ "call_expression")
      define := fun h => absurd h (by decide : "function_definition" ∉ defineKinds)
      list := fun h => absurd h (by decide : "function_definition" ∉ listedKinds.map (·.1)) }

theorem message_laid {name : Token} (hts : t :: name :: rest <:+ scan g.source)
    (hke : t.spelledIn messageKeywords) (hb : Laid g.Placed rest us [body]) :
    Laid g.Placed (t :: name :: rest) us [close (.message t name) body] := by
  obtain ⟨s, hs, hsp, heq⟩ := exists_keyword hke
  have hki : ∀ s ∈ messageKeywords, (s = "message" ∨ s ∈ listKinds) ∧ s ∉ keyKinds ∧ s ∉ ownKinds ∧
      s ++ "_kw" ∈ flatKinds ∧ s ++ "_name" ∈ flatKinds := by decide
  obtain ⟨hl, hkey, hown, hkw, hn⟩ := hki s hs
  have hw := (leaf_laid (.flat hkw) (main_of_flat hkw) hts).append
    (leaf_laid (.flat hn) (main_of_flat hn) ((suffix_cons t _).trans hts))
  rw [close, heq]
  refine ((placed_of_complete hw).append hb).map fun _ hrow =>
    hrow.spanning (fun _ hm => hm.settled.toSited) (by simp) fun hsi =>
      ⟨settled_of_kind hsi hkey, ?_, fun hk => absurd hk hown⟩
  rcases hl with rfl | hmem
  · exact .message (hts.subset mem_cons_self) hsp rfl
  · exact .list hmem

theorem close_laid (hts : t :: ts <:+ scan g.source)
    (h : owner.Laid g.source t ts rest) (hb : Laid g.Placed rest us [body])
    (hk : body.kind = owner.blockKind) (hr : g.ReadAsItem (owner.close body)) :
    Laid g.Placed (t :: ts) us [owner.close body] := by
  cases h with
  | nobody => exact hb
  | @space name _ h hn =>
    cases name with
    | none =>
      exact keyword_laid hts (by decide) (hb.skip_left h.suffix) (by simp) (.space hk) hr
    | some name =>
      obtain ⟨hnameKind, hp⟩ := hn name rfl
      exact keyword_laid hts (by decide) ((placed_of_complete h.complete).append hb) (by simp)
        (.namedSpace hk hnameKind hp) hr
  | @record name _ h hn =>
    have hl : ∀ n ∈ some body, n.kind = "field_declaration_list" := by
      rintro n ⟨⟩
      exact hk
    cases name with
    | none =>
      exact keyword_laid hts (recordKind_not_use t) (hb.skip_left h.suffix) (by simp)
        (form_record t hn hl rfl) hr
    | some name =>
      exact keyword_laid hts (recordKind_not_use t) ((placed_of_complete h.complete).append hb)
        (by simp) (form_record t hn hl rfl) hr
  | function h => exact function_laid hts h hb hk hr
  | message hke heq =>
    subst heq
    exact message_laid hts hke hb

theorem whole_laid (hts : t :: ts <:+ scan g.source)
    (h : Lead.Laid g.source t ts rest (.whole node)) (hr : ∀ n ∈ node, g.ReadAsItem n) :
    Laid g.Placed (t :: ts) rest node.toList := by
  cases h with
  | none h => exact .skip h
  | comment _ =>
    exact leaf_placed hts (by decide) (.comment (hts.subset mem_cons_self)) (hr _ rfl)
  | inner h => exact placed_of_complete h
  | @forward name _ h hn =>
    have hno : ∀ n ∈ (none : Option Node), n.kind = "field_declaration_list" := by simp
    cases name with
    | none =>
      exact (leaf_placed hts (recordKind_not_use t) (form_record t hn hno rfl)
        (hr _ rfl)).skip_right h.suffix
    | some name =>
      exact keyword_laid hts (recordKind_not_use t) (placed_of_complete h.complete) (by simp)
        (form_record t hn hno rfl) (hr _ rfl)

theorem templateNode_laid (hts : t :: ts <:+ scan g.source)
    (h : Laid g.Placed ts us node.toList) (hr : g.ReadAsItem (templateNode t node)) :
    Laid g.Placed (t :: ts) us [templateNode t node] := by
  have hf : ∀ span, Form g.source ⟨"template_declaration", span, node.toList, []⟩ := fun _ =>
    .template
  cases node with
  | none => exact (leaf_placed hts (by decide) (hf _) hr).skip_right h.suffix
  | some n => exact keyword_laid hts (by decide) h (by simp) (hf _) hr

/-- What is read as one item is laid out over the tokens taken for it. -/
def ItemLaid (g : Grammar) (ts : List Token) : Prop :=
  ∀ inClass r, item g inClass ts = .ok r → Laid g.Placed ts r.rest r.value.toList

/-- What is read as a sequence of items is laid out over the tokens taken for it. -/
def ItemsLaid (g : Grammar) (ts : List Token) : Prop :=
  ∀ inBlock inClass r, items g inBlock inClass ts = .ok r → Laid g.Placed ts r.rest r.value

theorem itemLaid_of_shorter (hts : ts <:+ scan g.source)
    (ih : ∀ us, us.length < ts.length → us <:+ scan g.source →
      g.ItemLaid us ∧ g.ItemsLaid us) : g.ItemLaid ts := by
  rintro inClass ⟨value, rest, hle⟩ hr
  have hown : ∀ n ∈ value, g.ReadAsItem n := fun n hn => ⟨inClass, ts, hts, _, hr, hn⟩
  cases ts with
  | nil =>
    unfold item at hr
    cases hr
    exact .skip suffix_rfl
  | cons t ts =>
    have hre : ItemRead g inClass t ts value rest := itemRead_of_ok hr
    cases hre with
    | @template inner ht hinner =>
      have hsk := skipAngled_suffix ts
      have hlt : (skipAngled ts).length < (t :: ts).length := Nat.lt_succ_of_le (length_skipAngled_le ts)
      have hla := (ih _ hlt (hsk.trans ((suffix_cons t ts).trans hts))).1 false inner hinner
      exact templateNode_laid hts (hla.skip_left hsk) (hown _ rfl)
    | @whole start node ht hs hno =>
      have hl := lead_laid hts hs
      rw [hno] at hl
      exact whole_laid hts hl hown
    | @block start owner opening rest inner ht hs how hop hinner =>
      have hl := laid_of_opens hts hs how
      rw [hop] at hl
      have ho := hl.suffix
      have hin := ho.trans hts
      have hinside := (ih rest ho.length_le ((suffix_cons opening rest).trans hin)).2
        true owner.isRecord inner hinner
      have hb := blockNode_laid (blockKind_mem hl) hin hinside
      exact (close_laid hts hl hb (blockNode_kind ..) (hown _ rfl)).skip_right
        (afterBlock_suffix owner _)

theorem itemsLaid_of_shorter (hts : ts <:+ scan g.source) (hit : g.ItemLaid ts)
    (ih : ∀ us, us.length < ts.length → us <:+ scan g.source → g.ItemsLaid us) : g.ItemsLaid ts := by
  rintro inBlock inClass ⟨value, rest, hle⟩ hr
  cases ts with
  | nil =>
    unfold items at hr
    cases hr
    exact .skip suffix_rfl
  | cons t ts =>
    have hre : ItemsRead g inBlock inClass t ts value rest := itemsRead_of_ok hr
    cases hre with
    | done hend => exact .skip suffix_rfl
    | @more found others hend hf hot =>
      have hl := hit inClass found hf
      obtain ⟨ho, hlt⟩ := onward_suffix hl.suffix
      have hm := ih _ hlt (ho.trans (hl.suffix.trans hts)) inBlock inClass others hot
      exact hl.append (hm.skip_left ho)

theorem items_laid (hts : ts <:+ scan g.source) : g.ItemLaid ts ∧ g.ItemsLaid ts := by
  induction hlen : ts.length using Nat.strong_induction_on generalizing ts with
  | _ k ih =>
    subst hlen
    have hs : ∀ us, us.length < ts.length → us <:+ scan g.source →
        g.ItemLaid us ∧ g.ItemsLaid us := fun us hlt hus => ih _ hlt hus rfl
    have hit := itemLaid_of_shorter hts hs
    exact ⟨hit, itemsLaid_of_shorter hts hit fun us hlt hus => (hs us hlt hus).2⟩

end Items

end Grammar

namespace Node

variable {root : Node}

/-- The items of a source are laid out between its start and its end. -/
theorem row_of_parse (h : Node.parse src = .ok root) :
    ∃ rest, Row (Grammar.Placed ⟨src, guess src⟩) rest 0 root.children := by
  obtain ⟨items, hit, hr⟩ := bind_eq_ok.1 h
  have hl := (Grammar.items_laid (g := ⟨src, guess src⟩) suffix_rfl).2 false false items hit
  refine ⟨items.rest, ?_⟩
  have hrow := hl.row 0 fun t _ => Nat.zero_le t.start
  cases hr
  cases hv : items.value with
  | nil =>
    rw [hv] at hrow
    exact hrow
  | cons first more =>
    rw [hv] at hrow
    exact hrow

/-- The tree of a source is grown. -/
theorem parse_grown (h : Node.parse src = .ok root) :
    Every (Grammar.Grown ⟨src, guess src⟩) root := by
  obtain ⟨rest, hrow⟩ := row_of_parse h
  have hch := fun c hc => (hrow.every c hc).mono fun _ hn => hn.grown
  have hki : ∀ d : Dialect, d.rootKind ∈ listKinds ∧ d.rootKind ∉ ownKinds := by
    rintro (_ | _)
    · decide
    · decide
  obtain ⟨items, -, hr⟩ := bind_eq_ok.1 h
  cases hr
  cases hv : items.value with
  | nil => exact .childless rfl ⟨.list (by decide), fun hk => absurd hk (by decide : "translation_unit" ∉ ownKinds)⟩
  | cons first more =>
    rw [hv] at hch
    exact .node ⟨.list (hki _).1, fun hk => absurd hk (hki _).2⟩ hch

theorem parse_wellFormed (h : Node.parse src = .ok root) : WellFormed src root :=
  (parse_grown h).mono fun _ hn => hn.form

theorem grown_of_parse (hcpp : guess src = .cpp) (h : Node.parse src = .ok root) :
    Every (Grammar.Grown ⟨src, .cpp⟩) root :=
  hcpp ▸ parse_grown h

/-- The names in the tree of a source are legible. -/
theorem legible_of_parse (hcpp : guess src = .cpp) (h : Node.parse src = .ok root) :
    Every (Legible (scan src)) root :=
  (grown_of_parse hcpp h).mono fun _ hn => hn.form.legible

end Node

end Excerpt
