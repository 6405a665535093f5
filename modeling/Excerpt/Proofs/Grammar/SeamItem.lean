import Excerpt.Proofs.Grammar.Remark
import Excerpt.Proofs.Grammar.SeamLead

/-!
# Reading the items of a part on its own

The items of a part of a source are read again when the part is read on its own.
They need not come out the same: a class in the source makes functions of calls.
But the tokens left are the same, and so are the comments. The exception
is an item that ends behind the part.
-/

namespace Excerpt

open Node List Option Token Tokens

/-- The nodes are of the same comment, in a source and in a part that starts at the offset `d` on
the row `r`. -/
def Node.SameRemark (src part : Bytes) (d r : Nat) (c c' : Node) : Prop :=
  ∃ t ∈ scan src, ∃ t' ∈ scan part, t.Moved d r t' ∧
    c = .leaf "comment" t ∧ c' = .leaf "comment" t'

namespace Seam

variable {s : Seam} {ns ns' : List Node} {ts ts' rest rest' : List Token}

/-- The nodes are of the same comment, in the source and in the part. -/
def Remark (s : Seam) : Node → Node → Prop :=
  SameRemark s.source s.part s.start s.row

/-- The same has been read of the source and of the part: the tokens left and the comments. -/
structure Tallies (s : Seam) (rest rest' : List Token) (ns ns' : List Node) : Prop where
  rest : s.Meets rest rest'
  remarks : List.Forall₂ s.Remark (remarks ns) (remarks ns')

/-- What has been read of the source ends behind the part. -/
structure Beyond (s : Seam) (rest : List Token) (ns : List Node) : Prop where
  rest : rest <:+ s.after
  stop : ∃ n ∈ ns.getLast?, s.stop < n.stop

theorem tallies_of_quiet (h : s.Meets rest rest') (hns : remarks ns = []) (hns' : remarks ns' = []) :
    s.Tallies rest rest' ns ns' :=
  ⟨h, by rw [hns, hns']; exact .nil⟩

theorem LeadsAgree.meets {l l' : Lead} (h : s.LeadsAgree rest rest' l l') : s.Meets rest rest' := by
  cases h with
  | mirror h hb => exact .inl h
  | spent h hb hw => exact .inr h

theorem Mirror.length_eq (h : s.Mirror ts ts') : ts.length + 1 = ts'.length + s.after.length := by
  induction h with
  | last => simp only [length_cons, length_nil]; omega
  | cons ht hle h ih => simp only [length_cons]; omega

theorem Mirror.two_le (h : s.Mirror ts ts') : 2 ≤ ts'.length := by
  induction h with
  | last => exact Nat.le_refl 2
  | cons ht hle h ih => exact Nat.le_succ_of_le ih

/-- After an item, as many tokens are passed over in the source as in the part. -/
theorem Meets.onward {t t' : Token} (hr : s.Meets rest rest') (h : s.Mirror (t :: ts) (t' :: ts')) :
    s.Meets (Grammar.onward rest ts) (Grammar.onward rest' ts') := by
  have hlen := h.length_eq
  have htwo := h.two_le
  simp only [length_cons] at hlen htwo
  unfold Grammar.onward
  rcases hr with hm | hs
  · have hlen' := hm.length_eq
    split
    · rw [if_pos (by omega)]
      exact .inl hm
    · rw [if_neg (by omega)]
      exact Meets.tail h
  · have hle := hs.1.length_le
    have hle' := hs.2.length_le
    rw [length_singleton] at hle'
    rw [if_pos (by omega), if_pos (by omega)]
    exact .inr hs

end Seam

namespace Grammar

variable {s : Seam} {ts ts' rest : List Token} {t t' : Token} {inClass : Bool} {l : Lead}

theorem lead_comment (g : Grammar) (inClass : Bool) (ts : List Token) (h : t.isComment) :
    lead g inClass t ts = .ok (.past (.whole (some (.leaf "comment" t))) t ts) :=
  if_pos h

theorem Lead.block?_eq_none (h : l.block? = none) : ∃ node, l = .whole node := by
  cases l with
  | whole node => exact ⟨node, rfl⟩
  | opens owner => cases h

theorem Lead.block?_eq_some {b : Bool} (h : l.block? = some b) :
    ∃ owner, l = .opens owner ∧ owner.isRecord = b := by
  cases l with
  | whole node => cases h
  | opens owner => exact ⟨owner, rfl, some.inj h⟩

theorem blockNode_rest (kind : String) (opening : Token) (nodes : List Node) (ts : List Token) :
    (blockNode kind opening nodes ts).rest = skip "\x7d" ts := by
  cases ts with
  | nil => rfl
  | cons t ts =>
    rw [blockNode, skip, at?, head?_cons, any_some]
    split
    · rfl
    · rfl

theorem afterBlock_meets {owner owner' : BlockOwner} (h : s.Meets ts ts')
    (ho : owner.isRecord = owner'.isRecord) : s.Meets (afterBlock owner ts) (afterBlock owner' ts') := by
  unfold afterBlock
  rw [← ho]
  split
  · exact h.skip ";"
  · exact h

/-- A block ends behind the part if its items do, or its opening brace where it has no items. -/
theorem blockNode_beyond {kind : String} {opening : Token} {nodes : List Node}
    (hts : ts <:+ s.after) (ho : nodes = [] → s.stop < opening.stop)
    (hn : ∀ n ∈ nodes.getLast?, s.stop < n.stop) :
    s.stop < (blockNode kind opening nodes ts).value.stop := by
  have hs : s.stop < (Node.spanning kind (.leaf "\x7b" opening) nodes []).stop := by
    change s.stop < (nodes.getLastD _).stop
    rw [getLastD_eq_getLast?]
    cases hl : nodes.getLast? with
    | none => exact ho (getLast?_eq_none_iff.1 hl)
    | some n => exact hn n hl
  unfold blockNode
  split
  · exact hs
  · next t ts =>
      split
      · next hc =>
          have ht : t ∈ s.after := hts.subset mem_cons_self
          have hk := kind_ne_finish (s.after_subset ht) hc (by decide)
          change s.stop < ((nodes ++ [Node.leaf "\x7d" t]).getLastD _).stop
          rw [getLastD_concat]
          exact s.stop_lt ht hk ht
      · exact hs

/-- Where the tokens behind the part give items, these end behind the part. -/
theorem items_beyond {inBlock : Bool} (hts : ts <:+ s.after) {r : Reading (List Node) ts}
    (hr : items s.whole inBlock inClass ts = .ok r) :
    r.rest <:+ s.after ∧ ∀ n ∈ r.value, s.stop < n.stop := by
  have hin : ts <:+ scan s.whole.source := hts.trans ((suffix_cons s.last s.after).trans s.tokens)
  have hl := (items_laid hin).2 inBlock inClass r hr
  refine ⟨hl.suffix.trans hts, ?_⟩
  cases ts with
  | nil =>
    unfold items at hr
    cases hr
    exact fun n hn => nomatch hn
  | cons t ts =>
    obtain ⟨value, rest, hle⟩ := r
    have hre : ItemsRead s.whole inBlock inClass t ts value rest := itemsRead_of_ok hr
    cases hre with
    | done hend => exact fun n hn => nomatch hn
    | more hend hf ho =>
      have hk : t.kind ≠ .finish := by
        intro hk
        rw [endsItems, isFinish, hk] at hend
        cases hend
      -- the first token lies behind the part and before the end of the source, where a node may be empty
      have ht := hin.subset mem_cons_self
      have hlt := start_lt_stop ht hk
      have hlength := stop_le_length ht
      have hb := s.ahead t (hts.subset mem_cons_self)
      intro n hn
      have hst := hl.start_le (fun _ hm => hm.settled.toSited) hin n hn
      have hs := (hl.every n hn).here.settled
      have hfu := hs.full
      have hle := hs.le
      omega

/-- The end token alone gives no items. -/
theorem items_of_spent (h : ts' <:+ [s.finish]) (g : Grammar) (inBlock inClass : Bool) :
    ∃ r', items g inBlock inClass ts' = .ok r' ∧ r'.value = [] ∧ r'.rest = ts' := by
  rcases suffix_cons_iff.1 h with rfl | h
  · have hend : endsItems inBlock s.finish := by
      rw [endsItems, isFinish, s.finish_kind]
      rfl
    exact (ItemsRead.done hend).exists_ok
  · rw [suffix_nil.1 h]
    unfold items
    exact ⟨_, rfl, rfl, rfl⟩

end Grammar

namespace Seam

variable {s : Seam} {ts ts' rest : List Token} {t t' opening : Token} {inClass : Bool} {ns ms : List Node}
  {owner : BlockOwner}

open Grammar

/-- An item is read alike in the source and in the part, unless it ends behind the part. -/
def ItemCut (s : Seam) (ts : List Token) : Prop :=
  ∀ ts' inClass inClass' r, s.Mirror ts ts' → ts' <:+ scan s.part →
    item s.whole inClass ts = .ok r →
    (∃ r', item s.alone inClass' ts' = .ok r' ∧
      s.Tallies r.rest r'.rest r.value.toList r'.value.toList) ∨ s.Beyond r.rest r.value.toList

/-- The items are read alike in the source and in the part, unless the last ends behind the part. -/
def ItemsCut (s : Seam) (ts : List Token) : Prop :=
  ∀ ts' inBlock inClass inClass' r, s.Meets ts ts' → ts' <:+ scan s.part →
    items s.whole inBlock inClass ts = .ok r →
    (∃ r', items s.alone inBlock inClass' ts' = .ok r' ∧
      s.Tallies r.rest r'.rest r.value r'.value) ∨ s.Beyond r.rest r.value

theorem isTemplate_moved (h : t.Moved s.start s.row t') : s.alone.isTemplate t' = s.whole.isTemplate t := by
  unfold isTemplate
  rw [h.kind, h.spelled]
  rfl

/-- An item without a block is read alike. -/
theorem cut_whole (h : s.Mirror (t :: ts) (t' :: ts')) (hts : t :: ts <:+ scan s.source)
    (hts' : t' :: ts' <:+ scan s.part) (ht : s.whole.isTemplate t = false)
    {start : Reading Lead (t :: ts)} {node : Option Node}
    (hs : lead s.whole inClass t ts = .ok start) (hno : start.value = .whole node) (inClass' : Bool) :
    (∃ r', item s.alone inClass' (t' :: ts') = .ok r' ∧
      s.Tallies start.rest r'.rest node.toList r'.value.toList) ∨ s.Beyond start.rest node.toList := by
  have hm := h.moved
  have ht' := (isTemplate_moved hm).trans ht
  by_cases hc : t.isComment
  · rw [lead_comment _ _ _ hc] at hs
    cases hs
    cases hno
    have hre' : ItemRead s.alone inClass' t' ts' (some (.leaf "comment" t')) ts' :=
      .whole ht' (lead_comment _ _ _ (hm.isComment ▸ hc)) rfl
    obtain ⟨r', hr', hv, hr⟩ := hre'.exists_ok
    refine .inl ⟨r', hr', ?_, ?_⟩
    · rw [hr]
      exact Meets.tail h
    · rw [hv]
      change List.Forall₂ s.Remark (remarks [.leaf "comment" t]) (remarks [.leaf "comment" t'])
      rw [remarks_comment, remarks_comment]
      exact .cons ⟨t, hts.subset mem_cons_self, t', hts'.subset mem_cons_self, hm, rfl, rfl⟩ .nil
  · rw [Bool.not_eq_true] at hc
    rcases lead_agree h inClass inClass' hs with ⟨start', hs', ha⟩ | ho
    · have hb' : start'.value.block? = none := by
        cases ha with
        | mirror hmi hb => rw [← hb, hno]; rfl
        | spent hsp hb hw => exact hw
      obtain ⟨node', hn'⟩ := Lead.block?_eq_none hb'
      obtain ⟨r', hr', hv, hr⟩ := (ItemRead.whole ht' hs' hn').exists_ok
      refine .inl ⟨r', hr', tallies_of_quiet (hr ▸ ha.meets) ?_ ?_⟩
      · refine remarks_eq_nil fun n hn => Quiet.remarks ?_
        exact lead_quiet hts hc hs (hno.trans (congrArg Lead.whole (mem_toList.1 hn)))
      · rw [hv]
        refine remarks_eq_nil fun n hn => Quiet.remarks ?_
        exact lead_quiet hts' (hm.isComment ▸ hc) hs'
          (hn'.trans (congrArg Lead.whole (mem_toList.1 hn)))
    · cases node with
      | none => exact absurd hno ho.node
      | some n => exact .inr ⟨ho.spent, n, rfl, ho.stop n hno⟩

/-- A construct ends behind the part if its block does. -/
theorem beyond_close (owner : BlockOwner) {nodes : List Node} (hts : ts <:+ s.after)
    (ho : nodes = [] → s.stop < opening.stop) (hn : ∀ n ∈ nodes.getLast?, s.stop < n.stop) :
    s.Beyond (afterBlock owner (blockNode owner.blockKind opening nodes ts).rest)
      [owner.close (blockNode owner.blockKind opening nodes ts).value] := by
  refine ⟨?_, owner.close (blockNode owner.blockKind opening nodes ts).value, rfl, ?_⟩
  · rw [blockNode_rest]
    exact ((afterBlock_suffix owner _).trans (skip_suffix _ _)).trans hts
  · rw [BlockOwner.close_stop]
    exact blockNode_beyond hts ho hn

/-- A block that opens behind the part ends there. -/
theorem beyond_of_opens {inner : Reading (List Node) rest}
    (ho : opening :: rest <:+ s.after) (hop : opening.spelled "\x7b")
    (hin : items s.whole true owner.isRecord rest = .ok inner) :
    s.Beyond (afterBlock owner (blockNode owner.blockKind opening inner.value inner.rest).rest)
      [owner.close (blockNode owner.blockKind opening inner.value inner.rest).value] := by
  have hmem := ho.subset mem_cons_self
  have hk := kind_ne_finish (s.after_subset hmem) hop (by decide)
  obtain ⟨hr, hno⟩ := items_beyond ((suffix_cons opening rest).trans ho) hin
  exact beyond_close owner hr (fun _ => s.stop_lt hmem hk hmem) fun n hn => hno n (mem_of_getLast? hn)

theorem cut_block (h : s.Mirror (t :: ts) (t' :: ts')) (hts : t :: ts <:+ scan s.source)
    (hts' : t' :: ts' <:+ scan s.part) (ht : s.whole.isTemplate t = false)
    {start : Reading Lead (t :: ts)} {inner : Reading (List Node) rest}
    (hst : lead s.whole inClass t ts = .ok start) (ho : start.value = .opens owner)
    (hr : start.rest = opening :: rest)
    (hin : items s.whole true owner.isRecord rest = .ok inner) (hcut : s.ItemsCut rest) (inClass' : Bool) :
    (∃ r', item s.alone inClass' (t' :: ts') = .ok r' ∧
      s.Tallies (afterBlock owner (blockNode owner.blockKind opening inner.value inner.rest).rest)
        r'.rest [owner.close (blockNode owner.blockKind opening inner.value inner.rest).value]
        r'.value.toList) ∨
      s.Beyond (afterBlock owner (blockNode owner.blockKind opening inner.value inner.rest).rest)
        [owner.close (blockNode owner.blockKind opening inner.value inner.rest).value] := by
  have ht' := (isTemplate_moved h.moved).trans ht
  have hop : start.value.block?.isSome := by rw [ho]; rfl
  -- A block that comes next in the source alone opens behind the part.
  have hsp : start.rest <:+ s.after → at? "\x7b" start.rest →
      s.Beyond (afterBlock owner (blockNode owner.blockKind opening inner.value inner.rest).rest)
        [owner.close (blockNode owner.blockKind opening inner.value inner.rest).value] := by
    rw [hr]
    intro ha hopen
    exact beyond_of_opens ha hopen hin
  rcases lead_agree h inClass inClass' hst with ⟨start', hs', hag⟩ | hov
  · cases hag with
    | mirror hmi hb =>
      rw [ho] at hb
      obtain ⟨owner', ho', hre⟩ := Lead.block?_eq_some hb.symm
      rw [hr] at hmi
      obtain ⟨_, opening', _, rest', heq, hre', -, -, hme⟩ := hmi.uncons
      cases heq
      have hs := (lead_laid hts' hs').suffix
      rw [hre'] at hs
      have hin' := ((suffix_cons opening' rest').trans hs).trans hts'
      rcases hcut rest' true owner.isRecord owner'.isRecord inner hme hin' hin with
        ⟨inner', hi', hta⟩ | hbe
      · obtain ⟨r', hr', hv, hl⟩ := (ItemRead.block ht' hs' ho' hre' hi').exists_ok
        refine .inl ⟨r', hr', ?_, ?_⟩
        · rw [hl]
          refine afterBlock_meets ?_ hre.symm
          rw [blockNode_rest, blockNode_rest]
          exact hta.rest.skip _
        · rw [hv]
          change List.Forall₂ s.Remark (remarks [_]) (remarks [_])
          rw [remarks_of_opens hts hst ho, remarks_of_opens hts' hs' ho']
          exact hta.remarks
      · obtain ⟨n, hn, hlt⟩ := hbe.stop
        refine .inr (beyond_close owner hbe.rest (fun hnil => ?_) fun m hm => ?_)
        · rw [hnil] at hn
          cases hn
        · rw [mem_unique hm hn]
          exact hlt
    | spent ha hb hw => exact .inr (hsp ha.1 (hb hop))
  · exact .inr (hsp hov.spent (hov.block hop))

theorem skipAngled_mirror (h : s.Mirror ts ts') : s.Mirror (skipAngled ts) (skipAngled ts') := by
  obtain ⟨t, t', us, us', rfl, rfl, hm, -, -⟩ := h.uncons
  unfold skipAngled atKind?
  rw [head?_cons, head?_cons, any_some, any_some, ← hm.kind]
  split
  · next hk => exact (h.tail_of_kind (beq_iff_eq.1 hk) (by decide)).2
  · exact h

theorem itemCut_of_shorter (hts : ts <:+ scan s.source)
    (ih : ∀ us, us.length < ts.length → us <:+ scan s.source → s.ItemCut us ∧ s.ItemsCut us) :
    s.ItemCut ts := by
  rintro ts' inClass inClass' ⟨value, rest, hle⟩ h hts' hr
  obtain ⟨t, t', us, us', rfl, rfl, hmo, -, -⟩ := h.uncons
  have hread : ItemRead s.whole inClass t us value rest := itemRead_of_ok hr
  cases hread with
  | @template inner ht hinner =>
    have ht' := (isTemplate_moved hmo).trans ht
    have hw : t.kind = .word := by
      unfold isTemplate at ht
      simp only [Bool.and_eq_true, decide_eq_true_eq] at ht
      exact ht.1.2
    have hm := skipAngled_mirror (h.tail_of_kind hw (by decide)).2
    have hlt : (skipAngled us).length < (t :: us).length := Nat.lt_succ_of_le (length_skipAngled_le us)
    have hin := ((skipAngled_suffix us).trans (suffix_cons t us)).trans hts
    have hin' := ((skipAngled_suffix us').trans (suffix_cons t' us')).trans hts'
    rcases (ih _ hlt hin).1 _ false false inner hm hin' hinner with
      ⟨inner', hi', hta⟩ | hb
    · have hre' : ItemRead s.alone inClass' t' us' _ _ := .template ht' hi'
      obtain ⟨r', hr', hv, hre⟩ := hre'.exists_ok
      refine .inl ⟨r', hr', hre ▸ hta.rest, ?_⟩
      rw [hv]
      change List.Forall₂ s.Remark (remarks [_]) (remarks [_])
      rw [remarks_templateNode, remarks_templateNode]
      exact hta.remarks
    · obtain ⟨n, hn, hlt⟩ := hb.stop
      cases hno : inner.value with
      | none =>
        rw [hno] at hn
        cases hn
      | some m =>
        rw [hno] at hn
        cases hn
        exact .inr ⟨hb.rest, _, rfl, hlt⟩
  | whole ht hs hno => exact cut_whole h hts hts' ht hs hno inClass'
  | @block start owner opening rest inner ht hs ho hre hinner =>
    have hsu := (lead_laid hts hs).suffix
    rw [hre] at hsu
    have hin := ((suffix_cons opening rest).trans hsu).trans hts
    exact cut_block h hts hts' ht hs ho hre hinner (ih rest hsu.length_le hin).2 inClass'

theorem Beyond.append (h : s.Beyond rest ms) (ns : List Node) : s.Beyond rest (ns ++ ms) := by
  obtain ⟨n, hn, hlt⟩ := h.stop
  refine ⟨h.rest, n, ?_, hlt⟩
  rw [getLast?_append, mem_def.1 hn]
  rfl

theorem beyond_of_forall (h : rest <:+ s.after) (hne : ns ≠ []) (hns : ∀ n ∈ ns, s.stop < n.stop) :
    s.Beyond rest ns :=
  ⟨h, ns.getLast hne, getLast?_eq_some_getLast hne, hns _ (getLast_mem hne)⟩

/-- The items are read alike if the first one is, and the others are. -/
theorem itemsCut_of_shorter (hts : ts <:+ scan s.source) (hit : s.ItemCut ts)
    (ih : ∀ us, us.length < ts.length → us <:+ scan s.source → s.ItemsCut us) : s.ItemsCut ts := by
  rintro ts' inBlock inClass inClass' ⟨value, rest, hle⟩ h hts' hr
  rcases h with h | h
  · obtain ⟨t, t', us, us', rfl, rfl, hm, -, -⟩ := h.uncons
    have hend' : endsItems inBlock t' = endsItems inBlock t := by
      unfold endsItems
      rw [hm.isFinish, hm.spelled]
    have hread : ItemsRead s.whole inBlock inClass t us value rest := itemsRead_of_ok hr
    cases hread with
    | done hend =>
      have hre' : ItemsRead s.alone inBlock inClass' t' us' [] (t' :: us') := .done (hend'.trans hend)
      obtain ⟨r', hr', hv, hre⟩ := hre'.exists_ok
      refine .inl ⟨r', hr', tallies_of_quiet ?_ rfl (by rw [hv]; rfl)⟩
      rw [hre]
      exact .inl h
    | @more found others hend hf ho =>
      have hs := ((items_laid (g := s.whole) hts).1 inClass found hf).suffix
      obtain ⟨hon, hlt⟩ := onward_suffix hs
      have hn := hon.trans (hs.trans hts)
      rcases hit _ inClass inClass' found h hts' hf with
        ⟨found', hf', ht⟩ | hb
      · have hs' := ((items_laid (g := s.alone) hts').1 inClass' found' hf').suffix
        have hn' := (onward_suffix hs').1.trans (hs'.trans hts')
        rcases ih _ hlt hn _ inBlock inClass inClass' others (ht.rest.onward h) hn'
          ho with ⟨others', ho', hmo⟩ | hb
        · obtain ⟨r', hr', hv, hre⟩ := (ItemsRead.more (hend'.trans hend) hf' ho').exists_ok
          refine .inl ⟨r', hr', hre ▸ hmo.rest, ?_⟩
          rw [hv, remarks_append, remarks_append]
          exact rel_append hmo.remarks ht.remarks
        · exact .inr (hb.append _)
      · obtain ⟨hre, ho⟩ := items_beyond (hon.trans hb.rest) ho
        by_cases hnil : others.value = []
        · rw [hnil, append_nil]
          exact .inr ⟨hre, hb.stop⟩
        · exact .inr ((beyond_of_forall hre hnil ho).append _)
  · obtain ⟨hre, hv⟩ := items_beyond h.1 hr
    by_cases hnil : value = []
    · obtain ⟨r', hr', hv', hrest'⟩ := items_of_spent h.2 s.alone inBlock inClass'
      refine .inl ⟨r', hr', tallies_of_quiet (.inr ⟨hre, ?_⟩) (by rw [hnil]; rfl)
        (by rw [hv']; rfl)⟩
      rw [hrest']
      exact h.2
    · exact .inr (beyond_of_forall hre hnil hv)

/-- What lies in the part is read alike in the source and in the part. -/
theorem items_cut (hts : ts <:+ scan s.source) : s.ItemCut ts ∧ s.ItemsCut ts := by
  induction hlen : ts.length using Nat.strong_induction_on generalizing ts with
  | _ k ih =>
    subst hlen
    have hs : ∀ us, us.length < ts.length → us <:+ scan s.source →
        s.ItemCut us ∧ s.ItemsCut us := fun us hlt hus => ih _ hlt hus rfl
    have hit := itemCut_of_shorter hts hs
    exact ⟨hit, itemsCut_of_shorter hts hit fun us hlt hus => (hs us hlt hus).2⟩

end Seam

end Excerpt
