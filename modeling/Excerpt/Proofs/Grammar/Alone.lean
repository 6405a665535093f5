import Excerpt.Proofs.Grammar.SeamItem
import Excerpt.Proofs.Marker.Section

/-!
# Reading a construct on its own

A function, a template or a class starts with the first of the tokens it was read
from. If its last token is a closing brace, its text is a part of the source that
can be read on its own, and then the same comments are found in it.
-/

namespace Excerpt

open Node List Dialect

variable {ts : List Token}

/-- A node of a kind that is read as an item starts with the token. -/
def Node.StartsWith (t : Token) (n : Node) : Prop :=
  n.kind ∈ ownKinds → n.start = t.start ∧ n.startRow = t.point.row

namespace Grammar

variable {src : Bytes} {g : Grammar} {ts rest : List Token} {t : Token} {inClass : Bool} {n : Node}

theorem whole_startsWith (h : Lead.Laid src t ts rest (.whole (some n))) : n.StartsWith t := by
  cases h with
  | comment _ => exact fun _ => ⟨rfl, rfl⟩
  | inner h =>
    have hown : ∀ k ∈ ownKinds, k ∈ outerKinds := by decide
    exact fun hk => absurd (hown _ hk) (h.every n mem_cons_self).here.inner.kind
  | @forward name _ _ _ =>
    cases name with
    | none => exact fun _ => ⟨rfl, rfl⟩
    | some n => exact fun _ => ⟨rfl, rfl⟩

theorem close_startsWith {owner : BlockOwner} (h : owner.Laid src t ts rest) {body : Node}
    (hk : body.kind = owner.blockKind) : (owner.close body).StartsWith t := by
  cases h with
  | nobody => exact fun hown => absurd hown (hk ▸ (by decide : "compound_statement" ∉ ownKinds))
  | @space name _ _ _ =>
    cases name with
    | none => exact fun _ => ⟨rfl, rfl⟩
    | some n => exact fun _ => ⟨rfl, rfl⟩
  | @record name _ _ _ =>
    cases name with
    | none => exact fun _ => ⟨rfl, rfl⟩
    | some n => exact fun _ => ⟨rfl, rfl⟩
  | function _ => exact fun _ => ⟨rfl, rfl⟩
  | message _ _ => exact fun _ => ⟨rfl, rfl⟩

theorem ItemRead.startsWith (h : ItemRead g inClass t ts (some n) rest)
    (hts : t :: ts <:+ Token.scan g.source) : n.StartsWith t := by
  generalize hn : some n = node at h
  cases h with
  | @template inner ht hin =>
    cases hn
    cases inner.value with
    | none => exact fun _ => ⟨rfl, rfl⟩
    | some m => exact fun _ => ⟨rfl, rfl⟩
  | @whole start node ht hs hv =>
    have hl := lead_laid hts hs
    rw [hv, ← hn] at hl
    exact whole_startsWith hl
  | @block start owner opening rest inner ht hs ho hr hin =>
    cases hn
    exact close_startsWith (laid_of_opens hts hs ho) (blockNode_kind ..)

end Grammar

theorem Tokens.ahead_dropWhile (stop : Nat)
    (h : ts.Pairwise (·.stop ≤ ·.start)) : Ahead (ts.dropWhile (·.start < stop)) stop := by
  induction ts with
  | nil => exact fun t ht => nomatch ht
  | cons t ts ih =>
    obtain ⟨hh, hta⟩ := pairwise_cons.1 h
    rw [dropWhile_cons]
    split
    · exact ih hta
    · next hnot =>
        have hle : stop ≤ t.start := Nat.le_of_not_lt (by simpa using hnot)
        intro u hu
        rcases mem_cons.1 hu with rfl | hu
        · exact hle
        · exact Nat.le_trans hle (Nat.le_trans (Token.start_le_stop t) (hh u hu))

namespace Token

variable {src : Bytes} {t : Token}

theorem kind_of_brace (h : t ∈ scan src) (hbr : t.spelled "\x7d") : t.kind = .operator := by
  have ht : t.text = [125] := (beq_iff_eq.1 hbr).trans (by decide)
  rcases readAt_of_mem_scan h with ⟨-, hnil⟩ | ⟨b, cs, n, -, hc, hr⟩
  · exact absurd (ht.symm.trans hnil) (by decide)
  · obtain rfl : b = 125 := by
      rw [hc] at ht
      exact (cons.inj ht).1
    generalize hk : t.kind = k at hr
    cases Lexeme.stands_of_read hr with
    | lineComment hb => exact absurd hb (by decide)
    | word hb => exact absurd hb (by decide)
    | number hb => exact absurd hb (by decide)
    | blockComment hb => exact absurd hb (by decide)
    | directive hb => exact absurd hb (by decide)
    | quoted hb => exact absurd hb (by decide)
    | angled hb => exact absurd hb (by decide)
    | colons hb => rfl
    | operator hb => rfl

end Token

namespace Seam

variable {src : Bytes} {t y : Token} {ts : List Token} {stop : Nat} {s : Seam}

theorem mirror_of_forall₂ {us us' : List Token}
    (h : List.Forall₂ (Token.Moved s.start s.row) us us') (hle : ∀ u ∈ us, u.stop ≤ s.last.start) :
    s.Mirror (us ++ s.last :: s.after) (us' ++ [s.last', s.finish]) := by
  induction h with
  | nil => exact .last
  | cons hm _ ih =>
    obtain ⟨hu, hus⟩ := forall_mem_cons.1 hle
    exact .cons hm hu (ih hus)

/-- A source can be cut behind a closing brace that is the last token before the cut. -/
theorem exists_of_brace (h : t :: ts <:+ Token.scan src) (hstop : stop ≤ src.length)
    (hl : ((t :: ts).takeWhile (·.start < stop)).getLast? = some y) (hb : y.spelled "\x7d") :
    ∃ s : Seam, s.source = src ∧ s.start = t.start ∧ s.row = t.point.row ∧ s.stop = stop ∧
      s.Mirror (t :: ts) (Token.scan s.part) := by
  obtain ⟨us, hus⟩ := getLast?_eq_some_iff.1 hl
  have hs : t :: ts = us ++ y :: (t :: ts).dropWhile (·.start < stop) := by
    have hap := takeWhile_append_dropWhile (p := fun u : Token => decide (u.start < stop)) (l := t :: ts)
    rw [hus, append_assoc, singleton_append] at hap
    exact hap.symm
  have hp := (Token.pairwise_scan src).sublist h.sublist
  have ha := Tokens.ahead_dropWhile stop hp
  generalize (t :: ts).dropWhile (·.start < stop) = after at hs ha
  have hbe : ∀ u ∈ us, u.stop ≤ y.start := by
    rw [hs] at hp
    exact fun u hu => (pairwise_append.1 hp).2.2 u hu y mem_cons_self
  have hyt := mem_takeWhile_imp (mem_of_getLast? hl)
  have hylt : y.start < stop := of_decide_eq_true hyt
  have hlen : y.text.length = 1 := by
    rw [show y.text = Bytes.ofString "\x7d" from beq_iff_eq.1 hb]
    decide
  have hcut : ∀ u ∈ t :: ts, u.start < stop → u.stop ≤ stop := by
    intro u hu hlt
    rw [hs, mem_append, mem_cons] at hu
    rcases hu with hu | rfl | hu
    · exact Nat.le_of_lt (Nat.lt_of_le_of_lt (hbe u hu) hylt)
    · rw [Token.stop, hlen]
      exact hlt
    · exact absurd (ha u hu) (Nat.not_le.2 hlt)
  have hst : t.start ≤ stop := by
    by_contra hnot
    rw [takeWhile_cons_of_neg (by simp; omega)] at hl
    cases hl
  obtain ⟨finish, hk, ht, hmo⟩ := Token.moved_scan_slice h hst hstop hcut
  rw [hus, append_assoc, singleton_append] at hmo
  obtain ⟨us', _, hsc, hmovedUs, hlast⟩ := exists_of_forall₂_append hmo
  obtain ⟨y', _, hy, hfinish, rfl⟩ := forall₂_cons_left_iff.1 hlast
  obtain ⟨f', _, hf, ⟨⟩, rfl⟩ := forall₂_cons_left_iff.1 hfinish
  have hya : y :: after <:+ Token.scan src := (hs ▸ suffix_append us (y :: after)).trans h
  let s : Seam :=
    { source := src, start := t.start, row := t.point.row, stop := stop, last := y, last' := y'
      after := after, finish := f', moved := hy
      kind := Token.kind_of_brace (hya.subset mem_cons_self) hb
      brace := hb, last_lt := hylt, ahead := ha, tokens := hya
      finish_kind := hf.kind.symm.trans hk, finish_text := hf.text.symm.trans ht }
  have hm : s.Mirror (us ++ y :: after) (us' ++ [y', f']) := mirror_of_forall₂ hmovedUs hbe
  rw [← hs, ← hsc] at hm
  exact ⟨s, rfl, rfl, rfl, rfl, hm⟩

theorem Mirror.last_mem {ts' : List Token} (h : s.Mirror ts ts') : s.last ∈ ts := by
  induction h with
  | last => exact mem_cons_self
  | cons _ _ _ ih => exact mem_cons_of_mem _ ih

end Seam

namespace Node

variable {src : Bytes} {root n : Node} {ts : List Token}

/-- The tokens that start within the node. -/
def tokens (src : Bytes) (n : Node) : List Token :=
  (Token.scan src).filter fun t => n.start ≤ t.start && t.start < n.stop

/-- Whether the last token of the node is a closing brace. -/
def endsWithBrace (src : Bytes) (n : Node) : Bool :=
  (n.tokens src).getLast?.any (·.spelled "\x7d")

theorem start_le_stop_of_brace (h : n.endsWithBrace src) : n.start ≤ n.stop := by
  unfold endsWithBrace at h
  cases hl : (n.tokens src).getLast? with
  | none =>
    rw [hl] at h
    cases h
  | some y =>
    have ht := (mem_filter.1 (mem_of_getLast? hl)).2
    simp only [Bool.and_eq_true, decide_eq_true_eq] at ht
    omega

theorem filter_eq_takeWhile (stop : Nat) (h : ts.Pairwise (·.stop ≤ ·.start)) :
    ts.filter (·.start < stop) = ts.takeWhile (·.start < stop) := by
  induction ts with
  | nil => rfl
  | cons t ts ih =>
    obtain ⟨hh, ht⟩ := pairwise_cons.1 h
    rw [filter_cons, takeWhile_cons, ih ht]
    split
    · rfl
    · next hnot =>
        have hle : stop ≤ t.start := Nat.le_of_not_lt (by simpa using hnot)
        rw [← ih ht, filter_eq_nil_iff]
        intro u hu
        have hs := Nat.le_trans (Token.start_le_stop t) (hh u hu)
        simp
        omega

/-- The last token of a node that starts with a token is found behind that token. -/
theorem exists_last_of_brace {t : Token} (hts : t :: ts <:+ Token.scan src)
    (hst : n.start = t.start) (h : n.endsWithBrace src) :
    ∃ y, ((t :: ts).takeWhile (·.start < n.stop)).getLast? = some y ∧ y.spelled "\x7d" := by
  unfold endsWithBrace at h
  cases hl : (n.tokens src).getLast? with
  | none =>
    rw [hl] at h
    cases h
  | some y =>
    rw [hl] at h
    refine ⟨y, ?_, h⟩
    obtain ⟨before, hs⟩ := hts
    have hp := Token.pairwise_scan src
    rw [← hs, pairwise_append] at hp
    obtain ⟨-, hp, hb⟩ := hp
    have hsa : (t :: ts).filter (fun u => n.start ≤ u.start && u.start < n.stop) =
        (t :: ts).takeWhile (·.start < n.stop) := by
      rw [← filter_eq_takeWhile n.stop hp]
      refine filter_congr fun u hu => ?_
      have hle : n.start ≤ u.start := by
        rw [hst]
        rcases mem_cons.1 hu with rfl | hu
        · exact Nat.le_refl _
        · exact Nat.le_trans (Token.start_le_stop t) ((pairwise_cons.1 hp).1 u hu)
      rw [decide_eq_true hle, Bool.true_and]
    rw [tokens, ← hs, filter_append, hsa, getLast?_append] at hl
    cases hf : ((t :: ts).takeWhile (·.start < n.stop)).getLast? with
    | some z =>
      rw [hf] at hl
      exact hl
    | none =>
      -- a token before the node ends before it, so the brace would be empty
      rw [hf, Option.none_or] at hl
      obtain ⟨hmem, ht⟩ := mem_filter.1 (mem_of_getLast? hl)
      have hle := hb y hmem t mem_cons_self
      have hlen : y.text.length = 1 := by
        rw [show y.text = Bytes.ofString "\x7d" from beq_iff_eq.1 h]
        decide
      simp only [Bool.and_eq_true, decide_eq_true_eq] at ht
      rw [Token.stop] at hle
      omega

theorem remarks_root (src : Bytes) (items : List Node) : remarks [.root .cpp src items] = remarks items := by
  have hk : "translation_unit" ≠ "comment" := by decide
  cases items with
  | nil => exact remarks_of_kind (n := .root .cpp src []) hk
  | cons first more => exact remarks_of_kind (n := .root .cpp src (first :: more)) hk

end Node

/-- The part has a tree of its own, in which the same comments are found as in the item that ends
with the part. -/
theorem Seam.exists_parse_part (s : Seam) {t : Token} {n : Node} {inClass : Bool}
    {r : Reading (Option Node) (t :: ts)} (hts : t :: ts <:+ Token.scan s.source)
    (hmi : s.Mirror (t :: ts) (Token.scan s.part))
    (hit : Grammar.item s.whole inClass (t :: ts) = .ok r) (hv : r.value = some n)
    (hst : s.stop = n.stop) (hlength : s.stop ≤ s.source.length) (hcpp : guess s.part = .cpp) :
    ∃ root, parse s.part = .ok root ∧ List.Forall₂ s.Remark (remarks [n]) (remarks [root]) := by
  obtain ⟨_, t', _, ts', heq, hs, hmo, hlt, -⟩ := hmi.uncons
  cases heq
  rw [hs] at hmi
  have hts' : t' :: ts' <:+ Token.scan s.part := hs ▸ suffix_rfl
  rcases (Seam.items_cut hts).1 _ inClass false r hmi hts' hit with
    ⟨r', hr', ht⟩ | hbe
  · have hsp : s.Spent r.rest r'.rest := by
      rcases ht.rest with h | h
      · have hl := (Grammar.items_laid (g := s.whole) hts).1 inClass r hit
        rw [hv] at hl
        have hle := hl.ahead s.last h.last_mem
        have hla := s.last_lt
        omega
      · exact h
    have hend : Grammar.endsItems false t' = false := by
      rw [Grammar.endsItems, Bool.false_and, Bool.or_false, ← hmo.isFinish, Token.isFinish]
      refine beq_eq_false_iff_ne.2 fun hk => ?_
      have hstart := (Token.start_of_finish (hts.subset mem_cons_self) hk).1
      omega
    have hsu := ((Grammar.items_laid (g := s.alone) hts').1 false r' hr').suffix
    have ho := (Grammar.onward_suffix hsu).1.trans hsp.2
    obtain ⟨others, hot, hnil, -⟩ := Grammar.items_of_spent ho s.alone false false
    obtain ⟨q, hq, hqv, -⟩ := (Grammar.ItemsRead.more hend hr' hot).exists_ok
    have hq' : ∃ q, Grammar.items s.alone false false (Token.scan s.part) = .ok q ∧
        q.value = r'.value.toList := by
      rw [hs]
      exact ⟨q, hq, by rw [hqv, hnil, append_nil]⟩
    obtain ⟨items, hitems, hitemsValue⟩ := hq'
    refine ⟨.root .cpp s.part items.value, ?_, ?_⟩
    · unfold parse
      rw [hcpp]
      change (Grammar.items s.alone false false (Token.scan s.part) >>= _) = _
      rw [hitems]
      rfl
    · rw [remarks_root, hitemsValue]
      have hr := ht.remarks
      rwa [hv] at hr
  · obtain ⟨m, hm, hb⟩ := hbe.stop
    rw [hv] at hm
    cases hm
    exact absurd hst (Nat.ne_of_lt hb)

namespace Node

variable {src : Bytes} {root n : Node}

/-- A function, a template or a class was read from tokens with which it starts. -/
theorem exists_first (hcpp : guess src = .cpp) (hp : parse src = .ok root)
    (hn : n ∈ root.walk) (hk : n.kind ∈ ownKinds) : ∃ inClass t ts r, t :: ts <:+ Token.scan src ∧
      Grammar.item ⟨src, .cpp⟩ inClass (t :: ts) = .ok r ∧ r.value = some n ∧
      n.start = t.start ∧ n.startRow = t.point.row := by
  obtain ⟨inClass, us, hus, r, hit, hv⟩ := ((grown_of_parse hcpp hp).of_mem_walk hn).here.own hk
  cases us with
  | nil =>
    unfold Grammar.item at hit
    cases hit
    cases hv
  | cons t ts =>
    have hr : Grammar.ItemRead ⟨src, .cpp⟩ inClass t ts (some n) r.rest :=
      hv ▸ Grammar.itemRead_of_ok hit
    exact ⟨inClass, t, ts, r, hus, hit, hv, hr.startsWith hus hk⟩

theorem startRow_eq_newlines (hcpp : guess src = .cpp) (hp : parse src = .ok root)
    (hn : n ∈ root.walk) (hk : n.kind ∈ ownKinds) : n.startRow = Bytes.newlines (src.take n.start) := by
  obtain ⟨-, t, ts, -, hts, -, -, hs, hrow⟩ := exists_first hcpp hp hn hk
  rw [hrow, hs]
  exact Token.row_eq_newlines (hts.subset mem_cons_self)

/-- The text of a construct that ends with a closing brace has a tree of its own, in which the same
comments are found. -/
theorem exists_parse_alone (hcpp : guess src = .cpp) (hp : parse src = .ok root)
    (hn : n ∈ root.walk) (hk : n.kind ∈ ownKinds) (hb : n.endsWithBrace src)
    (ha : guess (n.text src) = .cpp) : ∃ root', parse (n.text src) = .ok root' ∧
      List.Forall₂ (SameRemark src (n.text src) n.start n.startRow) (remarks [n]) (remarks [root']) := by
  have hstop := stop_le_length hp ((walk_perm_preorder root).mem_iff.1 hn)
  obtain ⟨inClass, t, ts, r, hts, hit, hv, hst, hrow⟩ := exists_first hcpp hp hn hk
  obtain ⟨y, hl, hy⟩ := exists_last_of_brace hts hst hb
  obtain ⟨s, rfl, hs, hr, hss, hm⟩ := Seam.exists_of_brace hts hstop hl hy
  have hpa : n.text s.source = s.part := by rw [text, Seam.part, hst, hs, hss]
  rw [hpa] at ha
  rw [hpa, hst, hrow, ← hs, ← hr]
  exact s.exists_parse_part hts hm hit hv hss (hss.trans_le hstop) ha

end Node

end Excerpt
