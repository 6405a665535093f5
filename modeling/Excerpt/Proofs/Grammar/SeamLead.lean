import Excerpt.Proofs.Grammar.Item
import Excerpt.Proofs.Grammar.Seam

/-!
# Leads of items in a part of a source

A directive looks at the bytes of the source to find the end of its line. In a
part of the source the line may be cut short, but then it ends behind the last
token in both places. With this the leads of items are read alike in a part and
in the source: both stop before the last token of the part, or both pass it.
-/

namespace Excerpt

open Node List Option Outcome Tokens

namespace Seam

/-- The part on its own. -/
def part (s : Seam) : Bytes :=
  s.source.slice s.start s.stop

theorem part_drop (s : Seam) (i : Nat) :
    s.part.drop i = (s.source.drop (i + s.start)).take (s.stop - (i + s.start)) := by
  rw [part, Bytes.slice, drop_drop, drop_take, Nat.add_comm]

end Seam

namespace Grammar

variable {s : Seam} {ts ts' : List Token} {t t' : Token} {nameStop nameStop' : Nat}

theorem definitionLength_take (bs : Bytes) (k : Nat) :
    definitionLength (bs.take k) = min (definitionLength bs) k := by
  fun_induction definitionLength bs generalizing k with
  | case1 => simp [definitionLength]
  | case2 bs ih =>
    match k with
    | 0 => simp [definitionLength]
    | 1 => simp [definitionLength]
    | k + 2 =>
      rw [take_succ_cons, take_succ_cons, definitionLength, ih]
      omega
  | case3 bs =>
    cases k with
    | zero => simp [definitionLength]
    | succ k =>
      rw [take_succ_cons, definitionLength]
      omega
  | case4 b bs hlo hl ih =>
    cases k with
    | zero => simp [definitionLength]
    | succ k =>
      rw [take_succ_cons, definitionLength, ih]
      · omega
      · intro more hb ht
        obtain ⟨rest, hr⟩ := head?_eq_some_iff.1 (Lexeme.head?_of_take (congrArg head? ht))
        exact hlo rest hb hr
      · exact hl

/-- A token lies behind the end of a line in the source if it does in the part, where the line
may be cut short. -/
theorem line_end_moved {length : Bytes → Nat} {i i' : Nat} {u u' : Token}
    (hl : ∀ bs k, length (bs.take k) = min (length bs) k) (hi : i = i' + s.start)
    (hle : i ≤ s.stop) (hu : u.Moved s.start s.row u') (hlt : u.start < s.stop) :
    decide (i + length (s.source.drop i) ≤ u.start) = decide (i' + length (s.part.drop i') ≤ u'.start) := by
  rw [s.part_drop, ← hi, hl, decide_eq_decide, hu.start]
  rw [hu.start] at hlt
  omega

theorem parameterNode_moved {d r : Nat} {n : Node} (h : t.Moved d r t')
    (hn : parameterNode t = .ok n) : ∃ n', parameterNode t' = .ok n' := by
  unfold parameterNode at hn ⊢
  rw [← h.kind, ← h.text]
  split at hn
  · next hk =>
      rw [if_pos hk]
      exact ⟨_, rfl⟩
  · next hk =>
      rw [if_neg hk]
      split at hn
      · exact ⟨_, rfl⟩
      · cases hn

/-- Tokens before one that `p` holds of, in the part, are such tokens of the source, moved. -/
theorem before_meets (h : s.Meets ts ts') {p : Token → Bool}
    (hp : ∀ t t', t.Moved s.start s.row t' → p t = p t') :
    ∀ u' ∈ before p ts', ∃ u ∈ before p ts, u.Moved s.start s.row u' := by
  induction h using Seam.Meets.ind with
  | spent ts ts' h =>
    intro u' hu'
    rcases suffix_cons_iff.1 h.2 with rfl | h
    · simp [before, Token.isFinish, s.finish_kind] at hu'
    · rw [suffix_nil.1 h] at hu'
      cases hu'
  | step t t' ts ts' ht hlt hmi hme ih =>
    unfold before at ih ⊢
    rw [takeWhile_cons, takeWhile_cons, ← hp t t' ht, ← ht.isFinish]
    split
    · intro u' hu'
      rcases mem_cons.1 hu' with rfl | hu'
      · exact ⟨t, mem_cons_self, ht⟩
      · obtain ⟨u, hu, hm⟩ := ih u' hu'
        exact ⟨u, mem_cons_of_mem t hu, hm⟩
    · exact fun u' hu' => absurd hu' not_mem_nil

theorem finish_mem (h : s.Mirror ts ts') : s.finish ∈ ts' := by
  induction h with
  | last => simp
  | cons ht hle h ih => exact mem_cons_of_mem _ ih

/-- The parameters of a definition, or their absence, end at the same place. -/
def SameStop (s : Seam) (params params' : Option Node) : Prop :=
  ∀ i i', i = i' + s.start → i ≤ s.stop →
    params.elim i Node.stop = params'.elim i' Node.stop + s.start ∧ params.elim i Node.stop ≤ s.stop

/-- Parameters are read if their tokens are texts and a token closes them, where they end. -/
theorem definitionParameters_eq_ok {r : Reading (Option Node) (t :: ts)}
    (ho : (t.spelled "(" && t.start == nameStop))
    (hr : definitionParameters nameStop (t :: ts) = .ok r) :
    (∃ inner, (before (·.spelled ")") ts).mapM parameterNode = .ok inner) ∧
      ∃ closing, Tokens.skipTo (·.spelled ")") ts = closing :: r.rest ∧
        ∃ params, r.value = some params ∧ params.stop = closing.stop := by
  unfold definitionParameters at hr
  dsimp only at hr
  rw [if_pos ho] at hr
  obtain ⟨inner, hin, hr⟩ := Outcome.bind_eq_ok.1 hr
  refine ⟨⟨inner, hin⟩, ?_⟩
  split at hr
  · cases hr
  · next value closing rest hle heq =>
      cases hr
      refine ⟨closing, congrArg Reading.rest heq, _, rfl, ?_⟩
      change ((inner ++ [Node.leaf ")" closing]).getLastD _).stop = closing.stop
      rw [getLastD_concat]
      rfl

theorem definitionParameters_exists {inner : List Node} {closing : Token} {rest : List Token}
    (ho : (t.spelled "(" && t.start == nameStop))
    (hin : (before (·.spelled ")") ts).mapM parameterNode = .ok inner)
    (hs : Tokens.skipTo (·.spelled ")") ts = closing :: rest) :
    ∃ r, definitionParameters nameStop (t :: ts) = .ok r := by
  unfold definitionParameters
  dsimp only
  rw [if_pos ho, hin, ok_bind]
  split
  · next heq =>
      have hnil := congrArg Reading.rest heq
      rw [show ((Reading.stay () ts).skipTo (·.spelled ")")).rest = closing :: rest from hs] at hnil
      cases hnil
  · exact ⟨_, rfl⟩

theorem definitionParameters_of_not_open (ho : (t.spelled "(" && t.start == nameStop) = false) :
    definitionParameters nameStop (t :: ts) = .ok (.stay none (t :: ts)) := by
  exact if_neg (by rw [ho]; decide)

theorem sameStop_none : SameStop s none none :=
  fun _ _ hi hle => ⟨hi, hle⟩

/-- The parameters of a definition are read alike while their parenthesis is in the part. -/
theorem definitionParameters_agree_cons (h : s.Mirror ts ts')
    (ho : (t.spelled "(" && t.start == nameStop))
    (ho' : (t'.spelled "(" && t'.start == nameStop'))
    {r : Reading (Option Node) (t :: ts)} (hr : definitionParameters nameStop (t :: ts) = .ok r) :
    ∃ r', definitionParameters nameStop' (t' :: ts') = .ok r' ∧ s.Agree (SameStop s) r r' := by
  obtain ⟨hin, closing, hsk, params, hpa, hst⟩ := definitionParameters_eq_ok ho hr
  have hp : ∀ u u' : Token, u.Moved s.start s.row u' → u.spelled ")" = u'.spelled ")" :=
    fun u u' hu => hu.spelled ")"
  have hin' : ∃ inner, (before (·.spelled ")") ts').mapM parameterNode = .ok inner := by
    rw [exists_mapM_iff] at hin ⊢
    intro u' hu'
    obtain ⟨u, hu, hmo⟩ := before_meets (.inl h) hp u' hu'
    obtain ⟨n, hn⟩ := hin u hu
    exact parameterNode_moved hmo hn
  obtain ⟨inner', hin'⟩ := hin'
  obtain ⟨closing', rest', hs'⟩ := exists_cons_of_ne_nil
    (skipTo_ne_nil (finish_mem h) s.finish_kind (·.spelled ")"))
  obtain ⟨r', hr'⟩ := definitionParameters_exists ho' hin' hs'
  refine ⟨r', hr', ?_⟩
  obtain ⟨-, closing'', hs'', params', hp', hst'⟩ := definitionParameters_eq_ok ho' hr'
  have hme := Seam.Meets.skipTo (fun u u' hu _ => hp u u' hu) (.inl h)
  rw [hsk, hs''] at hme
  rcases hme with hm | hs
  · refine hm.cons_cases.symm.imp_left fun ⟨hle, hre⟩ => ⟨hre, ?_⟩
    intro i i' hi hi'
    rw [hpa, hp', elim_some, elim_some, hst, hst']
    exact ⟨hm.moved.stop, Nat.le_of_lt (Nat.lt_of_le_of_lt hle s.last_lt)⟩
  · exact .inr (hs.trans (suffix_cons _ _) (suffix_cons _ _))

theorem definitionParameters_agree (hn : nameStop = nameStop' + s.start)
    (h : s.Meets ts ts') {r : Reading (Option Node) ts} (hr : definitionParameters nameStop ts = .ok r) :
    ∃ r', definitionParameters nameStop' ts' = .ok r' ∧ s.Agree (SameStop s) r r' := by
  rcases h with h | h
  · obtain ⟨t, t', us, us', rfl, rfl, ht, -, -⟩ := h.uncons
    have hs : (t'.spelled "(" && t'.start == nameStop') = (t.spelled "(" && t.start == nameStop) := by
      rw [Bool.eq_iff_iff, ht.spelled, ht.start, hn]
      simp
    cases ho : (t.spelled "(" && t.start == nameStop) with
    | true =>
      have hp := (Bool.and_eq_true_iff.1 ho).1
      exact definitionParameters_agree_cons (h.tail_of_spelled hp (by decide)).2 ho
        (hs.trans ho) hr
    | false =>
      rw [definitionParameters_of_not_open ho] at hr
      cases hr
      exact ⟨_, definitionParameters_of_not_open (hs.trans ho), .inl ⟨h, sameStop_none⟩⟩
  · have hsc := h.1.trans ((suffix_cons s.last s.after).trans s.tokens)
    have hre := (definitionParameters_laid hsc hr).1.suffix
    rcases suffix_cons_iff.1 h.2 with rfl | hnil
    · refine ⟨_, definitionParameters_of_not_open ?_, .inr (h.trans hre suffix_rfl)⟩
      rw [Token.spelled, s.finish_text, show ([] == Bytes.ofString "(") = false by decide,
        Bool.false_and]
    · rw [suffix_nil.1 hnil] at h ⊢
      exact ⟨_, rfl, .inr (h.trans hre suffix_rfl)⟩

/-- The tokens left by a definition: those behind the end of its line. -/
theorem definition_rest (src : Bytes) (t : Token) {name : Token} {params : Reading (Option Node) ts}
    (h : definitionParameters name.stop ts = .ok params) : ∃ r, definition src t (name :: ts) = .ok r ∧
      r.rest = Tokens.skipTo (params.value.elim name.stop Node.stop +
          definitionLength (src.drop (params.value.elim name.stop Node.stop)) ≤ ·.start) params.rest := by
  unfold definition
  dsimp only
  rw [h, ok_bind]
  split
  · next hv => exact ⟨_, rfl, by rw [hv]; rfl⟩
  · next hv => exact ⟨_, rfl, by rw [hv]; rfl⟩

theorem definition_agree (h : s.Mirror ts ts') {r : Reading Node ts} (hr : definition s.source t ts = .ok r) :
    ∃ r', definition s.part t' ts' = .ok r' ∧ s.Meets r.rest r'.rest := by
  obtain ⟨name, name', us, us', rfl, rfl, hn, -, hus⟩ := h.uncons
  have hp : ∃ params, definitionParameters name.stop us = .ok params := by
    obtain ⟨params, hp, -⟩ := Outcome.bind_eq_ok.1 hr
    exact ⟨params, hp⟩
  obtain ⟨params, hp⟩ := hp
  obtain ⟨params', hp', ha⟩ := definitionParameters_agree hn.stop hus hp
  obtain ⟨r₁, hr₁, hre⟩ := definition_rest s.source t hp
  obtain ⟨r', hr', hre'⟩ := definition_rest s.part t' hp'
  cases hr.symm.trans hr₁
  refine ⟨r', hr', ?_⟩
  rw [hre, hre']
  rcases ha with ⟨hm, hsa⟩ | hs
  · obtain ⟨hf, hle⟩ := hsa name.stop name'.stop hn.stop h.stop_le
    exact Seam.Meets.skipTo (fun u u' hu hlt =>
      line_end_moved definitionLength_take hf hle hu hlt) (.inl hm)
  · exact .inr (hs.trans (skipTo_suffix _ _) (skipTo_suffix _ _))

theorem directive_agree (h : s.Mirror (t :: ts) (t' :: ts')) (hk : t.kind = .directive)
    {r : Reading Node ts} (hr : directive s.source t ts = .ok r) :
    ∃ r', directive s.part t' ts' = .ok r' ∧ s.Meets r.rest r'.rest := by
  have ht := (h.tail_of_kind hk (by decide)).2
  unfold directive at hr ⊢
  rw [← h.moved.spelled]
  split at hr
  · next hd =>
      rw [if_pos hd]
      exact definition_agree ht hr
  · next hd =>
      rw [if_neg hd]
      cases hr
      refine ⟨_, rfl, ?_⟩
      exact Seam.Meets.skipTo (fun u u' hu hlt =>
        line_end_moved (Lexeme.run_take (· != Bytes.newline)) h.moved.stop h.stop_le hu hlt) (.inl ht)

end Grammar

/-- Whether a block comes next, and whether it is that of a class. -/
def Lead.block? : Lead → Option Bool
  | .whole _ => none
  | .opens owner => some owner.isRecord

namespace Seam

variable {s : Seam} {ts ts' rest rest' : List Token} {l l' : Lead}

/-- Two leads agree: they stop before the end of the part and wait for the same kind of block, or
they pass it, where no block can come in the part. -/
inductive LeadsAgree (s : Seam) (rest rest' : List Token) (l l' : Lead) : Prop where
  | mirror (h : s.Mirror rest rest') (hblock : l.block? = l'.block?)
  | spent (h : s.Spent rest rest') (hblock : l.block?.isSome → at? "\x7b" rest)
      (hwhole : l'.block? = none)

/-- A lead passes the part and does not end with it. -/
structure LeadOverruns (s : Seam) (rest : List Token) (l : Lead) : Prop where
  spent : rest <:+ s.after
  block : l.block?.isSome → at? "\x7b" rest
  node : l ≠ .whole none
  stop : ∀ n, l = .whole (some n) → s.stop < n.stop

theorem Meets.leadsAgree_whole (h : s.Meets rest rest') (n n' : Option Node) :
    s.LeadsAgree rest rest' (.whole n) (.whole n') := by
  rcases h with h | h
  · exact .mirror h rfl
  · exact .spent h (fun hs => nomatch hs) rfl

theorem Meets.leadsAgree {b : Bool} (h : s.Meets ts ts')
    (hb : l.block? = if at? "\x7b" ts then some b else none)
    (hb' : l'.block? = if at? "\x7b" ts' then some b else none) :
    s.LeadsAgree (Grammar.upToBlock ts) (Grammar.upToBlock ts') l l' := by
  rcases h with h | h
  · have hsa : l.block? = l'.block? := by rw [hb, hb', h.at?]
    unfold Grammar.upToBlock
    rw [← h.at?]
    split
    · exact .mirror h hsa
    · next ho =>
        rw [if_neg ho] at hb
        rcases Meets.skip (.inl h) ";" with h | h
        · exact .mirror h hsa
        · refine .spent h (fun hs => ?_) (hsa.symm.trans hb)
          rw [hb] at hs
          cases hs
  · rw [Grammar.at?_of_spent h.2 (by decide)] at hb'
    refine .spent (h.trans (Grammar.upToBlock_suffix ts) (Grammar.upToBlock_suffix ts'))
      (fun hs => ?_) hb'
    by_cases ho : at? "\x7b" ts
    · rwa [Grammar.upToBlock, if_pos ho]
    · rw [hb, if_neg ho] at hs
      cases hs

end Seam

namespace Grammar

variable {s : Seam} {ts ts' : List Token} {t t' first : Token} {inClass : Bool}

theorem recordName_meets (h : s.Meets ts ts') : s.Meets (recordName ts).rest (recordName ts').rest := by
  induction h using Seam.Meets.ind with
  | spent ts ts' h => exact .inr (h.trans (recordName_suffix ts) (recordName_suffix ts'))
  | step t t' ts ts' ht hlt hm hme ih =>
    unfold recordName
    dsimp only
    rw [← ht.kind]
    split
    · exact hme
    · exact .inl hm

theorem recordLead_eq (keyword : Token) (ts : List Token) : (recordLead keyword ts).rest =
        upToBlock (Tokens.skipTo (·.spelledIn ["\x7b", ";"]) (recordName ts).rest) ∧
      (recordLead keyword ts).value.block? =
        if at? "\x7b" (Tokens.skipTo (·.spelledIn ["\x7b", ";"]) (recordName ts).rest)
        then some true else none := by
  unfold recordLead upToBlock
  dsimp only [Reading.skipTo]
  split
  · exact ⟨rfl, rfl⟩
  · exact ⟨rfl, rfl⟩

theorem recordLead_agree (h : s.Meets ts ts') :
    s.LeadsAgree (recordLead t ts).rest (recordLead t' ts').rest (recordLead t ts).value
      (recordLead t' ts').value := by
  rw [(recordLead_eq t ts).1, (recordLead_eq t' ts').1]
  exact ((recordName_meets h).skipTo fun u u' hu _ => hu.spelledIn ["\x7b", ";"]).leadsAgree
    (recordLead_eq t ts).2 (recordLead_eq t' ts').2

theorem namespaceName_stay {a : Token} (h : a.spelled "::" = false) (first : Token)
    (last : Option Token) : (namespaceName first last (a :: ts)).rest = a :: ts := by
  cases ts with
  | nil => rfl
  | cons b ts => rw [namespaceName, h, Bool.false_and, if_neg (by decide)]; rfl

theorem namespaceName_mirror (h : s.Mirror ts ts') (first first' : Token) (last last' : Option Token) :
    s.Mirror (namespaceName first last ts).rest (namespaceName first' last' ts').rest := by
  induction hlen : ts.length using Nat.strong_induction_on generalizing ts ts' last last' with
  | _ k ih =>
    subst hlen
    obtain ⟨a, a', us, us', rfl, rfl, ha, -, -⟩ := h.uncons
    cases hc : a.spelled "::" with
    | false =>
      rw [namespaceName_stay hc, namespaceName_stay ((ha.spelled "::").symm.trans hc)]
      exact h
    | true =>
      have ht := (h.tail_of_spelled hc (by decide)).2
      obtain ⟨b, b', vs, vs', rfl, rfl, hb, -, -⟩ := ht.uncons
      rw [namespaceName, namespaceName, ← ha.spelled, hc, ← hb.kind]
      split
      · next hw =>
          rw [Bool.true_and, beq_iff_eq] at hw
          have hr := (ht.tail_of_kind hw (by decide)).2
          exact ih _ (by simp only [length_cons]; omega) hr _ _ rfl
      · exact h

theorem namespaceLead_agree (h : s.Mirror ts ts') :
    s.LeadsAgree (namespaceLead t ts).rest (namespaceLead t' ts').rest (namespaceLead t ts).value
      (namespaceLead t' ts').value := by
  obtain ⟨a, a', us, us', rfl, rfl, ha, -, -⟩ := h.uncons
  unfold namespaceLead
  dsimp only
  rw [← ha.kind]
  split
  · next hw =>
      have ht := (h.tail_of_kind (beq_iff_eq.1 hw) (by decide)).2
      exact .mirror (namespaceName_mirror ht a a' none none) rfl
  · exact .mirror h rfl

theorem at?_upToBlock {rest : List Token} (hr : rest = upToBlock ts)
    (h : at? "\x7b" ts) : at? "\x7b" rest := by
  rwa [hr, upToBlock, if_pos h]

theorem opens_declared {marks : List Token} {part : NamePart}
    {more : List NamePart} (h : (declared inClass first marks part more ts).value.opens) :
    at? "\x7b" (declared inClass first marks part more ts).rest := by
  cases hp : at? "(" (brackets ts).rest with
  | false => exact absurd (h.symm.trans (declared_of_variable inClass hp).2) (by decide)
  | true =>
    cases hre : (brackets ts).rest with
    | nil =>
      rw [hre] at hp
      cases hp
    | cons opening us =>
      rw [hre] at hp
      obtain ⟨hr, hv⟩ := declared_of_paren inClass hre hp
      rw [hv] at h
      rw [hr]
      exact at?_upToBlock (declaredFunction_eq inClass us).1 ((declaredFunction_eq inClass us).2 ▸ h)

/-- A function that waits for its block has it next. -/
theorem at?_of_opens
    (h : (declaration inClass first ts).value.opens) :
    at? "\x7b" (declaration inClass first ts).rest := by
  rcases declaration_cases inClass first ts with
    ⟨marks, part, more, -, hr, hv⟩ | ⟨part, more, opening, us, -, -, hr, hv⟩ |
    ⟨-, hw⟩
  · rw [hv] at h
    rw [hr]
    exact opens_declared h
  · rw [hv] at h
    rw [hr]
    exact at?_upToBlock (called_eq us).1 ((called_eq us).2 ▸ h)
  · exact absurd (h.symm.trans hw) (by decide)

theorem declarationLead_rest (inClass : Bool) (t : Token) (ts : List Token) :
    (wordLead.declarationLead inClass t ts).rest = (declaration inClass t ts).rest := by
  unfold wordLead.declarationLead
  dsimp only
  split
  · rfl
  · rfl

/-- The lead of a declaration waits for the block of a function, or is complete. -/
theorem declarationLead_cases (inClass : Bool) (t : Token) (ts : List Token) :
    ((declaration inClass t ts).value.opens ∧
      (wordLead.declarationLead inClass t ts).value.block? = some false) ∨
    ∃ n, (declaration inClass t ts).value = .whole n ∧
      (wordLead.declarationLead inClass t ts).value = .whole (some n) := by
  unfold wordLead.declarationLead
  dsimp only
  split
  · next heq =>
      rw [heq]
      exact .inl ⟨rfl, rfl⟩
  · next n heq => exact .inr ⟨n, heq, rfl⟩

theorem declarationLead_block? (inClass : Bool) (t : Token) (ts : List Token) :
    (wordLead.declarationLead inClass t ts).value.block? =
      if (declaration inClass t ts).value.opens then some false else none := by
  rcases declarationLead_cases inClass t ts with ⟨ho, hb⟩ | ⟨n, hv, hl⟩
  · rw [hb, if_pos ho]
  · rw [hl, hv]
    rfl

theorem at?_of_block? (inClass : Bool) (t : Token) (ts : List Token)
    (h : (wordLead.declarationLead inClass t ts).value.block?.isSome) :
    at? "\x7b" (wordLead.declarationLead inClass t ts).rest := by
  rw [declarationLead_block?] at h
  rw [declarationLead_rest]
  refine at?_of_opens ?_
  by_contra ho
  rw [if_neg ho] at h
  cases h

theorem declarationLead_agree (h : s.Mirror (t :: ts) (t' :: ts')) (inClass inClass' : Bool) :
    s.LeadsAgree (wordLead.declarationLead inClass t ts).rest (wordLead.declarationLead inClass' t' ts').rest
        (wordLead.declarationLead inClass t ts).value (wordLead.declarationLead inClass' t' ts').value ∨
      s.LeadOverruns (wordLead.declarationLead inClass t ts).rest
        (wordLead.declarationLead inClass t ts).value := by
  rcases declaration_agree h inClass inClass' with (⟨hmi, hsa⟩ | hs) | ho
  · refine .inl (.mirror ?_ ?_)
    · rwa [declarationLead_rest, declarationLead_rest]
    · rw [declarationLead_block?, declarationLead_block?, hsa]
  · rw [← declarationLead_rest, ← declarationLead_rest inClass' t' ts'] at hs
    refine .inl (.spent hs (at?_of_block? inClass t ts) ?_)
    cases hb : (wordLead.declarationLead inClass' t' ts').value.block? with
    | none => rfl
    | some b =>
      have hop := at?_of_block? inClass' t' ts' (by rw [hb]; rfl)
      exact absurd (hop.symm.trans (at?_of_spent hs.2 (by decide))) (by decide)
  · refine .inr ?_
    have hr : (wordLead.declarationLead inClass t ts).rest <:+ s.after := by
      rw [declarationLead_rest]
      exact ho.1
    rcases declarationLead_cases inClass t ts with ⟨-, hb⟩ | ⟨n, hv, hl⟩
    · have hnot : ∀ n, (wordLead.declarationLead inClass t ts).value ≠ .whole n := by
        intro n hn
        rw [hn] at hb
        cases hb
      exact ⟨hr, at?_of_block? inClass t ts, hnot none, fun n hn => absurd hn (hnot (some n))⟩
    · refine ⟨hr, at?_of_block? inClass t ts, ?_, ?_⟩
      · rw [hl]
        exact fun h => nomatch h
      · intro m hm
        cases hl.symm.trans hm
        exact ho.2 n hv

theorem wordLead_agree (h : s.Mirror (t :: ts) (t' :: ts')) (hw : t.kind = .word)
    (inClass inClass' : Bool) : s.LeadsAgree (wordLead inClass t ts).rest (wordLead inClass' t' ts').rest
        (wordLead inClass t ts).value (wordLead inClass' t' ts').value ∨
      s.LeadOverruns (wordLead inClass t ts).rest (wordLead inClass t ts).value := by
  have ht := (h.tail_of_kind hw (by decide)).2
  unfold wordLead
  rw [← h.moved.spelled, ← h.moved.spelledIn, ← h.moved.spelledIn, ← h.moved.spelledIn]
  split
  · exact .inl (namespaceLead_agree ht)
  split
  · exact .inl (recordLead_agree (.inl ht))
  split
  · exact .inl ((Seam.Meets.skip (.inl ht) ":").leadsAgree_whole _ _)
  split
  · exact .inl ((controlEnd_meets (.inl ht) 0 t t').leadsAgree_whole _ _)
  · exact declarationLead_agree h inClass inClass'

end Grammar

namespace Seam

/-- The grammar of the source, and that of the part on its own. -/
def whole (s : Seam) : Grammar := ⟨s.source, .cpp⟩

@[inherit_doc whole]
def alone (s : Seam) : Grammar := ⟨s.part, .cpp⟩

end Seam

namespace Grammar

variable {s : Seam} {ts ts' : List Token} {t t' : Token}

/-- The leads of items are read alike in the source and in the part, unless they end behind it. -/
theorem lead_agree (h : s.Mirror (t :: ts) (t' :: ts')) (inClass inClass' : Bool)
    {r : Reading Lead (t :: ts)} (hr : lead s.whole inClass t ts = .ok r) :
    (∃ r', lead s.alone inClass' t' ts' = .ok r' ∧
      s.LeadsAgree r.rest r'.rest r.value r'.value) ∨ s.LeadOverruns r.rest r.value := by
  have hm := h.moved
  have ht := Seam.Meets.tail h
  unfold lead at hr ⊢
  rw [← hm.isComment, ← hm.kind, ← hm.spelled, ← hm.spelled]
  split at hr
  · next hc =>
      rw [if_pos hc]
      cases hr
      exact .inl ⟨_, rfl, ht.leadsAgree_whole _ _⟩
  next hc =>
  rw [if_neg hc]
  split at hr
  · next hk =>
      rw [if_pos hk]
      obtain ⟨d, hd, hr⟩ := Outcome.bind_eq_ok.1 hr
      obtain ⟨d', hd', hre⟩ := directive_agree h hk hd
      cases hr
      refine .inl ⟨(d'.withValue (Lead.whole (some d'.value))).push t', ?_,
        hre.leadsAgree_whole (some d.value) (some d'.value)⟩
      rw [show directive s.alone.source t' ts' = .ok d' from hd']
      rfl
  next hk =>
  rw [if_neg hk]
  split at hr
  · next hp => cases hp
  next hp =>
  rw [if_neg (show ¬ s.alone.dialect = .proto from fun h => nomatch h)]
  split at hr
  · next hw =>
      rw [if_pos hw]
      cases hr
      exact (wordLead_agree h hw inClass inClass').imp_left fun ha => ⟨_, rfl, ha⟩
  next hw =>
  rw [if_neg hw]
  split at hr
  · next hv =>
      rw [if_pos hv]
      cases hr
      exact (declarationLead_agree h inClass inClass').imp_left fun ha => ⟨_, rfl, ha⟩
  next hv =>
  rw [if_neg hv]
  refine .inl ?_
  split at hr
  · next hs =>
      rw [if_pos hs]
      cases hr
      exact ⟨_, rfl, ht.leadsAgree_whole _ _⟩
  next hs =>
  rw [if_neg hs]
  split at hr
  · next ho =>
      rw [if_pos ho]
      cases hr
      exact ⟨_, rfl, .mirror h rfl⟩
  · next ho =>
      rw [if_neg ho]
      cases hr
      exact ⟨_, rfl, Seam.Meets.leadsAgree_whole (.inl h) _ _⟩

end Grammar

end Excerpt
