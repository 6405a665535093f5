import Excerpt.Proofs.Grammar.Declaration
import Excerpt.Proofs.Tree.Rescan

/-!
# Reading a part of a source on its own

A part of a source is cut out behind a closing brace, and read again on its own.
A reader sees the same tokens in both places, moved, until it passes the brace;
then the tokens that follow in the source are missing in the part. So of two
readings one of two things holds: both have stopped before the brace, with the
same tokens left, or both have passed it. Here this is shown for the readers of
names, lists, statements and declarations.
-/

namespace Excerpt

open Node List Tokens Token Bytes

/-- The cut behind a part of a source whose last token is a closing brace. -/
structure Seam where
  source : Bytes
  /-- Where the part starts, and on which row. -/
  start : Nat
  row : Nat
  /-- Where the part ends. -/
  stop : Nat
  /-- The last token of the part, in the source and in the part on its own. -/
  last : Token
  last' : Token
  /-- The tokens of the source behind the part. -/
  after : List Token
  /-- The end token of the part on its own. -/
  finish : Token
  moved : last.Moved start row last'
  kind : last.kind = .operator
  brace : last.spelled "\x7d"
  last_lt : last.start < stop
  ahead : Tokens.Ahead after stop
  tokens : last :: after <:+ scan source
  finish_kind : finish.kind = .finish
  finish_text : finish.text = []

namespace Seam

variable {s : Seam} {ts ts' : List Token} {t t' : Token} {p p' : Token → Bool}

/-- The tokens are the same in the source and in the part, up to the last one of the part. -/
inductive Mirror (s : Seam) : List Token → List Token → Prop where
  | last : Mirror s (s.last :: s.after) [s.last', s.finish]
  | cons {t t' : Token} {ts ts' : List Token} (ht : t.Moved s.start s.row t')
      (hle : t.stop ≤ s.last.start) (h : Mirror s ts ts') : Mirror s (t :: ts) (t' :: ts')

/-- The tokens are those behind the part. -/
def Spent (s : Seam) (ts ts' : List Token) : Prop :=
  ts <:+ s.after ∧ ts' <:+ [s.finish]

/-- The tokens left are the same, or in both places the part has been passed. -/
def Meets (s : Seam) (ts ts' : List Token) : Prop :=
  s.Mirror ts ts' ∨ s.Spent ts ts'

theorem Spent.trans {us us' : List Token} (h : s.Spent ts ts') (hus : us <:+ ts)
    (hus' : us' <:+ ts') : s.Spent us us' :=
  ⟨hus.trans h.1, hus'.trans h.2⟩

theorem Mirror.uncons (h : s.Mirror ts ts') :
    ∃ t t' us us', ts = t :: us ∧ ts' = t' :: us' ∧ t.Moved s.start s.row t' ∧ t.start < s.stop ∧
      s.Meets us us' := by
  cases h with
  | last =>
    exact ⟨_, _, _, _, rfl, rfl, s.moved, s.last_lt, .inr ⟨suffix_rfl, suffix_rfl⟩⟩
  | cons ht hle h =>
    have hlt := Nat.lt_of_le_of_lt (Nat.le_trans (start_le_stop _) hle) s.last_lt
    exact ⟨_, _, _, _, rfl, rfl, ht, hlt, .inl h⟩

/-- A token before the last one is followed by the same tokens, and the last one by those
behind the part. -/
theorem Mirror.cons_cases (h : s.Mirror (t :: ts) (t' :: ts')) :
    s.Spent ts ts' ∨ (t.stop ≤ s.last.start ∧ s.Mirror ts ts') := by
  cases h with
  | last => exact .inl ⟨suffix_rfl, suffix_rfl⟩
  | cons ht hle h => exact .inr ⟨hle, h⟩

theorem Mirror.moved (h : s.Mirror (t :: ts) (t' :: ts')) : t.Moved s.start s.row t' := by
  cases h with
  | last => exact s.moved
  | cons ht hle h => exact ht

/-- Tokens that meet are those behind the part, or a token and tokens that meet. -/
@[elab_as_elim]
theorem Meets.ind {motive : (ts ts' : List Token) → s.Meets ts ts' → Prop}
    (spent : ∀ ts ts' (h : s.Spent ts ts'), motive ts ts' (.inr h))
    (step : ∀ t t' ts ts' (_ : t.Moved s.start s.row t') (_ : t.start < s.stop)
      (hm : s.Mirror (t :: ts) (t' :: ts')) (hme : s.Meets ts ts'),
      motive ts ts' hme → motive (t :: ts) (t' :: ts') (.inl hm))
    (h : s.Meets ts ts') : motive ts ts' h := by
  rcases h with h | h
  · induction h with
    | last =>
      have hs : s.Spent s.after [s.finish] := ⟨suffix_rfl, suffix_rfl⟩
      exact step _ _ _ _ s.moved s.last_lt .last (.inr hs) (spent _ _ hs)
    | cons ht hle h ih =>
      have hlt := Nat.lt_of_le_of_lt (Nat.le_trans (start_le_stop _) hle) s.last_lt
      exact step _ _ _ _ ht hlt (.cons ht hle h) (.inl h) ih
  · exact spent _ _ h

theorem Meets.tail (h : s.Mirror ts ts') : s.Meets ts.tail ts'.tail := by
  obtain ⟨t, t', us, us', rfl, rfl, -, -, hm⟩ := h.uncons
  exact hm

theorem Mirror.at? (h : s.Mirror ts ts') (x : String) : at? x ts = at? x ts' := by
  obtain ⟨t, t', us, us', rfl, rfl, ht, -, -⟩ := h.uncons
  exact ht.spelled x

theorem Meets.dropWhile
    (hp : ∀ t t', t.Moved s.start s.row t' → t.start < s.stop → p t = p' t')
    (h : s.Meets ts ts') : s.Meets (ts.dropWhile p) (ts'.dropWhile p') := by
  induction h using Meets.ind with
  | spent ts ts' h => exact .inr (h.trans (dropWhile_suffix p) (dropWhile_suffix p'))
  | step t t' ts ts' ht hlt hm hme ih =>
    rw [dropWhile_cons, dropWhile_cons, ← hp t t' ht hlt]
    split
    · exact ih
    · exact .inl hm

theorem Meets.skipTo
    (hp : ∀ t t', t.Moved s.start s.row t' → t.start < s.stop → p t = p' t')
    (h : s.Meets ts ts') : s.Meets (Tokens.skipTo p ts) (Tokens.skipTo p' ts') := by
  refine h.dropWhile fun t t' ht hlt => ?_
  rw [hp t t' ht hlt, ht.isFinish]

theorem Meets.skip (h : s.Meets ts ts') (x : String) : s.Meets (Tokens.skip x ts) (Tokens.skip x ts') := by
  rcases h with h | h
  · unfold Tokens.skip
    rw [← h.at? x]
    split
    · exact Meets.tail h
    · exact .inl h
  · exact .inr (h.trans (skip_suffix x ts) (skip_suffix x ts'))

end Seam

namespace Grammar

variable {s : Seam} {ts ts' : List Token}

theorem controlEnd_meets (h : s.Meets ts ts') (depth : Nat) (last last' : Token) :
    s.Meets (controlEnd depth last ts).rest (controlEnd depth last' ts').rest := by
  induction h using Seam.Meets.ind generalizing depth last last' with
  | spent ts ts' h =>
    exact .inr (h.trans (controlEnd_suffix depth last ts) (controlEnd_suffix depth last' ts'))
  | step t t' ts ts' ht hlt hm hme ih =>
    rw [controlEnd, controlEnd, ← ht.isFinish, ← ht.spelled, ← ht.spelled, ← ht.spelledIn]
    split
    · exact .inl hm
    · dsimp only
      generalize (if t.spelled "\x7b" = true then depth + 1 else _) = inner
      split
      · exact hme
      · exact ih inner t t'

theorem plainEnd_meets (h : s.Meets ts ts') (last last' : Token) :
    s.Meets (plainEnd last ts).rest (plainEnd last' ts').rest := by
  induction h using Seam.Meets.ind generalizing last last' with
  | spent ts ts' h =>
    exact .inr (h.trans (plainEnd_suffix last ts) (plainEnd_suffix last' ts'))
  | step t t' ts ts' ht hlt hm hme ih =>
    rw [plainEnd, plainEnd, ← ht.isFinish, ← ht.spelled, ← ht.spelled]
    split
    · exact .inl hm
    · split
      · exact hme
      · exact ih t t'

theorem afterInitialiser_meets (h : s.Meets ts ts') (depth : Nat) :
    s.Meets (afterInitialiser depth ts).rest (afterInitialiser depth ts').rest := by
  induction h using Seam.Meets.ind generalizing depth with
  | spent ts ts' h =>
    exact .inr (h.trans (afterInitialiser_suffix depth ts) (afterInitialiser_suffix depth ts'))
  | step t t' ts ts' ht hlt hm hme ih =>
    rw [afterInitialiser, afterInitialiser, ← ht.isFinish, ← ht.spelled, ← ht.spelled, ← ht.spelled]
    split
    · exact .inl hm
    · split
      · exact hme
      · exact ih _

theorem afterVariable_meets (h : s.Meets ts ts') :
    s.Meets (afterVariable ts).rest (afterVariable ts').rest := by
  induction h using Seam.Meets.ind with
  | spent ts ts' h =>
    exact .inr (h.trans (afterVariable_suffix ts) (afterVariable_suffix ts'))
  | step t t' ts ts' ht hlt hm hme ih =>
    unfold afterVariable
    dsimp only
    rw [← ht.spelled]
    split
    · exact (afterInitialiser_meets hme 0).skip ";"
    · exact Seam.Meets.skip (.inl hm) ";"

theorem listItems_meets (h : s.Meets ts ts') (kind kind' : String)
    (item item' : Option (Token × Token)) (depth : Nat) :
    s.Meets (listItems kind item depth ts).rest (listItems kind' item' depth ts').rest := by
  induction h using Seam.Meets.ind generalizing item item' depth with
  | spent ts ts' h =>
    exact .inr (h.trans (listItems_suffix ..) (listItems_suffix ..))
  | step t t' ts ts' ht hlt hm hme ih =>
    rw [listItems, listItems, ← ht.isFinish, ← ht.spelled, ← ht.spelled, ← ht.spelled]
    split
    · exact .inl hm
    · split
      · exact ih none none 0
      · exact ih _ _ _

theorem parenthesised_meets (h : s.Meets ts ts') (kind kind' itemKind itemKind' : String)
    (opening opening' : Token) : s.Meets (parenthesised kind itemKind opening ts).rest
      (parenthesised kind' itemKind' opening' ts').rest := by
  rw [parenthesised_rest, parenthesised_rest]
  exact (listItems_meets h ..).skip ")"

theorem brackets_meets (h : s.Meets ts ts') : s.Meets (brackets ts).rest (brackets ts').rest := by
  induction h using Seam.Meets.ind with
  | spent ts ts' h => exact .inr (h.trans (brackets_suffix ts) (brackets_suffix ts'))
  | step t t' ts ts' ht hlt hm hme ih =>
    unfold brackets
    dsimp only
    rw [← ht.spelled]
    split
    · exact (hme.skipTo fun u u' hu _ => hu.spelled "]").skip "]"
    · exact .inl hm

end Grammar

namespace Seam

variable {s : Seam} {α β : Type} {ts ts' : List Token} {t t' : Token} {R : α → β → Prop} {x : String}
  {k : Token.Kind}

/-- Both readings have stopped before the end of the part with values that `R` relates, or both
have passed it. -/
def Agree (s : Seam) (R : α → β → Prop) (r : Reading α ts) (r' : Reading β ts') : Prop :=
  (s.Mirror r.rest r'.rest ∧ R r.value r'.value) ∨ s.Spent r.rest r'.rest

theorem Meets.agree {r : Reading α ts} {r' : Reading β ts'}
    (h : s.Meets r.rest r'.rest) (hR : R r.value r'.value) : s.Agree R r r' :=
  h.imp (fun h => ⟨h, hR⟩) id

theorem Agree.of_eq {us us' : List Token} {r : Reading α ts} {r' : Reading β ts'}
    {q : Reading α us} {q' : Reading β us'} (hq : s.Agree R q q')
    (h : r.rest = q.rest ∧ r.value = q.value) (h' : r'.rest = q'.rest ∧ r'.value = q'.value) :
    s.Agree R r r' := by
  rw [Agree, h.1, h.2, h'.1, h'.2]
  exact hq

/-- The last token of the part is spelled as a closing brace and not otherwise. -/
theorem spelled_last (hx : ofString "\x7d" ≠ ofString x) :
    s.last.spelled x = false := by
  have ht : s.last.text = ofString "\x7d" := beq_iff_eq.1 s.brace
  rw [spelled, ht]
  exact beq_eq_false_iff_ne.2 hx

theorem kind_last (hk : Token.Kind.operator ≠ k) : s.last.kind ≠ k := by
  rwa [s.kind]

/-- A token of the part ends within it. -/
theorem Mirror.stop_le (h : s.Mirror (t :: ts) (t' :: ts')) : t.stop ≤ s.stop := by
  have hlt := s.last_lt
  cases h with
  | last =>
    have ht : s.last.text = ofString "\x7d" := beq_iff_eq.1 s.brace
    have hlen : (ofString "\x7d").length = 1 := by decide
    rw [Token.stop, ht, hlen]
    omega
  | cons _ hle h => omega

theorem Mirror.tail_of_spelled (h : s.Mirror (t :: ts) (t' :: ts'))
    (ht : t.spelled x) (hx : ofString "\x7d" ≠ ofString x) :
    t.stop ≤ s.last.start ∧ s.Mirror ts ts' := by
  cases h with
  | last => exact absurd (ht.symm.trans (s.spelled_last hx)) (by decide)
  | cons _ hle h => exact ⟨hle, h⟩

theorem Mirror.tail_of_kind (h : s.Mirror (t :: ts) (t' :: ts'))
    (ht : t.kind = k) (hk : Token.Kind.operator ≠ k) : t.stop ≤ s.last.start ∧ s.Mirror ts ts' := by
  cases h with
  | last => exact absurd ht (s.kind_last hk)
  | cons _ hle h => exact ⟨hle, h⟩

end Seam

namespace Grammar

variable {s : Seam} {ts ts' : List Token} {t a : Token}

theorem nameParts_of_not_word (h : t.kind ≠ .word) : nameParts (t :: ts) = .stay [] (t :: ts) := by
  unfold nameParts
  exact if_pos (bne_iff_ne.2 h)

theorem nameParts_rest_operator (hw : t.kind = .word) (hop : t.spelled "operator") :
    (nameParts (t :: ts)).rest = ts.dropWhile isOperatorSymbol := by
  rw [nameParts.eq_def]
  dsimp only
  rw [hw, hop, if_neg (by decide), if_pos rfl]
  rfl

/-- What a name leaves after template arguments. -/
def afterColons (ts : List Token) : List Token :=
  if at? "::" ts then (nameParts ts.tail).rest else ts

/-- What a name leaves whose second token is `a`. -/
theorem nameParts_rest (hw : t.kind = .word) (hop : t.spelled "operator" = false) :
    (nameParts (t :: a :: ts)).rest = if a.kind == .angled then afterColons ts
      else if a.spelled "::" then (nameParts ts).rest else a :: ts := by
  rw [nameParts.eq_def (t :: a :: ts)]
  dsimp only
  rw [hw, hop, if_neg (by decide), if_neg (by decide)]
  by_cases ha : (a.kind == .angled)
  · rw [if_pos ha, if_pos ha]
    cases ts with
    | nil => rfl
    | cons u ts =>
      dsimp only
      by_cases hu : u.spelled "::"
      · rw [if_pos hu, afterColons, if_pos (by simpa [at?] using hu)]
        rfl
      · rw [if_neg hu, afterColons, if_neg (by simpa [at?] using hu)]
        rfl
  · rw [if_neg ha, if_neg ha]
    split
    · rfl
    · rfl

theorem afterColons_suffix (ts : List Token) : afterColons ts <:+ ts := by
  unfold afterColons
  split
  · exact (nameParts_suffix ts.tail).trans (tail_suffix ts)
  · exact suffix_rfl

theorem afterColons_meets (h : s.Meets ts ts')
    (ht : s.Meets ts.tail ts'.tail → s.Meets (nameParts ts.tail).rest (nameParts ts'.tail).rest) :
    s.Meets (afterColons ts) (afterColons ts') := by
  rcases h with h | h
  · unfold afterColons
    rw [← h.at? "::"]
    split
    · exact ht (Seam.Meets.tail h)
    · exact .inl h
  · exact .inr (h.trans (afterColons_suffix ts) (afterColons_suffix ts'))

theorem isOperatorSymbol_moved {d r : Nat} {t' : Token} (h : t.Moved d r t') :
    isOperatorSymbol t = isOperatorSymbol t' := by
  rw [isOperatorSymbol, isOperatorSymbol, h.kind, h.spelledIn]

theorem nameParts_meets (h : s.Meets ts ts') : s.Meets (nameParts ts).rest (nameParts ts').rest := by
  induction hlen : ts.length using Nat.strong_induction_on generalizing ts ts' with
  | _ k ih =>
    subst hlen
    rcases h with h | h
    · cases h with
      | last =>
        have hl : s.last.kind ≠ .word := s.kind_last (by decide)
        rw [nameParts_of_not_word hl, nameParts_of_not_word (s.moved.kind ▸ hl)]
        exact .inl .last
      | @cons t t' ts ts' ht hle h =>
        by_cases hw : t.kind = .word
        · have hw' : t'.kind = .word := ht.kind ▸ hw
          by_cases hop : t.spelled "operator"
          · rw [nameParts_rest_operator hw hop,
              nameParts_rest_operator hw' ((ht.spelled "operator").symm.trans hop)]
            exact Seam.Meets.dropWhile (fun u u' hu _ => isOperatorSymbol_moved hu) (.inl h)
          · rw [Bool.not_eq_true] at hop
            have hop' := (ht.spelled "operator").symm.trans hop
            obtain ⟨a, a', us, us', rfl, rfl, ha, -, hus⟩ := h.uncons
            rw [nameParts_rest hw hop, nameParts_rest hw' hop', ← ha.kind, ← ha.spelled]
            split
            · exact afterColons_meets hus fun h => ih _ (by simp; omega) h rfl
            split
            · exact ih _ (by simp only [length_cons]; omega) hus rfl
            · exact .inl h
        · rw [nameParts_of_not_word hw, nameParts_of_not_word (ht.kind ▸ hw)]
          exact .inl (.cons ht hle h)
    · exact .inr (h.trans (nameParts_suffix ts) (nameParts_suffix ts'))

theorem nameParts_ne_nil (hw : t.kind = .word) : (nameParts (t :: ts)).value ≠ [] := by
  rw [nameParts.eq_def]
  dsimp only
  rw [hw, if_neg (by decide)]
  split
  · exact cons_ne_nil _ _
  split
  · exact cons_ne_nil _ _
  split
  · split
    · exact cons_ne_nil _ _
    · split
      · exact cons_ne_nil _ _
      · exact cons_ne_nil _ _
  split
  · exact cons_ne_nil _ _
  · exact cons_ne_nil _ _

theorem nameParts_eq_nil_iff : (nameParts (t :: ts)).value = [] ↔ t.kind ≠ .word := by
  refine ⟨fun hnil hw => nameParts_ne_nil hw hnil, fun hw => ?_⟩
  rw [nameParts_of_not_word hw]
  rfl

end Grammar

/-- Whether a block comes next. -/
def Declaration.opens : Declaration → Bool
  | .function _ => true
  | .whole _ => false

namespace Grammar

/-- What is left after a declaration: the block that comes next, or what follows its semicolon. -/
def upToBlock (ts : List Token) : List Token :=
  if at? "\x7b" ts then ts else Tokens.skip ";" ts

theorem upToBlock_suffix (ts : List Token) : upToBlock ts <:+ ts := by
  unfold upToBlock
  split
  · exact suffix_rfl
  · exact skip_suffix ";" ts

section Declared

variable {α : Type} {ts ts' marks marks' us : List Token} {s : Seam} {first first' opening opening' : Token}
  {part part' : NamePart} {more more' : List NamePart}

/-- Both declarations wait for a block, or none does. -/
abbrev SameEnd (d d' : Declaration) : Prop := d.opens = d'.opens

theorem agree_upToBlock {us' : List Token} {r : Reading Declaration us}
    {r' : Reading Declaration us'} (h : s.Meets ts ts') (hr : r.rest = upToBlock ts)
    (hr' : r'.rest = upToBlock ts') (hv : r.value.opens = at? "\x7b" ts)
    (hv' : r'.value.opens = at? "\x7b" ts') : s.Agree SameEnd r r' := by
  rcases h with h | h
  · have hs : SameEnd r.value r'.value := by rw [SameEnd, hv, hv', h.at?]
    refine Seam.Meets.agree ?_ hs
    rw [hr, hr', upToBlock, upToBlock, ← h.at?]
    split
    · exact .inl h
    · exact Seam.Meets.skip (.inl h) ";"
  · refine .inr ?_
    rw [hr, hr']
    exact h.trans (upToBlock_suffix ts) (upToBlock_suffix ts')

theorem declaredFunction_eq (inClass : Bool) (ts : List Token) :
    (declaredFunction inClass first marks part more opening ts).rest =
        upToBlock (Tokens.skipTo (·.spelledIn ["\x7b", ";"])
          (parenthesised "parameter_list" "parameter_declaration" opening ts).rest) ∧
      (declaredFunction inClass first marks part more opening ts).value.opens =
        at? "\x7b" (Tokens.skipTo (·.spelledIn ["\x7b", ";"])
          (parenthesised "parameter_list" "parameter_declaration" opening ts).rest) := by
  unfold declaredFunction upToBlock
  dsimp only [Reading.skipTo]
  split
  · next ho =>
      rw [ho]
      exact ⟨rfl, rfl⟩
  · next ho =>
      rw [Bool.not_eq_true] at ho
      rw [ho]
      exact ⟨rfl, rfl⟩

theorem declaredFunction_agree (h : s.Meets ts ts') (inClass inClass' : Bool) :
    s.Agree SameEnd (declaredFunction inClass first marks part more opening ts)
      (declaredFunction inClass' first' marks' part' more' opening' ts') := by
  have hs := (parenthesised_meets h "parameter_list" "parameter_list" "parameter_declaration"
    "parameter_declaration" opening opening').skipTo fun u u' hu _ => hu.spelledIn ["\x7b", ";"]
  exact agree_upToBlock hs (declaredFunction_eq ..).1 (declaredFunction_eq ..).1
    (declaredFunction_eq ..).2 (declaredFunction_eq ..).2

theorem declared_of_paren (inClass : Bool)
    (h : (brackets ts).rest = opening :: us) (hp : opening.spelled "(") :
    (declared inClass first marks part more ts).rest =
        (declaredFunction inClass first marks part more opening us).rest ∧
      (declared inClass first marks part more ts).value =
        (declaredFunction inClass first marks part more opening us).value := by
  unfold declared
  generalize brackets ts = r at h
  obtain ⟨bracket, rest, hle⟩ := r
  subst h
  dsimp only
  rw [if_pos (by simpa [at?] using hp)]
  exact ⟨rfl, rfl⟩

theorem declared_of_variable (inClass : Bool) (h : at? "(" (brackets ts).rest = false) :
    (declared inClass first marks part more ts).rest = (afterVariable (brackets ts).rest).rest ∧
      (declared inClass first marks part more ts).value.opens = false := by
  unfold declared
  generalize brackets ts = r at h
  obtain ⟨bracket, rest, hle⟩ := r
  dsimp only at h ⊢
  rw [if_neg (by rw [h]; decide)]
  exact ⟨rfl, rfl⟩

theorem declared_suffix (inClass : Bool) (ts : List Token) :
    (declared inClass first marks part more ts).rest <:+ (brackets ts).rest := by
  by_cases hp : at? "(" (brackets ts).rest
  · cases hr : (brackets ts).rest with
    | nil =>
      rw [hr] at hp
      cases hp
    | cons opening us =>
      rw [hr] at hp
      rw [(declared_of_paren inClass hr hp).1, (declaredFunction_eq inClass us).1]
      exact (((upToBlock_suffix _).trans (skipTo_suffix _ _)).trans
        (parenthesised_suffix ..)).trans (suffix_cons opening us)
  · rw [(declared_of_variable inClass (Bool.not_eq_true _ ▸ hp)).1]
    exact (afterVariable_suffix _)

theorem declared_agree (h : s.Meets ts ts') (inClass inClass' : Bool) :
    s.Agree SameEnd (declared inClass first marks part more ts)
      (declared inClass' first' marks' part' more' ts') := by
  rcases brackets_meets h with hb | hb
  · by_cases hp : at? "(" (brackets ts).rest
    · have hp' := (hb.at? "(").symm.trans hp
      obtain ⟨o, o', us, us', ho, ho', hm, -, hus⟩ := hb.uncons
      rw [ho] at hp
      rw [ho'] at hp'
      exact (declaredFunction_agree hus inClass inClass').of_eq
        (declared_of_paren inClass ho hp) (declared_of_paren inClass' ho' hp')
    · rw [Bool.not_eq_true] at hp
      have hp' := (hb.at? "(").symm.trans hp
      refine Seam.Meets.agree ?_ ((declared_of_variable inClass hp).2.trans
        (declared_of_variable inClass' hp').2.symm)
      rw [(declared_of_variable inClass hp).1, (declared_of_variable inClass' hp').1]
      exact afterVariable_meets (.inl hb)
  · exact .inr (hb.trans (declared_suffix inClass ts) (declared_suffix inClass' ts'))

theorem called_eq (ts : List Token) : (called part more opening ts).rest =
        upToBlock (parenthesised "argument_list" "argument" opening ts).rest ∧
      (called part more opening ts).value.opens =
        at? "\x7b" (parenthesised "argument_list" "argument" opening ts).rest := by
  unfold called upToBlock
  dsimp only
  split
  · next ho =>
      rw [ho]
      exact ⟨rfl, rfl⟩
  · next ho =>
      rw [Bool.not_eq_true] at ho
      rw [ho]
      exact ⟨rfl, rfl⟩

theorem called_agree (h : s.Meets ts ts') :
    s.Agree SameEnd (called part more opening ts) (called part' more' opening' ts') := by
  have ha := parenthesised_meets h "argument_list" "argument_list" "argument" "argument"
    opening opening'
  exact agree_upToBlock ha (called_eq ts).1 (called_eq ts').1 (called_eq ts).2 (called_eq ts').2

end Declared

end Grammar

namespace Seam

variable {s : Seam} {w : Token}

theorem after_subset (s : Seam) : s.after ⊆ scan s.source :=
  subset_of_cons_subset s.tokens.subset

/-- If more than the end token is behind the part, all tokens there end behind it. -/
theorem stop_lt (hw : w ∈ s.after) (hk : w.kind ≠ .finish) {t : Token} (ht : t ∈ s.after) :
    s.stop < t.stop := by
  by_cases hf : t.kind = .finish
  · have hs := (start_of_finish (s.after_subset ht) hf).1
    have hwlt := start_lt_stop (s.after_subset hw) hk
    have hwle := stop_le_length (s.after_subset hw)
    have hst := start_le_stop t
    have ha := s.ahead w hw
    omega
  · exact Nat.lt_of_le_of_lt (s.ahead t ht) (start_lt_stop (s.after_subset ht) hf)

end Seam

namespace Grammar

section Declaration

variable {s : Seam} {ts ts' us : List Token} {first first' opening : Token} {part : NamePart}
  {more : List NamePart}

/-- The tokens after the first name of a declaration and the marks behind it. -/
def afterName (ts : List Token) : List Token :=
  (nameParts ts).rest.dropWhile isMark

theorem declaration_of_names (inClass : Bool)
    (h : (nameParts (afterName (first :: ts))).value = part :: more) :
    ∃ marks, (declaration inClass first ts).rest =
        (declared inClass first marks part more (nameParts (afterName (first :: ts))).rest).rest ∧
      (declaration inClass first ts).value =
        (declared inClass first marks part more (nameParts (afterName (first :: ts))).rest).value := by
  refine ⟨(nameParts (first :: ts)).rest.takeWhile isMark, ?_⟩
  unfold declaration
  extract_lets head marks after statement
  change (nameParts after.rest).value = _ at h
  change _ = (declared inClass first marks part more (nameParts after.rest).rest).rest ∧
    _ = (declared inClass first marks part more (nameParts after.rest).rest).value
  generalize nameParts after.rest = r at h
  obtain ⟨parts, rest, hle⟩ := r
  subst h
  exact ⟨rfl, rfl⟩

theorem declaration_of_call (inClass : Bool) (hnil : (nameParts (afterName (first :: ts))).value = [])
    (hh : (nameParts (first :: ts)).value = part :: more)
    (ha : afterName (first :: ts) = opening :: us) (hp : opening.spelled "(") :
    (declaration inClass first ts).rest = (called part more opening us).rest ∧
      (declaration inClass first ts).value = (called part more opening us).value := by
  unfold declaration
  extract_lets head marks after statement
  change (nameParts after.rest).value = _ at hnil
  change after.value = _ at hh
  change after.rest = _ at ha
  split
  · next heq =>
      rw [heq] at hnil
      cases hnil
  · clear_value after
    obtain ⟨value, rest, hle⟩ := after
    subst hh ha
    dsimp only
    rw [if_pos hp]
    exact ⟨rfl, rfl⟩

theorem declaration_of_plain (inClass : Bool) (hnil : (nameParts (afterName (first :: ts))).value = [])
    (h : (nameParts (first :: ts)).value = [] ∨ at? "(" (afterName (first :: ts)) = false) :
    (declaration inClass first ts).rest = (plainEnd first ts).rest ∧
      (declaration inClass first ts).value.opens = false := by
  unfold declaration
  extract_lets head marks after statement
  change (nameParts after.rest).value = _ at hnil
  change after.value = _ ∨ at? "(" after.rest = _ at h
  split
  · next heq =>
      rw [heq] at hnil
      cases hnil
  · clear_value after
    obtain ⟨value, rest, hle⟩ := after
    cases value with
    | nil => exact ⟨rfl, rfl⟩
    | cons part more =>
      cases rest with
      | nil => exact ⟨rfl, rfl⟩
      | cons opening rest =>
        have hp : opening.spelled "(" = false := by simpa [at?] using h
        dsimp only
        rw [hp, if_neg (by decide)]
        exact ⟨rfl, rfl⟩

theorem declaration_cases (inClass : Bool) (first : Token) (ts : List Token) :
    (∃ marks part more, (nameParts (afterName (first :: ts))).value = part :: more ∧
      (declaration inClass first ts).rest =
        (declared inClass first marks part more (nameParts (afterName (first :: ts))).rest).rest ∧
      (declaration inClass first ts).value =
        (declared inClass first marks part more (nameParts (afterName (first :: ts))).rest).value) ∨
    (∃ part more opening us, afterName (first :: ts) = opening :: us ∧ opening.spelled "(" ∧
      (declaration inClass first ts).rest = (called part more opening us).rest ∧
      (declaration inClass first ts).value = (called part more opening us).value) ∨
    ((declaration inClass first ts).rest = (plainEnd first ts).rest ∧
      (declaration inClass first ts).value.opens = false) := by
  by_cases hnil : (nameParts (afterName (first :: ts))).value = []
  · refine .inr ?_
    by_cases hh : (nameParts (first :: ts)).value = []
    · exact .inr (declaration_of_plain inClass hnil (.inl hh))
    cases hp : at? "(" (afterName (first :: ts)) with
    | false => exact .inr (declaration_of_plain inClass hnil (.inr hp))
    | true =>
      cases ha : afterName (first :: ts) with
      | nil =>
        rw [ha] at hp
        cases hp
      | cons opening us =>
        rw [ha] at hp
        obtain ⟨part, more, hpa⟩ := exists_cons_of_ne_nil hh
        exact .inl ⟨part, more, opening, us, rfl, hp,
          declaration_of_call inClass hnil hpa ha hp⟩
  · obtain ⟨part, more, hpa⟩ := exists_cons_of_ne_nil hnil
    obtain ⟨marks, heq⟩ := declaration_of_names inClass hpa
    exact .inl ⟨marks, part, more, hpa, heq⟩

theorem afterName_meets (h : s.Meets ts ts') : s.Meets (afterName ts) (afterName ts') :=
  (nameParts_meets h).dropWhile fun _ _ hu _ => hu.spelledIn ["*", "&"]

/-- The part has been passed, and a complete declaration ends behind it. -/
def Overruns (s : Seam) (rest : List Token) (d : Declaration) : Prop :=
  rest <:+ s.after ∧ ∀ n, d = .whole n → s.stop < n.stop

theorem plain_agree (h : s.Mirror (first :: ts) (first' :: ts')) (inClass inClass' : Bool)
    (hr : (declaration inClass first ts).rest = (plainEnd first ts).rest ∧
      (declaration inClass first ts).value.opens = false)
    (hr' : (declaration inClass' first' ts').rest = (plainEnd first' ts').rest ∧
      (declaration inClass' first' ts').value.opens = false) :
    s.Agree SameEnd (declaration inClass first ts) (declaration inClass' first' ts') := by
  refine Seam.Meets.agree ?_ (hr.2.trans hr'.2.symm)
  rw [hr.1, hr'.1]
  exact plainEnd_meets (Seam.Meets.tail h) first first'

theorem declaration_agree_of_mirror (h : s.Mirror (first :: ts) (first' :: ts'))
    (ha : s.Mirror (afterName (first :: ts)) (afterName (first' :: ts'))) (inClass inClass' : Bool) :
    s.Agree SameEnd (declaration inClass first ts) (declaration inClass' first' ts') := by
  obtain ⟨_, _, _, _, heq, heq', hf, -, -⟩ := h.uncons
  cases heq
  cases heq'
  obtain ⟨o, o', us, us', ho, ho', hm, -, hus⟩ := ha.uncons
  have hn := nameParts_meets (.inl ha)
  by_cases hnil : (nameParts (afterName (first :: ts))).value = []
  · have hnil' : (nameParts (afterName (first' :: ts'))).value = [] := by
      rw [ho', nameParts_eq_nil_iff, ← hm.kind]
      rwa [ho, nameParts_eq_nil_iff] at hnil
    by_cases hh : (nameParts (first :: ts)).value = []
    · have hh' : (nameParts (first' :: ts')).value = [] := by
        rw [nameParts_eq_nil_iff, ← hf.kind]
        rwa [nameParts_eq_nil_iff] at hh
      exact plain_agree h inClass inClass' (declaration_of_plain inClass hnil (.inl hh))
        (declaration_of_plain inClass' hnil' (.inl hh'))
    have hh' : (nameParts (first' :: ts')).value ≠ [] := by
      rw [ne_eq, nameParts_eq_nil_iff, ← hf.kind]
      rwa [nameParts_eq_nil_iff] at hh
    cases hp : at? "(" (afterName (first :: ts)) with
    | false =>
      have hp' := (ha.at? "(").symm.trans hp
      exact plain_agree h inClass inClass' (declaration_of_plain inClass hnil (.inr hp))
        (declaration_of_plain inClass' hnil' (.inr hp'))
    | true =>
      have hp' := (ha.at? "(").symm.trans hp
      rw [ho] at hp
      rw [ho'] at hp'
      obtain ⟨part, more, hpa⟩ := exists_cons_of_ne_nil hh
      obtain ⟨part', more', hpa'⟩ := exists_cons_of_ne_nil hh'
      exact (called_agree hus).of_eq (declaration_of_call inClass hnil hpa ho hp)
        (declaration_of_call inClass' hnil' hpa' ho' hp')
  · have hnil' : (nameParts (afterName (first' :: ts'))).value ≠ [] := by
      rw [ho', ne_eq, nameParts_eq_nil_iff, ← hm.kind]
      rwa [ho, nameParts_eq_nil_iff] at hnil
    obtain ⟨part, more, hpa⟩ := exists_cons_of_ne_nil hnil
    obtain ⟨part', more', hpa'⟩ := exists_cons_of_ne_nil hnil'
    obtain ⟨marks, heq⟩ := declaration_of_names inClass hpa
    obtain ⟨marks', heq'⟩ := declaration_of_names inClass' hpa'
    exact (declared_agree hn inClass inClass').of_eq heq heq'

theorem nameParts_of_spent (h : ts <:+ [s.finish]) : (nameParts ts).value = [] := by
  rcases suffix_cons_iff.1 h with rfl | h
  · rw [nameParts_eq_nil_iff, s.finish_kind]
    decide
  · rw [suffix_nil.1 h, nameParts.eq_def]
    rfl

theorem at?_of_spent {x : String} (h : ts <:+ [s.finish]) (hx : [] ≠ ofString x) :
    at? x ts = false := by
  rcases suffix_cons_iff.1 h with rfl | h
  · rw [at?, head?_cons, Option.any_some, spelled, s.finish_text]
    exact beq_eq_false_iff_ne.2 hx
  · rw [suffix_nil.1 h]
    rfl

/-- A declaration whose first name has passed the part goes on behind it, or is a statement. -/
theorem declaration_cases_of_suffix (ha : afterName (first :: ts) <:+ s.after) (inClass : Bool) :
    ((declaration inClass first ts).rest = (plainEnd first ts).rest ∧
      (declaration inClass first ts).value.opens = false) ∨
    Overruns s (declaration inClass first ts).rest (declaration inClass first ts).value := by
  have hs := (suffix_cons s.last s.after).trans s.tokens
  rcases declaration_cases inClass first ts with
    ⟨marks, part, more, hpa, heq⟩ | ⟨part, more, opening, us, hco, hp, heq⟩ | hpl
  · obtain ⟨hne, hc⟩ := nameParts_laid (ha.trans hs)
    rw [hpa] at hne hc
    rw [heq.1, heq.2]
    refine .inr ⟨((declared_suffix inClass _).trans (brackets_suffix _)).trans
      ((nameParts_suffix _).trans ha), fun n hn => ?_⟩
    exact (declared_made inClass (ha.trans hs) hc hne).lt_stop (s.ahead.suffix ha) hn
  · rw [hco] at ha
    have har := parenthesised_laid (by decide : ("argument_list", "argument") ∈ _)
      (ha.trans hs) hp
    rw [heq.1, heq.2, (called_eq us).1]
    refine .inr ⟨((upToBlock_suffix _).trans (parenthesised_suffix ..)).trans
      ((suffix_cons opening us).trans ha), fun n hn => ?_⟩
    unfold called at hn
    dsimp only at hn
    split at hn
    · cases hn
    · cases hn
      exact har.lt_stop (s.ahead.suffix ha)
  · exact .inl hpl

theorem declaration_agree (h : s.Mirror (first :: ts) (first' :: ts')) (inClass inClass' : Bool) :
    s.Agree SameEnd (declaration inClass first ts) (declaration inClass' first' ts') ∨
      Overruns s (declaration inClass first ts).rest (declaration inClass first ts).value := by
  rcases afterName_meets (.inl h) with ha | ha
  · exact .inl (declaration_agree_of_mirror h ha inClass inClass')
  · refine (declaration_cases_of_suffix ha.1 inClass).imp_left fun hp => ?_
    exact plain_agree h inClass inClass' hp (declaration_of_plain inClass'
      (nameParts_of_spent ha.2) (.inr (at?_of_spent ha.2 (by decide))))

end Declaration

end Grammar

end Excerpt
