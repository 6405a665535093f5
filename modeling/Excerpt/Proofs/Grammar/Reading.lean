import Excerpt.Grammar.Item
import Mathlib.Data.List.Infix
import Mathlib.Data.List.TakeWhile

/-!
# What a reading leaves

A reading takes tokens off the front of its list and leaves the others as they
are, whatever the tokens are.
-/

namespace Excerpt

open List

namespace Tokens

theorem skipTo_suffix (p : Token → Bool) (ts : List Token) : skipTo p ts <:+ ts :=
  dropWhile_suffix _

/-- Skipping stops at the end token. -/
theorem skipTo_ne_nil {t : Token} {ts : List Token} (ht : t ∈ ts) (hk : t.kind = .finish)
    (p : Token → Bool) : skipTo p ts ≠ [] := by
  intro hnil
  have hall := dropWhile_eq_nil_iff.1 hnil t ht
  simp [Token.isFinish, hk] at hall

theorem skip_suffix (s : String) (ts : List Token) : skip s ts <:+ ts := by
  unfold skip
  split
  · exact tail_suffix ts
  · exact suffix_rfl

end Tokens

namespace Grammar

theorem nameParts_suffix (ts : List Token) : (nameParts ts).rest <:+ ts := by
  fun_induction nameParts ts with
  | case1 | case2 => exact suffix_rfl
  | case3 t ts => exact (dropWhile_suffix _).trans (suffix_cons t ts)
  | case4 t | case9 t => exact suffix_cons t _
  | case5 t _ _ a | case7 t _ _ a => exact suffix_append [t, a] _
  | case6 t _ _ a _ s ts _ _ _ ih => exact ih.trans (suffix_append [t, a, s] ts)
  | case8 t _ _ _ a ts _ _ _ ih => exact ih.trans (suffix_append [t, a] ts)

theorem listItems_suffix (kind : String) (item : Option (Token × Token)) (depth : Nat)
    (ts : List Token) : (listItems kind item depth ts).rest <:+ ts := by
  fun_induction listItems kind item depth ts with
  | case1 | case2 => exact suffix_rfl
  | case3 item depth t ts hend hc more ih => exact ih.trans (suffix_cons t ts)
  | case4 item depth t ts hend hc inner ih => exact ih.trans (suffix_cons t ts)

theorem parenthesised_rest (kind itemKind : String) (opening : Token) (ts : List Token) :
    (parenthesised kind itemKind opening ts).rest = Tokens.skip ")" (listItems itemKind none 0 ts).rest := by
  unfold parenthesised
  generalize listItems itemKind none 0 ts = items
  obtain ⟨nodes, rest, hle⟩ := items
  cases rest with
  | nil => rfl
  | cons t rest =>
    dsimp only
    split
    · next ht => simp [Tokens.skip, Tokens.at?, ht]
    · next ht => simp [Tokens.skip, Tokens.at?, ht]

theorem parenthesised_suffix (kind itemKind : String) (opening : Token) (ts : List Token) :
    (parenthesised kind itemKind opening ts).rest <:+ ts := by
  rw [parenthesised_rest]
  exact (Tokens.skip_suffix ")" _).trans (listItems_suffix itemKind none 0 ts)

theorem controlEnd_suffix (depth : Nat) (last : Token) (ts : List Token) :
    (controlEnd depth last ts).rest <:+ ts := by
  fun_induction controlEnd depth last ts with
  | case1 | case2 => exact suffix_rfl
  | case3 depth last t ts => exact suffix_cons t ts
  | case4 depth last t ts hend inner hc ih => exact ih.trans (suffix_cons t ts)

theorem plainEnd_suffix (last : Token) (ts : List Token) : (plainEnd last ts).rest <:+ ts := by
  fun_induction plainEnd last ts with
  | case1 | case2 => exact suffix_rfl
  | case3 last t ts => exact suffix_cons t ts
  | case4 last t ts hend hc ih => exact ih.trans (suffix_cons t ts)

theorem afterInitialiser_suffix (depth : Nat) (ts : List Token) :
    (afterInitialiser depth ts).rest <:+ ts := by
  fun_induction afterInitialiser depth ts with
  | case1 | case2 => exact suffix_rfl
  | case3 depth t ts => exact suffix_cons t ts
  | case4 depth t ts hend hc inner ih => exact ih.trans (suffix_cons t ts)

theorem afterVariable_suffix (ts : List Token) : (afterVariable ts).rest <:+ ts := by
  unfold afterVariable
  split
  · exact suffix_rfl
  · next t ts =>
      split
      · exact ((Tokens.skip_suffix ";" _).trans (afterInitialiser_suffix 0 ts)).trans
          (suffix_cons t ts)
      · exact Tokens.skip_suffix ";" _

theorem brackets_suffix (ts : List Token) : (brackets ts).rest <:+ ts := by
  unfold brackets
  split
  · exact suffix_rfl
  · next t ts =>
      split
      · exact ((Tokens.skip_suffix "]" _).trans (Tokens.skipTo_suffix _ ts)).trans
          (suffix_cons t ts)
      · exact suffix_rfl

theorem namespaceName_suffix (first : Token) (last : Option Token) (ts : List Token) :
    (namespaceName first last ts).rest <:+ ts := by
  fun_induction namespaceName first last ts with
  | case1 last a b ts hc ih => exact ih.trans (suffix_append [a, b] ts)
  | case2 | case3 => exact suffix_rfl

theorem recordName_suffix (ts : List Token) : (recordName ts).rest <:+ ts := by
  unfold recordName
  split
  · exact suffix_rfl
  · split
    · exact suffix_cons _ _
    · exact suffix_rfl

theorem skipEntry_suffix (ts : List Token) : (skipEntry ts).rest <:+ ts := by
  fun_induction skipEntry ts with
  | case1 | case2 => exact suffix_rfl
  | case3 t ts => exact suffix_cons t ts
  | case4 t ts hend hc ih => exact ih.trans (suffix_cons t ts)

theorem skipAngled_suffix (ts : List Token) : skipAngled ts <:+ ts := by
  unfold skipAngled
  split
  · exact tail_suffix ts
  · exact suffix_rfl

theorem afterBlock_suffix (owner : BlockOwner) (ts : List Token) : afterBlock owner ts <:+ ts := by
  unfold afterBlock
  split
  · exact Tokens.skip_suffix ";" ts
  · exact suffix_rfl

end Grammar

end Excerpt
