import Excerpt.Grammar.Item
import Excerpt.Proofs.Except

/-!
# How items are read

The ways in which an item is read, and a sequence of items, each with what it reads
first and what it leaves. Every induction over the items of a source goes through
these cases.
-/

namespace Excerpt.Grammar

open List Outcome

variable {g : Grammar} {inBlock inClass : Bool} {t : Token} {ts rest : List Token}

/-- A template, an item without a block, or an item with one: its node and the tokens left. -/
inductive ItemRead (g : Grammar) (inClass : Bool) (t : Token) (ts : List Token) :
    Option Node → List Token → Prop where
  | template {inner : Reading (Option Node) (skipAngled ts)} (ht : g.isTemplate t)
      (hinner : item g false (skipAngled ts) = .ok inner) :
      ItemRead g inClass t ts (some (templateNode t inner.value)) inner.rest
  | whole {start : Reading Lead (t :: ts)} {node : Option Node} (ht : g.isTemplate t = false)
      (hstart : lead g inClass t ts = .ok start) (hnode : start.value = .whole node) :
      ItemRead g inClass t ts node start.rest
  | block {start : Reading Lead (t :: ts)} {owner : BlockOwner} {opening : Token}
      {rest : List Token} {inner : Reading (List Node) rest} (ht : g.isTemplate t = false)
      (hstart : lead g inClass t ts = .ok start) (howner : start.value = .opens owner)
      (hrest : start.rest = opening :: rest)
      (hinner : items g true owner.isRecord rest = .ok inner) :
      ItemRead g inClass t ts
        (some (owner.close (blockNode owner.blockKind opening inner.value inner.rest).value))
        (afterBlock owner (blockNode owner.blockKind opening inner.value inner.rest).rest)

theorem itemRead_of_ok {r : Reading (Option Node) (t :: ts)}
    (h : item g inClass (t :: ts) = .ok r) : ItemRead g inClass t ts r.value r.rest := by
  unfold item at h
  split at h
  · next ht =>
      obtain ⟨inner, hin, h⟩ := Outcome.bind_eq_ok.1 h
      cases h
      exact .template ht hin
  · next ht =>
      rw [Bool.not_eq_true] at ht
      obtain ⟨start, hs, h⟩ := Outcome.bind_eq_ok.1 h
      split at h
      · cases h
        exact .whole ht hs rfl
      · cases h
      · obtain ⟨inner, hin, h⟩ := Outcome.bind_eq_ok.1 h
        cases h
        exact .block ht hs rfl rfl hin

theorem ItemRead.exists_ok {node : Option Node} (h : ItemRead g inClass t ts node rest) :
    ∃ r, item g inClass (t :: ts) = .ok r ∧ r.value = node ∧ r.rest = rest := by
  unfold item
  cases h with
  | template ht hin =>
    rw [if_pos ht, hin]
    exact ⟨_, rfl, rfl, rfl⟩
  | @whole start node ht hs hn =>
    obtain ⟨value, rest, hle⟩ := start
    cases hn
    rw [if_neg (Bool.not_eq_true _ ▸ ht), hs]
    exact ⟨_, rfl, rfl, rfl⟩
  | @block start owner opening rest inner ht hs ho hr hin =>
    obtain ⟨value, rest, hle⟩ := start
    cases ho
    cases hr
    rw [if_neg (Bool.not_eq_true _ ▸ ht), hs, ok_bind]
    dsimp only
    rw [hin]
    exact ⟨_, rfl, rfl, rfl⟩

/-- The tokens after an item that left `rest`: one token is passed over if none was taken. -/
def onward (rest ts : List Token) : List Token :=
  if rest.length ≤ ts.length then rest else ts

theorem onward_suffix (h : rest <:+ t :: ts) :
    onward rest ts <:+ rest ∧ (onward rest ts).length < (t :: ts).length := by
  unfold onward
  split
  · next hle => exact ⟨suffix_rfl, Nat.lt_succ_of_le hle⟩
  · next hlt =>
      rcases suffix_cons_iff.1 h with rfl | hr
      · exact ⟨suffix_cons t ts, Nat.lt_succ_self _⟩
      · exact absurd hr.length_le hlt

/-- Whether a sequence of items ends before the token. -/
def endsItems (inBlock : Bool) (t : Token) : Bool :=
  t.isFinish || (inBlock && t.spelled "\x7d")

/-- A sequence of items that ends at once, or an item and a sequence: the nodes and the tokens left. -/
inductive ItemsRead (g : Grammar) (inBlock inClass : Bool) (t : Token) (ts : List Token) :
    List Node → List Token → Prop where
  | done (hend : endsItems inBlock t) : ItemsRead g inBlock inClass t ts [] (t :: ts)
  | more {found : Reading (Option Node) (t :: ts)}
      {others : Reading (List Node) (onward found.rest ts)} (hend : endsItems inBlock t = false)
      (hfound : item g inClass (t :: ts) = .ok found)
      (hothers : items g inBlock inClass (onward found.rest ts) = .ok others) :
      ItemsRead g inBlock inClass t ts (found.value.toList ++ others.value) others.rest

theorem itemsRead_of_ok {r : Reading (List Node) (t :: ts)} (h : items g inBlock inClass (t :: ts) = .ok r) :
    ItemsRead g inBlock inClass t ts r.value r.rest := by
  unfold items at h
  split at h
  · next hend =>
      cases h
      exact .done hend
  · next hend =>
      obtain ⟨found, hf, h⟩ := Outcome.bind_eq_ok.1 h
      obtain ⟨others, ho, h⟩ := Outcome.bind_eq_ok.1 h
      cases h
      exact .more (Bool.not_eq_true _ ▸ hend) hf ho

theorem ItemsRead.exists_ok {nodes : List Node} (h : ItemsRead g inBlock inClass t ts nodes rest) :
    ∃ r, items g inBlock inClass (t :: ts) = .ok r ∧ r.value = nodes ∧ r.rest = rest := by
  unfold items
  cases h with
  | done hend =>
    unfold endsItems at hend
    rw [if_pos hend]
    exact ⟨_, rfl, rfl, rfl⟩
  | more hend hf ho =>
    rw [if_neg (Bool.not_eq_true _ ▸ hend), hf, ok_bind]
    change ∃ r, (items g inBlock inClass (onward _ ts) >>= _) = .ok r ∧ _
    rw [ho]
    exact ⟨_, rfl, rfl, rfl⟩

end Excerpt.Grammar
