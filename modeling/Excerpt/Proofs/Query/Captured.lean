import Excerpt.Proofs.Grammar.Descendant
import Excerpt.Proofs.Table

/-!
# What a query captures

A pattern is tried at a node, at children of the node, at children of these, and
so on. So a property that passes from a node to its children passes from the node
at which a pattern is tried to all nodes that are captured, also where an attempt
fails and leaves captures behind. In particular, what a search captures is
found in the tree that was searched (`mem_preorder_of_search`).
-/

namespace Excerpt

open List Outcome

variable {P : Node → Prop} {src : Bytes} {n : Node} {caps caps' : Captures} {found : Bool}

/-- The property passes from a node to its children. -/
def Node.Hereditary (P : Node → Prop) : Prop :=
  ∀ n, P n → ∀ c ∈ n.children, P c

namespace Captures

def All (P : Node → Prop) (caps : Captures) : Prop :=
  ∀ e ∈ caps, ∀ n ∈ e.2, P n

theorem all_nil : All P [] := by
  intro e he
  cases he

theorem All.get? {name : String} {ns : List Node} (h : caps.All P)
    (hget : Table.get? caps name = some ns) : ∀ n ∈ ns, P n :=
  h _ (Table.mem_of_get?_eq_some hget)

theorem All.add (h : caps.All P) (hn : P n) (name : String) : (caps.add name n).All P := by
  intro e he m hm
  rcases Table.mem_put he with rfl | he
  · rcases mem_append.1 hm with hm | hm
    · cases hget : Table.get? caps name with
      | none =>
        rw [hget] at hm
        cases hm
      | some ns =>
        rw [hget] at hm
        exact h.get? hget m hm
    · rw [mem_singleton.1 hm]
      exact hn
  · exact h e he m hm

theorem All.addFor (h : caps.All P) (hn : P n) (s : Suffix) : (caps.addFor s n).All P := by
  obtain ⟨optional, capture⟩ := s
  cases capture with
  | none => exact h
  | some name => exact h.add hn name

theorem All.rollback (h : caps'.All P) : (caps.rollback caps').All P :=
  fun e he => h e (mem_of_mem_take he)

end Captures

/-- The captures that an attempt leaves, if it ends, have the property. -/
def Attempt.Keeps (P : Node → Prop) (r : Attempt) : Prop :=
  ∀ found caps, r = .ok (found, caps) → caps.All P

namespace Attempt

theorem keeps_ok (h : caps.All P) : Keeps P (.ok (found, caps)) := by
  rintro _ _ ⟨⟩
  exact h

/-- An attempt that goes on with what another one leaves. -/
theorem Keeps.bind {r : Attempt} {f : Bool × Captures → Attempt} (h : Keeps P r)
    (hf : ∀ found caps, caps.All P → Keeps P (f (found, caps))) : Keeps P (r >>= f) := by
  intro found caps hb
  obtain ⟨⟨found', caps'⟩, hr, hb⟩ := Outcome.bind_eq_ok.1 hb
  exact hf found' caps' (h _ _ hr) found caps hb

theorem keeps_test {test : Except QueryError Bool} {yes no : Attempt} (hyes : Keeps P yes)
    (hno : Keeps P no) : Keeps P (test >>= fun b => if b then yes else no) := by
  intro found caps hb
  obtain ⟨b, -, hb⟩ := Outcome.bind_eq_ok.1 hb
  cases b with
  | true => exact hyes _ _ hb
  | false => exact hno _ _ hb

end Attempt

namespace Pattern

open Attempt

theorem firstChild_all {attempt : Node → Captures → Attempt} {used : List Nat} {i : Nat}
    {place : Option Nat} {ns : List Node}
    (ha : ∀ n ∈ ns, ∀ caps : Captures, caps.All P → Keeps P (attempt n caps))
    (hc : caps.All P) (h : firstChild attempt used caps i ns = .ok (place, caps')) : caps'.All P := by
  induction ns generalizing i caps with
  | nil =>
    cases h
    exact hc
  | cons n ns ih =>
    obtain ⟨hn, hns⟩ := forall_mem_cons.1 ha
    unfold firstChild at h
    split at h
    · exact ih hns hc h
    · obtain ⟨⟨found, caps''⟩, htry, h⟩ := Outcome.bind_eq_ok.1 h
      have hc'' := hn caps hc found caps'' htry
      cases found with
      | true =>
        cases h
        exact hc''
      | false => exact ih hns hc''.rollback h

mutual

theorem tryAt_keeps (hP : Node.Hereditary P) :
    ∀ (p : Pattern) (n : Node) (caps : Captures), P n → caps.All P → Keeps P (p.tryAt src n caps)
  | .node kind fields children tests suffix, n, caps, hn, hc => by
      unfold tryAt
      split
      · exact keeps_ok hc
      · refine (tryFields_keeps hP fields n caps hn hc).bind fun found caps hc => ?_
        dsimp only
        split
        · exact keeps_ok hc
        · refine (tryChildren_keeps hP children n [] caps hn hc).bind fun found caps hc => ?_
          split
          · exact keeps_ok hc
          · exact keeps_test (keeps_ok (hc.addFor hn suffix)) (keeps_ok hc)
  | .group inner tests suffix, n, caps, hn, hc => by
      refine (tryAt_keeps hP inner n caps hn hc).bind fun found caps hc => ?_
      dsimp only
      split
      · exact keeps_ok hc
      · exact keeps_test (keeps_ok (hc.addFor hn suffix)) (keeps_ok hc)
  | .choice alternatives _, n, caps, hn, hc => by
      exact tryAlternatives_keeps hP alternatives n caps hn hc
  | .anything suffix, n, caps, hn, hc => by
      exact keeps_ok (hc.addFor hn suffix)

theorem tryFields_keeps (hP : Node.Hereditary P) :
    ∀ (fields : List (String × Pattern)) (n : Node) (caps : Captures),
      P n → caps.All P → Keeps P (tryFields src fields n caps)
  | [], _, _, _, hca => by
      exact keeps_ok hca
  | (name, p) :: fields, n, caps, hn, hca => by
      unfold tryFields
      split
      · split
        · exact tryFields_keeps hP fields n caps hn hca
        · exact keeps_ok hca
      · next child hch =>
          obtain ⟨i, -, hi⟩ := Option.bind_eq_some_iff.1 hch
          have hc := hP n hn child (mem_of_getElem? hi)
          refine (tryAt_keeps hP p child caps hc hca).bind fun found caps hca => ?_
          dsimp only
          split
          · exact tryFields_keeps hP fields n caps hn hca
          · exact keeps_ok hca

theorem tryChildren_keeps (hP : Node.Hereditary P) :
    ∀ (children : List Pattern) (n : Node) (used : List Nat) (caps : Captures),
      P n → caps.All P → Keeps P (tryChildren src children n used caps)
  | [], _, _, _, _, hca => by
      exact keeps_ok hca
  | p :: ps, n, used, caps, hn, hca => by
      intro found caps' h
      obtain ⟨⟨place, caps''⟩, hf, h⟩ := Outcome.bind_eq_ok.1 h
      have hc'' := firstChild_all
        (fun c hc caps hca => tryAt_keeps hP p c caps (hP n hn c hc) hca) hca hf
      cases place with
      | some i => exact tryChildren_keeps hP ps n (i :: used) caps'' hn hc'' found caps' h
      | none =>
        dsimp only at h
        split at h
        · exact tryChildren_keeps hP ps n used caps'' hn hc'' found caps' h
        · exact keeps_ok hc'' found caps' h

theorem tryAlternatives_keeps (hP : Node.Hereditary P) :
    ∀ (alternatives : List Pattern) (n : Node) (caps : Captures),
      P n → caps.All P → Keeps P (tryAlternatives src alternatives n caps)
  | [], _, _, _, hc => by
      exact keeps_ok hc
  | p :: ps, n, caps, hn, hc => by
      refine (tryAt_keeps hP p n caps hn hc).bind fun found caps' hc' => ?_
      dsimp only
      split
      · exact keeps_ok hc'
      · exact tryAlternatives_keeps hP ps n _ hn hc'.rollback

end

end Pattern

namespace Query

variable {root : Node} {ns : List Node} {ms : List Match} {m : Match}

theorem matchesAt_all (hP : Node.Hereditary P) (hn : P n) {i : Nat} {ps : List Pattern}
    (h : matchesAt src n i ps = .ok ms) : ∀ m ∈ ms, m.captures.All P := by
  induction ps generalizing i ms with
  | nil =>
    cases h
    simp
  | cons p ps ih =>
    unfold matchesAt at h
    split at h
    · obtain ⟨⟨found, caps⟩, htry, h⟩ := Outcome.bind_eq_ok.1 h
      obtain ⟨more, hm, h⟩ := Outcome.bind_eq_ok.1 h
      have hc := Pattern.tryAt_keeps hP p n [] hn Captures.all_nil found caps htry
      cases h
      split
      · exact forall_mem_cons.2 ⟨hc, ih hm⟩
      · exact ih hm
    · exact ih h

theorem matchesAmong_all (hP : Node.Hereditary P) {q : Query} (hns : ∀ n ∈ ns, P n)
    (h : q.matchesAmong src ns = .ok ms) : ∀ m ∈ ms, m.captures.All P := by
  induction ns generalizing ms with
  | nil =>
    cases h
    simp
  | cons n ns ih =>
    obtain ⟨hn, hns⟩ := forall_mem_cons.1 hns
    obtain ⟨here, hh, h⟩ := Outcome.bind_eq_ok.1 h
    obtain ⟨more, hm, h⟩ := Outcome.bind_eq_ok.1 h
    cases h
    exact forall_mem_append.2 ⟨matchesAt_all hP hn hh, ih hns hm⟩

theorem exists_matchesAmong_of_search {text : String} (h : search text src root = .ok ms) :
    ∃ (q : Query) (ns : List Node) (found : List Match), (∀ n ∈ ns, n ∈ root.preorder) ∧
      q.matchesAmong src ns = .ok found ∧ ms = byStart found := by
  have hw : ∀ n ∈ root.walk, n ∈ root.preorder := fun n hn =>
    (Node.walk_perm_preorder root).mem_iff.1 hn
  obtain ⟨q, -, h⟩ := Outcome.bind_eq_ok.1 h
  unfold matchesFrom at h
  split at h
  · next kinds hk =>
      obtain ⟨found, hf, rfl⟩ := map_eq_ok.1 h
      refine ⟨q, _, found, fun n hn => ?_, hf, rfl⟩
      obtain ⟨kind, -, hn⟩ := mem_flatMap.1 hn
      exact hw n (mem_filter.1 hn).1
  · obtain ⟨found, hf, rfl⟩ := map_eq_ok.1 h
    exact ⟨q, _, found, hw, hf, rfl⟩

theorem mem_preorder_of_search {text name : String} (h : search text src root = .ok ms)
    (hm : m ∈ ms) (hn : n ∈ m.nodes name) : n ∈ root.preorder := by
  obtain ⟨q, ns, found, hns, hf, rfl⟩ := exists_matchesAmong_of_search h
  have hall := matchesAmong_all (fun _ hn _ hc => Node.mem_preorder_child hn hc) hns hf m
    (mem_mergeSort.1 hm)
  unfold Match.nodes at hn
  cases hget : m.captures.get? name with
  | none =>
    rw [hget] at hn
    cases hn
  | some nodes =>
    rw [hget] at hn
    exact hall.get? hget n hn

end Query

end Excerpt
