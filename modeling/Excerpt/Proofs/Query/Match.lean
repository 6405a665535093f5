import Excerpt.Query.Match
import Mathlib.Data.List.Pairwise
import Mathlib.Data.List.Perm.Basic
import Mathlib.Data.List.Sort

/-!
# What a search finds

A search tries the nodes of a tree kind by kind and from right to left, and sorts
its matches by the places where they start. If it finds at most one match at a
node, and no two matches start at the same place, it finds them in the order in
which the nodes stand in the source (`matchesFrom_eq`).
-/

namespace Excerpt

open List

section Sorting

variable {α : Type} (key : α → Nat)

theorem key_trans (a b c : α) (hab : decide (key a ≤ key b))
    (hbc : decide (key b ≤ key c)) : decide (key a ≤ key c) :=
  decide_eq_true (Nat.le_trans (of_decide_eq_true hab) (of_decide_eq_true hbc))

theorem key_total (a b : α) : (decide (key a ≤ key b) || decide (key b ≤ key a)) := by
  rw [Bool.or_eq_true, decide_eq_true_eq, decide_eq_true_eq]
  exact Nat.le_total (key a) (key b)

theorem pairwise_mergeSort_key (l : List α) :
    (l.mergeSort fun a b => key a ≤ key b).Pairwise (key · ≤ key ·) :=
  (pairwise_mergeSort (key_trans key) (key_total key) l).imp of_decide_eq_true

theorem orderedInsert_append {a : α} {before after : List α} (hbe : ∀ b ∈ before, ¬ key a ≤ key b)
    (ha : ∀ b ∈ after, key a ≤ key b) :
    (before ++ after).orderedInsert (fun a b => key a ≤ key b) a = before ++ a :: after := by
  have ht : ∀ b ∈ before, decide (¬ key a ≤ key b) := fun b hb => decide_eq_true (hbe b hb)
  rw [orderedInsert_eq_take_drop, takeWhile_append_of_pos ht, dropWhile_append_of_pos ht]
  cases after with
  | nil => simp
  | cons b after => simp [ha b mem_cons_self]

/-- An entry is sorted in between those with a lesser key and the others. -/
theorem exists_mergeSort_cons (a : α) (l : List α) : ∃ before after,
    (∀ b ∈ before, ¬ key a ≤ key b) ∧ (∀ b ∈ after, key a ≤ key b) ∧
    (l.mergeSort fun a b => key a ≤ key b) = before ++ after ∧
      ((a :: l).mergeSort fun a b => key a ≤ key b) = before ++ a :: after := by
  obtain ⟨before, after, hc, hl, hb⟩ := mergeSort_cons (key_trans key) (key_total key) a l
  have hs := pairwise_mergeSort_key key (a :: l)
  rw [hc] at hs
  have ha := (pairwise_cons.1 (pairwise_append.1 hs).2.1).1
  exact ⟨before, after, by simpa using hb, ha, hl, hc⟩

/-- Sorting by a key is inserting one by one, since both keep the order of equal keys. -/
theorem mergeSort_eq_insertionSort (l : List α) :
    l.mergeSort (fun a b => key a ≤ key b) = l.insertionSort fun a b => key a ≤ key b := by
  induction l with
  | nil => rw [mergeSort_nil, insertionSort_nil]
  | cons a l ih =>
    obtain ⟨before, after, hb, ha, hl, hc⟩ := exists_mergeSort_cons key a l
    rw [hc, insertionSort_cons, ← ih, hl, orderedInsert_append key hb ha]

/-- Sorting by a key keeps the order of equal keys, so entries may be left out before or after it. -/
theorem filter_mergeSort (p : α → Bool) (l : List α) :
    (l.mergeSort fun a b => key a ≤ key b).filter p = (l.filter p).mergeSort fun a b => key a ≤ key b := by
  induction l with
  | nil => rw [filter_nil, mergeSort_nil, filter_nil]
  | cons a l ih =>
    obtain ⟨before, after, hbe, haf, hl, hc⟩ := exists_mergeSort_cons key a l
    rw [hl, filter_append] at ih
    rw [hc, filter_append]
    by_cases ha : p a
    · rw [filter_cons_of_pos ha, filter_cons_of_pos ha, mergeSort_eq_insertionSort, insertionSort_cons,
        ← mergeSort_eq_insertionSort, ← ih]
      refine (orderedInsert_append key ?_ ?_).symm
      · exact fun b hb => hbe b (mem_of_mem_filter hb)
      · exact fun b hb => haf b (mem_of_mem_filter hb)
    · rw [filter_cons_of_neg ha, filter_cons_of_neg ha, ih]

theorem map_mergeSort_key {β : Type} (f : β → α) (l : List β) :
    (l.mergeSort fun a b => key (f a) ≤ key (f b)).map f = (l.map f).mergeSort fun a b => key a ≤ key b :=
  map_mergeSort fun _ _ _ _ => rfl

end Sorting

namespace Node

mutual

/-- The two walks over a tree visit the same nodes. -/
theorem walk_perm_preorder : (n : Node) → n.walk.Perm n.preorder
  | ⟨_, _, children, _⟩ => by
      rw [walk, preorder]
      exact (walkAll_perm_preorderAll children).cons _

theorem walkAll_perm_preorderAll : (ns : List Node) → (walkAll ns).Perm (preorderAll ns)
  | [] => .refl _
  | n :: ns => by
      rw [walkAll, preorderAll]
      exact ((walkAll_perm_preorderAll ns).append (walk_perm_preorder n)).trans perm_append_comm

end

end Node

namespace Pattern

variable {src : Bytes} {n child : Node} {caps : Captures} {kind name : String} {p : Pattern}
  {fields : List (String × Pattern)} {s : Suffix} {tests : List Predicate}

attribute [local simp] tryAt tryFields tryChildren

theorem tryAt_leaf (src : Bytes) (kind : String) (s : Suffix) (n : Node) (caps : Captures) :
    (node kind [] [] [] s).tryAt src n caps =
      .ok (if n.kind = kind then (true, caps.addFor s n) else (false, caps)) := by
  rw [tryAt]
  by_cases h : n.kind = kind
  · simp [h, Predicate.allHold, bind, Except.bind, pure, Except.pure]
  · simp [h, pure, Except.pure]

theorem tryAt_of_kind_ne {children : List Pattern} (h : n.kind ≠ kind)
    (caps : Captures) : (node kind fields children tests s).tryAt src n caps = .ok (false, caps) := by
  simp [h, pure, Except.pure]

theorem tryFields_cons (h : n.field? name = some child) (caps : Captures) :
    tryFields src ((name, p) :: fields) n caps = (p.tryAt src child caps >>= fun r =>
        if r.1 then tryFields src fields n r.2 else .ok (false, r.2)) := by
  rw [tryFields, h]
  rfl

theorem tryAt_of_kind (h : n.kind = kind) (caps : Captures) :
    (node kind fields [] tests s).tryAt src n caps = (tryFields src fields n caps >>= fun r => if r.1 then do
          if ← Predicate.allHold src r.2 tests then return (true, r.2.addFor s n) else return (false, r.2)
        else .ok (false, r.2)) := by
  rw [tryAt, if_neg (by simp [h])]
  cases tryFields src fields n caps with
  | error e => rfl
  | ok r =>
    obtain ⟨found, caps⟩ := r
    cases found with
    | false => rfl
    | true =>
      simp [bind, Except.bind]

/-- A group without tests and without a name is what is inside. -/
theorem tryAt_group (inner : Pattern) (optional : Bool) (n : Node) (caps : Captures) :
    (group inner [] ⟨optional, none⟩).tryAt src n caps = inner.tryAt src n caps := by
  rw [tryAt]
  cases inner.tryAt src n caps with
  | error e => rfl
  | ok r =>
    obtain ⟨found, caps⟩ := r
    cases found with
    | false => rfl
    | true => rfl

end Pattern

namespace Query

variable {q : Query} {src : Bytes} {f : Node → Option Match} {ns : List Node} {root n : Node}
  {kinds : List String} {p : Pattern} {ms : List Match}

/-- The nodes of some kinds, kind by kind, are those whose kind is one of them. -/
theorem flatMap_filter_perm (hk : kinds.Nodup) (ns : List Node) :
    (kinds.flatMap fun kind => ns.filter (·.kind == kind)).Perm (ns.filter (kinds.contains ·.kind)) := by
  induction kinds with
  | nil => simp
  | cons kind kinds ih =>
    obtain ⟨hki, hk⟩ := nodup_cons.1 hk
    have hf : (ns.filter fun n => (kind :: kinds).contains n.kind).filter (·.kind == kind) =
        ns.filter (·.kind == kind) := by
      rw [List.filter_filter]
      refine filter_congr fun n _ => ?_
      by_cases h : n.kind = kind <;> simp [h]
    have ho : (ns.filter fun n => (kind :: kinds).contains n.kind).filter
        (fun n => !(n.kind == kind)) = ns.filter (kinds.contains ·.kind) := by
      rw [List.filter_filter]
      refine filter_congr fun n _ => ?_
      by_cases h : n.kind = kind <;> simp [h, hki]
    have hs := filter_append_perm (fun n : Node => n.kind == kind)
      (ns.filter fun n => (kind :: kinds).contains n.kind)
    rw [hf, ho] at hs
    exact ((ih hk).append_left _).trans hs

theorem candidates_perm (hk : kinds.Nodup) (root : Node) :
    (candidates kinds root).Perm (root.preorder.filter (kinds.contains ·.kind)) :=
  (flatMap_filter_perm hk root.walk).trans ((Node.walk_perm_preorder root).filter _)

theorem matchesAt_cons_of_not (h : p.mayAccept n.kind = false) (i : Nat)
    (ps : List Pattern) : matchesAt src n i (p :: ps) = matchesAt src n (i + 1) ps := by
  rw [matchesAt, h]
  rfl

theorem matchesAt_cons {found : Bool} {caps : Captures} {ps : List Pattern}
    {i : Nat} (h : p.mayAccept n.kind)
    (hp : p.tryAt src n [] = .ok (found, caps)) (hps : matchesAt src n (i + 1) ps = .ok ms) :
    matchesAt src n i (p :: ps) = .ok (if found then ⟨i, n, caps⟩ :: ms else ms) := by
  rw [matchesAt, h, if_pos rfl, hp]
  rw [hps]
  rfl

theorem matchesAmong_eq (h : ∀ n ∈ ns, matchesAt src n 0 q.patterns = .ok (f n).toList) :
    q.matchesAmong src ns = .ok (ns.filterMap f) := by
  induction ns with
  | nil => rfl
  | cons n ns ih =>
    obtain ⟨hn, hns⟩ := forall_mem_cons.1 h
    rw [matchesAmong, hn, ih hns, filterMap_cons]
    cases f n with
    | none => rfl
    | some m => rfl

/-- Matches that start at different places have one order. -/
theorem byStart_eq {ms' : List Match} (h : ms.Perm ms')
    (hms : ms'.Pairwise (·.node.start < ·.node.start)) : byStart ms = ms' := by
  have hp : (byStart ms).Perm ms' := (mergeSort_perm ms _).trans h
  have hs : (byStart ms).Pairwise (·.node.start ≤ ·.node.start) :=
    pairwise_mergeSort_key (fun m : Match => m.node.start) ms
  refine Perm.eq_of_pairwise ?_ hs (hms.imp Nat.le_of_lt) hp
  intro a b ha hb hab hba
  have hd : ms'.Pairwise fun a b => a.node.start ≠ b.node.start := hms.imp Nat.ne_of_lt
  have : Std.Symm fun a b : Match => a.node.start ≠ b.node.start := ⟨fun _ _ h => h.symm⟩
  by_contra hne
  exact hd.forall (hp.subset ha) hb hne (Nat.le_antisymm hab hba)

/-- Matches at nodes that start at different places start there too. -/
theorem sorted_filterMap {p : Node → Bool} (hn : ∀ n m, f n = some m → m.node = n)
    (hp : ∀ n m, f n = some m → p n) (h : (ns.filter p).Pairwise (·.start < ·.start)) :
    (ns.filterMap f).Pairwise (·.node.start < ·.node.start) := by
  rw [pairwise_filter] at h
  refine pairwise_filterMap.2 (h.imp fun hlt m hm m' hm' => ?_)
  rw [hn _ m hm, hn _ m' hm']
  exact hlt (hp _ m hm) (hp _ m' hm')

/-- A search that finds at most one match at a node lists its matches in the order of the nodes, if
no two of them start at the same place. -/
theorem matchesFrom_eq (hr : q.rootKinds? = some kinds) (hki : kinds.Nodup)
    (hat : ∀ n ∈ root.preorder, n.kind ∈ kinds → matchesAt src n 0 q.patterns = .ok (f n).toList)
    (hno : ∀ n, n.kind ∉ kinds → f n = none)
    (hs : (root.preorder.filterMap f).Pairwise (·.node.start < ·.node.start)) :
    q.matchesFrom src root = .ok (root.preorder.filterMap f) := by
  have hp := candidates_perm hki root
  have hfo : q.matchesAmong src (candidates kinds root) =
      .ok ((candidates kinds root).filterMap f) := by
    refine matchesAmong_eq fun n hn => ?_
    obtain ⟨hmem, hk⟩ := mem_filter.1 (hp.subset hn)
    exact hat n hmem (contains_iff_mem.1 hk)
  have hf : (root.preorder.filter (kinds.contains ·.kind)).filterMap f =
      root.preorder.filterMap f := by
    rw [filterMap_filter]
    refine filterMap_congr fun n _ => ?_
    split
    · rfl
    · next hk => exact (hno n (fun hmem => hk (contains_iff_mem.2 hmem))).symm
  rw [matchesFrom, hr]
  dsimp only
  rw [hfo]
  exact congrArg Except.ok (byStart_eq (hf ▸ hp.filterMap f) hs)

end Query

end Excerpt
