import Excerpt.Proofs.Except
import Excerpt.Proofs.Query.Match
import Excerpt.Tree.Parse

/-!
# Searches are local

A search skips nodes by the kinds that its patterns can accept. A pattern that is
tried at a node of another kind fails without an error and leaves the captures as
they were, so nothing is lost: a search finds what trying every pattern at every
node finds, and it ends exactly if all of these attempts end. Nodes are tried in
another order, which shows only in the order of matches that start together.

What is found at a node depends on the node alone. A search within a node finds,
of all matches in the tree, those whose nodes stand below it.
-/

namespace Excerpt

open List Outcome

/-- Entries that contribute nothing may be left out. -/
theorem flatMap_filter_of_nil {α β : Type} {p : α → Bool} {f : α → List β}
    (h : ∀ a, p a = false → f a = []) (l : List α) : (l.filter p).flatMap f = l.flatMap f := by
  induction l with
  | nil => rfl
  | cons a l ih =>
    cases hp : p a with
    | false => simp [hp, h a hp, ih]
    | true => simp [hp, ih]

namespace Pattern

variable {src : Bytes} {n : Node} {p : Pattern} {ps : List Pattern} {kinds : List String}

theorem rootKindsAll?_cons :
    rootKindsAll? (p :: ps) = some kinds ↔
      ∃ own more, p.rootKinds? = some own ∧ rootKindsAll? ps = some more ∧ own ++ more = kinds := by
  simp [rootKindsAll?, Option.bind_eq_some_iff]

mutual

/-- A pattern fails at a node of a kind that it cannot accept. -/
theorem tryAt_of_not_mem : (p : Pattern) → ∀ {kinds : List String}, p.rootKinds? = some kinds → n.kind ∉ kinds →
    ∀ caps, p.tryAt src n caps = .ok (false, caps)
  | node kind fields children tests s => by
      intro hk hn caps
      obtain rfl := Option.some.inj hk
      exact tryAt_of_kind_ne (fun h => hn (mem_singleton.2 h)) caps
  | group inner tests s => by
      intro hk hn caps
      rw [tryAt, tryAt_of_not_mem inner hk hn]
      rfl
  | choice alternatives s => by
      intro hk hn caps
      exact tryAlternatives_of_not_mem alternatives hk hn caps
  | anything s => by
      intro hk
      cases hk

theorem tryAlternatives_of_not_mem : (ps : List Pattern) → ∀ {kinds : List String}, rootKindsAll? ps = some kinds →
    n.kind ∉ kinds → ∀ caps, tryAlternatives src ps n caps = .ok (false, caps)
  | [] => by
      intro _ _ caps
      rfl
  | p :: ps => by
      intro hk hn caps
      obtain ⟨own, more, hp, hps, rfl⟩ := rootKindsAll?_cons.1 hk
      rw [mem_append, not_or] at hn
      rw [tryAlternatives, tryAt_of_not_mem p hp hn.1]
      change tryAlternatives src ps n (caps.take caps.length) = _
      rw [take_length]
      exact tryAlternatives_of_not_mem ps hps hn.2 caps

end

theorem subset_of_mem
    (h : rootKindsAll? ps = some kinds) (hp : p ∈ ps) : ∃ own, p.rootKinds? = some own ∧ own ⊆ kinds := by
  induction ps generalizing kinds with
  | nil => cases hp
  | cons q ps ih =>
    obtain ⟨own, more, hq, hps, rfl⟩ := rootKindsAll?_cons.1 h
    rcases mem_cons.1 hp with rfl | hp
    · exact ⟨own, hq, subset_append_left own more⟩
    · obtain ⟨own', hp, hsub⟩ := ih hps hp
      exact ⟨own', hp, fun kind hk => mem_append_right own (hsub hk)⟩

theorem tryAt_of_not_mayAccept (h : p.mayAccept n.kind = false) (caps : Captures) :
    p.tryAt src n caps = .ok (false, caps) := by
  cases hk : p.rootKinds? with
  | none => simp [mayAccept, hk] at h
  | some kinds =>
    rw [mayAccept, hk] at h
    exact tryAt_of_not_mem p hk (fun hmem => by simp [hmem] at h) caps

end Pattern

namespace Node

variable {n m root : Node} {ns : List Node} {place : List Nat} {i j : Nat}

/-- The node at a place, which says what child to go to at each step down. -/
def under? : Node → List Nat → Option Node
  | n, [] => some n
  | n, i :: place => n.children[i]?.bind (under? · place)

mutual

/-- The nodes in the order of a walk, each with its place. -/
def placed : Node → List (List Nat × Node)
  | ⟨kind, span, children, fields⟩ => ([], ⟨kind, span, children, fields⟩) :: placedAll 0 children

/-- The nodes of several trees, the first of which is child `i`. -/
def placedAll (i : Nat) : List Node → List (List Nat × Node)
  | [] => []
  | n :: ns => placedAll (i + 1) ns ++ n.placed.map fun e => (i :: e.1, e.2)

end

mutual

theorem map_snd_placed : (n : Node) → n.placed.map Prod.snd = n.walk
  | ⟨_, _, children, _⟩ => by rw [placed, map_cons, walk, map_snd_placedAll children 0]

theorem map_snd_placedAll : (ns : List Node) → ∀ i, (placedAll i ns).map Prod.snd = walkAll ns
  | [] => fun _ => rfl
  | n :: ns => by
      intro i
      rw [placedAll, map_append, map_snd_placedAll ns, map_map, walkAll, ← map_snd_placed n]
      rfl

end

mutual

theorem under?_of_mem_placed : (n : Node) → ∀ e ∈ n.placed, n.under? e.1 = some e.2
  | ⟨_, _, children, _⟩ => by
      intro e he
      rw [placed, mem_cons] at he
      rcases he with rfl | he
      · rfl
      · obtain ⟨j, c, rest, hc, hp, hat⟩ := under?_of_mem_placedAll children 0 e he
        rw [Nat.zero_add] at hp
        rw [hp, under?, hc]
        exact hat

/-- The places of the nodes of several trees start with the number of the tree. -/
theorem under?_of_mem_placedAll : (ns : List Node) → ∀ i, ∀ e ∈ placedAll i ns, ∃ j c rest,
    ns[j]? = some c ∧ e.1 = (i + j) :: rest ∧ c.under? rest = some e.2
  | [] => by
      intro i e he
      cases he
  | n :: ns => by
      intro i e he
      rw [placedAll, mem_append] at he
      rcases he with he | he
      · obtain ⟨j, c, rest, hc, hp, hat⟩ := under?_of_mem_placedAll ns (i + 1) e he
        exact ⟨j + 1, c, rest, hc, by rw [hp, Nat.add_assoc, Nat.add_comm 1], hat⟩
      · obtain ⟨own, hown, rfl⟩ := mem_map.1 he
        exact ⟨0, n, own.1, rfl, rfl, under?_of_mem_placed n own hown⟩

end

theorem filter_placedAll {c : Node} (h : ns[j]? = some c) (i : Nat) (place : List Nat) :
    (placedAll i ns).filter (((i + j) :: place).isPrefixOf ·.1) =
      (c.placed.filter (place.isPrefixOf ·.1)).map fun e => ((i + j) :: e.1, e.2) := by
  induction ns generalizing i j with
  | nil => cases h
  | cons n ns ih =>
    rw [placedAll, filter_append, filter_map]
    cases j with
    | zero =>
      obtain rfl := Option.some.inj h
      have hr : (placedAll (i + 1) ns).filter (((i + 0) :: place).isPrefixOf ·.1) = [] := by
        refine filter_eq_nil_iff.2 fun e he => ?_
        obtain ⟨j, c, rest, -, hp, -⟩ := under?_of_mem_placedAll ns (i + 1) e he
        simp [hp]
        omega
      rw [hr, nil_append]
      simp [Function.comp_def]
    | succ j =>
      have hown : n.placed.filter ((((i + (j + 1)) :: place).isPrefixOf ·.1) ∘ fun e => (i :: e.1, e.2)) = [] :=
        filter_eq_nil_iff.2 fun e _ => by simp
      rw [hown, map_nil, append_nil, ← Nat.add_assoc, Nat.add_right_comm]
      exact ih h (i + 1)

/-- The nodes below a place are those of the tree that stands there. -/
theorem filter_placed (h : n.under? place = some m) :
    (n.placed.filter (place.isPrefixOf ·.1)).map Prod.snd = m.walk := by
  induction place generalizing n with
  | nil =>
    obtain rfl := Option.some.inj h
    rw [← map_snd_placed n]
    exact congrArg _ (filter_eq_self.2 fun _ _ => isPrefixOf_nil_left)
  | cons i place ih =>
    obtain ⟨c, hc, hm⟩ := Option.bind_eq_some_iff.1 h
    obtain ⟨kind, span, children, fields⟩ := n
    have hb := filter_placedAll hc 0 place
    rw [Nat.zero_add] at hb
    rw [placed, filter_cons_of_neg (by simp), hb, map_map, ← ih hm]
    rfl

end Node

namespace Query

variable {q : Query} {src : Bytes} {n root : Node} {ns : List Node} {ms : List Match} {kinds : List String}
  {kind : String}

/-- The match of a pattern at a node, if it accepts the node; the pattern comes with its place. -/
def accepted (src : Bytes) (n : Node) (e : Pattern × Nat) : Option Match :=
  match e.1.tryAt src n [] with
  | .ok (true, caps) => some ⟨e.2, n, caps⟩
  | _ => none

/-- What trying every pattern at the node finds. -/
def hits (q : Query) (src : Bytes) (n : Node) : List Match :=
  q.patterns.zipIdx.filterMap (accepted src n)

/-- No attempt at the node ends with an error. -/
def Ends (q : Query) (src : Bytes) (n : Node) : Prop :=
  ∀ p ∈ q.patterns, ∃ r, p.tryAt src n [] = .ok r

theorem matchesAt_eq_ok {i : Nat} {ps : List Pattern} : matchesAt src n i ps = .ok ms ↔
    (∀ p ∈ ps, ∃ r, p.tryAt src n [] = .ok r) ∧ ms = (ps.zipIdx i).filterMap (accepted src n) := by
  induction ps generalizing i ms with
  | nil => simp [matchesAt, eq_comm]
  | cons p ps ih =>
    rw [forall_mem_cons, zipIdx_cons]
    cases h : p.mayAccept n.kind with
    | false =>
      have htry : p.tryAt src n [] = _ := Pattern.tryAt_of_not_mayAccept h []
      rw [matchesAt_cons_of_not h, ih, filterMap_cons_none (by rw [accepted, htry])]
      simp [htry]
    | true =>
      rw [matchesAt, if_pos h]
      constructor
      · intro hms
        obtain ⟨⟨found, caps⟩, htry, hms⟩ := bind_eq_ok.1 hms
        obtain ⟨more, hm, hms⟩ := bind_eq_ok.1 hms
        obtain ⟨hps, rfl⟩ := ih.1 hm
        obtain rfl := Except.ok.inj hms
        refine ⟨⟨⟨_, htry⟩, hps⟩, ?_⟩
        cases found <;> simp [accepted, htry]
      · rintro ⟨⟨⟨⟨found, caps⟩, htry⟩, hps⟩, rfl⟩
        rw [htry, ok_bind, ih.2 ⟨hps, rfl⟩]
        cases found <;> simp [accepted, htry, ok_bind, pure, Except.pure]

theorem matchesAmong_eq_ok : q.matchesAmong src ns = .ok ms ↔
    (∀ n ∈ ns, q.Ends src n) ∧ ms = ns.flatMap (q.hits src) := by
  induction ns generalizing ms with
  | nil => simp [matchesAmong, eq_comm]
  | cons n ns ih =>
    rw [matchesAmong, bind_eq_ok, forall_mem_cons, flatMap_cons]
    constructor
    · rintro ⟨here, hh, hms⟩
      obtain ⟨more, hm, hms⟩ := bind_eq_ok.1 hms
      obtain ⟨hn, rfl⟩ := matchesAt_eq_ok.1 hh
      obtain ⟨hns, rfl⟩ := ih.1 hm
      exact ⟨⟨hn, hns⟩, (Except.ok.inj hms).symm⟩
    · rintro ⟨⟨hn, hns⟩, rfl⟩
      refine ⟨q.hits src n, matchesAt_eq_ok.2 ⟨hn, rfl⟩, ?_⟩
      rw [ih.2 ⟨hns, rfl⟩]
      rfl

theorem map_byStart_eq_ok : (q.matchesAmong src ns).map byStart = .ok ms ↔
    (∀ n ∈ ns, q.Ends src n) ∧ ms = byStart (ns.flatMap (q.hits src)) := by
  rw [map_eq_ok]
  constructor
  · rintro ⟨found, hf, rfl⟩
    obtain ⟨hen, rfl⟩ := matchesAmong_eq_ok.1 hf
    exact ⟨hen, rfl⟩
  · rintro ⟨hen, rfl⟩
    exact ⟨_, matchesAmong_eq_ok.2 ⟨hen, rfl⟩, rfl⟩

theorem matchesIn_eq_ok : q.matchesIn src n = .ok ms ↔
    (∀ m ∈ n.walk, q.Ends src m) ∧ ms = byStart (n.walk.flatMap (q.hits src)) :=
  map_byStart_eq_ok

/-- Nothing is to be found, and nothing goes wrong, at a node of another kind. -/
theorem ends_of_not_mem (hk : q.rootKinds? = some kinds) (hn : n.kind ∉ kinds) :
    q.Ends src n ∧ q.hits src n = [] := by
  obtain ⟨all, hall, rfl⟩ := Option.map_eq_some_iff.1 hk
  rw [mem_eraseDups] at hn
  have htry : ∀ p ∈ q.patterns, p.tryAt src n [] = .ok (false, []) := by
    intro p hp
    obtain ⟨own, hown, hsub⟩ := Pattern.subset_of_mem hall hp
    exact Pattern.tryAt_of_not_mem p hown (fun hmem => hn (hsub hmem)) []
  refine ⟨fun p hp => ⟨_, htry p hp⟩, filterMap_eq_nil_iff.2 fun e he => ?_⟩
  rw [accepted, htry e.1 (fst_mem_of_mem_zipIdx he)]

theorem nodup_eraseDups (l : List String) : l.eraseDups.Nodup :=
  match l with
  | [] => nodup_nil
  | a :: l => by
      rw [eraseDups_cons]
      exact nodup_cons.2 ⟨by simp, nodup_eraseDups _⟩
termination_by l.length
decreasing_by
  exact Nat.lt_succ_of_le (length_filter_le _ l)

theorem matchesFrom_eq_ok (hk : q.rootKinds? = some kinds) : q.matchesFrom src root = .ok ms ↔
    (∀ n ∈ root.walk, q.Ends src n) ∧ ms = byStart ((candidates kinds root).flatMap (q.hits src)) := by
  have hen : (∀ n ∈ candidates kinds root, q.Ends src n) ↔ ∀ n ∈ root.walk, q.Ends src n := by
    constructor
    · intro h n hn
      by_cases hki : n.kind ∈ kinds
      · exact h n (mem_flatMap.2 ⟨n.kind, hki, mem_filter.2 ⟨hn, beq_self_eq_true _⟩⟩)
      · exact (ends_of_not_mem hk hki).1
    · intro h n hn
      obtain ⟨kind, -, hn⟩ := mem_flatMap.1 hn
      exact h n (mem_of_mem_filter hn)
  rw [matchesFrom, hk, ← hen]
  exact map_byStart_eq_ok

/-- The two lists differ at most in the order of matches that start together. -/
def SameByStart (ms ms' : List Match) : Prop :=
  ms.map (·.node.start) = ms'.map (·.node.start) ∧
    ∀ b, (ms.filter (·.node.start == b)).Perm (ms'.filter (·.node.start == b))

theorem sameByStart_byStart {ms' : List Match} (h : ms.Perm ms') :
    SameByStart (byStart ms) (byStart ms') := by
  have hp : (byStart ms).Perm (byStart ms') :=
    (mergeSort_perm ms _).trans (h.trans (mergeSort_perm ms' _).symm)
  have hs : ∀ ms, ((byStart ms).map (·.node.start)).Pairwise (· ≤ ·) := fun ms =>
    pairwise_map.2 (pairwise_mergeSort_key (fun m : Match => m.node.start) ms)
  exact ⟨(hp.map _).eq_of_pairwise (fun _ _ _ _ => Nat.le_antisymm) (hs ms) (hs ms'),
    fun b => hp.filter _⟩

theorem exists_matchesFrom_iff : (∃ ms, q.matchesFrom src root = .ok ms) ↔ ∀ n ∈ root.walk, q.Ends src n := by
  cases hk : q.rootKinds? with
  | none => simp [matchesFrom, hk, matchesIn_eq_ok]
  | some kinds => simp [matchesFrom_eq_ok hk]

/-- A search lists what trying every pattern at every node finds. -/
theorem sameByStart_of_matchesFrom (h : q.matchesFrom src root = .ok ms) :
    SameByStart ms (byStart (root.walk.flatMap (q.hits src))) := by
  cases hk : q.rootKinds? with
  | none =>
    rw [matchesFrom, hk] at h
    obtain ⟨-, rfl⟩ := matchesIn_eq_ok.1 h
    exact sameByStart_byStart (.refl _)
  | some kinds =>
    obtain ⟨-, rfl⟩ := (matchesFrom_eq_ok hk).1 h
    obtain ⟨all, -, rfl⟩ := Option.map_eq_some_iff.1 hk
    have hp := (flatMap_filter_perm (nodup_eraseDups all) root.walk).flatMap_right (q.hits src)
    rw [flatMap_filter_of_nil fun n hn => (ends_of_not_mem hk fun h => by simp [h] at hn).2] at hp
    exact sameByStart_byStart hp

/-- Every match at the nodes, with the place of its node. -/
def placedHits (q : Query) (src : Bytes) (es : List (List Nat × Node)) : List (List Nat × Match) :=
  (es.flatMap fun e => (q.hits src e.2).map (e.1, ·)).mergeSort fun a b => a.2.node.start ≤ b.2.node.start

theorem map_snd_placedHits (es : List (List Nat × Node)) :
    (q.placedHits src es).map Prod.snd = byStart ((es.map Prod.snd).flatMap (q.hits src)) := by
  rw [placedHits, byStart, map_mergeSort_key (fun m : Match => m.node.start), map_flatMap, flatMap_map]
  simp

theorem filter_placedHits (p : List Nat → Bool) (es : List (List Nat × Node)) :
    (q.placedHits src es).filter (p ·.1) = q.placedHits src (es.filter (p ·.1)) := by
  rw [placedHits, filter_mergeSort fun e : List Nat × Match => e.2.node.start, filter_flatMap, placedHits]
  congr 1
  rw [← flatMap_filter_of_nil (p := (p ·.1))]
  · refine flatMap_congr fun e he => filter_eq_self.2 fun m hm => ?_
    obtain ⟨m, -, rfl⟩ := mem_map.1 hm
    exact (mem_filter.1 he).2
  · intro e he
    refine filter_eq_nil_iff.2 fun m hm => ?_
    obtain ⟨m, -, rfl⟩ := mem_map.1 hm
    simp [he]

theorem node_of_mem_hits {m : Match} (h : m ∈ q.hits src n) : m.node = n := by
  obtain ⟨e, -, he⟩ := mem_filterMap.1 h
  rw [accepted] at he
  split at he
  · rw [← Option.some.inj he]
  · cases he

theorem under?_of_mem_placedHits {e : List Nat × Match} (h : e ∈ q.placedHits src root.placed) :
    root.under? e.1 = some e.2.node := by
  obtain ⟨own, hown, he⟩ := mem_flatMap.1 (mem_mergeSort.1 h)
  obtain ⟨m, hm, rfl⟩ := mem_map.1 he
  rw [Node.under?_of_mem_placed root own hown, node_of_mem_hits hm]

/-- A match of the query can start at nodes of one kind only. -/
def StartsAt (q : Query) (kind : String) : Prop :=
  ∀ p ∈ q.patterns, ∃ kinds, p.rootKinds? = some kinds ∧ ∀ k ∈ kinds, k = kind

theorem StartsAt.rootKinds? (h : q.StartsAt kind) :
    q.rootKinds? = some [] ∨ q.rootKinds? = some [kind] := by
  have hall : ∀ ps : List Pattern, (∀ p ∈ ps, ∃ kinds, p.rootKinds? = some kinds ∧ ∀ k ∈ kinds, k = kind) →
      ∃ all, Pattern.rootKindsAll? ps = some all ∧ ∀ k ∈ all, k = kind := by
    intro ps
    induction ps with
    | nil => exact fun _ => ⟨[], rfl, fun _ hk => absurd hk not_mem_nil⟩
    | cons p ps ih =>
      intro h
      obtain ⟨⟨own, hp, hown⟩, hps⟩ := forall_mem_cons.1 h
      obtain ⟨more, hps, hm⟩ := ih hps
      exact ⟨own ++ more, Pattern.rootKindsAll?_cons.2 ⟨own, more, hp, hps, rfl⟩,
        forall_mem_append.2 ⟨hown, hm⟩⟩
  obtain ⟨all, hki, hall⟩ := hall q.patterns h
  rw [Query.rootKinds?, hki, Option.map_some]
  cases all with
  | nil => exact .inl rfl
  | cons k all =>
    obtain ⟨rfl, hall⟩ := forall_mem_cons.1 hall
    rw [eraseDups_cons, filter_eq_nil_iff.2 fun b hb => by simp [hall b hb]]
    exact .inr rfl

theorem StartsAt.matchesFrom (h : q.StartsAt kind) :
    q.matchesFrom src root = .ok ms ↔ q.matchesIn src root = .ok ms := by
  have hc : ∃ kinds, q.rootKinds? = some kinds ∧
      candidates kinds root = root.walk.filter (kinds.contains ·.kind) := by
    rcases h.rootKinds? with hk | hk
    · exact ⟨[], hk, (filter_eq_nil_iff.2 fun _ _ => Bool.false_ne_true).symm⟩
    · exact ⟨[kind], hk, by simp [candidates, Bool.beq_eq_decide_eq]⟩
  obtain ⟨kinds, hk, hc⟩ := hc
  rw [matchesFrom_eq_ok hk, matchesIn_eq_ok, hc, flatMap_filter_of_nil]
  exact fun n hn => (ends_of_not_mem hk fun h => by simp [h] at hn).2

theorem matchesIn_at {place : List Nat} (hr : ∀ m ∈ root.walk, q.Ends src m) (h : root.under? place = some n) :
    q.matchesIn src n =
      .ok (((q.placedHits src root.placed).filter (place.isPrefixOf ·.1)).map Prod.snd) := by
  have hb := Node.filter_placed h
  rw [matchesIn_eq_ok, filter_placedHits, map_snd_placedHits, hb]
  refine ⟨fun m hm => hr m ?_, rfl⟩
  rw [← hb] at hm
  rw [← Node.map_snd_placed]
  exact map_subset _ (filter_subset_self _) hm

/-- A search ends exactly if every pattern can be tried at every node, and then lists what these attempts find,
but for the order of matches that start together. If matches start at nodes of one kind, each match has a place
in the tree, and a search within a node finds the matches at places below it, in the same order. -/
theorem matchesFrom_local (q : Query) (src : Bytes) (root : Node) :
    ((∃ ms, q.matchesFrom src root = .ok ms) ↔ ∀ n ∈ root.walk, q.Ends src n) ∧
      ∀ ms, q.matchesFrom src root = .ok ms →
        SameByStart ms (byStart (root.walk.flatMap (q.hits src))) ∧
        ∀ kind, q.StartsAt kind → ∃ placed : List (List Nat × Match),
          placed.map Prod.snd = ms ∧ (∀ e ∈ placed, root.under? e.1 = some e.2.node) ∧
            ∀ place n, root.under? place = some n →
              q.matchesIn src n = .ok ((placed.filter (place.isPrefixOf ·.1)).map Prod.snd) := by
  refine ⟨exists_matchesFrom_iff, fun ms hms => ⟨sameByStart_of_matchesFrom hms, fun kind hkind => ?_⟩⟩
  obtain ⟨hends, rfl⟩ := matchesIn_eq_ok.1 (hkind.matchesFrom.1 hms)
  refine ⟨q.placedHits src root.placed, ?_, fun e => under?_of_mem_placedHits, fun place n => matchesIn_at hends⟩
  rw [map_snd_placedHits, Node.map_snd_placed]

/-- Of three classes, the first of which holds the second, the search in the first one finds two. -/
theorem matchesFrom_local_class :
    let src := Bytes.ofString "class A \x7b class B \x7b\x7d; \x7d; class C \x7b\x7d;"
    let q : Query := ⟨[.node "class_specifier" [] [] [] ⟨false, some "c"⟩]⟩
    ∃ (root n : Node) (ms inner : List Match), Node.parse src = .ok root ∧ root.under? [0] = some n ∧
      q.matchesFrom src root = .ok ms ∧ ms.map (·.node.start) = [0, 10, 25] ∧
      q.matchesIn src n = .ok inner ∧ inner.map (·.node.start) = [0, 10] ∧
      ∃ placed : List (List Nat × Match), placed.map Prod.snd = ms ∧
        (placed.filter (isPrefixOf [0] ·.1)).map Prod.snd = inner := by
  intro src q
  have hrun : (do
      let root ← (Node.parse src).toOption
      let n ← root.under? [0]
      let ms ← (q.matchesAmong src (candidates ["class_specifier"] root)).toOption
      let inner ← (q.matchesAmong src n.walk).toOption
      return [ms, inner].map fun ms =>
        (ms.insertionSort fun a b => a.node.start ≤ b.node.start).map (·.node.start)) =
          some [[0, 10, 25], [0, 10]] := by
    decide +kernel
  simp only [bind, pure, Option.bind_eq_some_iff, toOption_eq_some, Option.some.injEq, map_cons, map_nil,
    cons.injEq, and_true, ← mergeSort_eq_insertionSort fun m : Match => m.node.start] at hrun
  obtain ⟨root, hparse, n, hn, ms, hms, inner, hinner, hstarts, hin⟩ := hrun
  have hfrom : q.matchesFrom src root = .ok (byStart ms) := congrArg (Except.map byStart) hms
  have hwithin : q.matchesIn src n = .ok (byStart inner) := congrArg (Except.map byStart) hinner
  have hkind : q.StartsAt "class_specifier" := fun p hp =>
    ⟨_, mem_singleton.1 hp ▸ rfl, fun k hk => mem_singleton.1 hk⟩
  obtain ⟨-, hlocal⟩ := matchesFrom_local q src root
  obtain ⟨placed, hplaced, -, hplace⟩ := (hlocal _ hfrom).2 _ hkind
  exact ⟨root, n, _, _, hparse, hn, hfrom, hstarts, hwithin, hin, placed, hplaced,
    Except.ok.inj ((hplace [0] n hn).symm.trans hwithin)⟩

end Query

end Excerpt
