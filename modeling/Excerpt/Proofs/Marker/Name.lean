import Excerpt.Proofs.Marker.LastPair
import Excerpt.Proofs.Marker.Moved

/-!
# The section of one name

A pass over comments knows two things about one name: the section closed last, and
where a section was opened (`Knows`). Directives for other names do not change them. So
the pass is followed by the roles that the comments play for the name
(`exists_scan_known`), and the section is found among the directives for this name,
however the sections of other names nest or overlap with it. If only one pair of comments
can be paired, the section of any node is the one between the two if it has both, and none
otherwise (`Pair.exists_sections`).
-/

namespace Excerpt

open List Option Outcome Table Report

def Directive.Event.name : Event → String
  | opens name => name
  | closes name => name

namespace Node

/-- The comment opens the section. -/
def Opens (src : Bytes) (marker : String) (c : Node) : Prop :=
  ∃ text, c.text? src = .ok text ∧ Directive.event? text = some (.opens marker)

/-- The comment closes the section. -/
def Closes (src : Bytes) (marker : String) (c : Node) : Prop :=
  ∃ text, c.text? src = .ok text ∧ Directive.event? text = some (.closes marker)

def line (c : Node) : Int :=
  c.startRow + 1

/-- The directive of a comment. -/
def event? (src : Bytes) (c : Node) : Option Directive.Event :=
  (c.text? src).toOption.bind Directive.event?

/-- Whether the comment is a directive for the name. -/
def isFor (src : Bytes) (marker : String) (c : Node) : Bool :=
  (c.event? src).any (·.name == marker)

/-- What a comment does to the section of a name: its directives for the name count. -/
def role (src : Bytes) (marker : String) (c : Node) : Marker.Role :=
  if c.event? src = some (.opens marker) then .opens
  else if c.event? src = some (.closes marker) then .closes
  else .passes

variable {src : Bytes} {marker text : String} {c : Node}

theorem event?_eq_some {e : Directive.Event} :
    c.event? src = some e ↔ ∃ text, c.text? src = .ok text ∧ Directive.event? text = some e := by
  rw [event?, bind_eq_some_iff]
  exact exists_congr fun text => and_congr_left fun _ => toOption_eq_some

theorem event?_eq (h : c.text? src = .ok text) : c.event? src = Directive.event? text := by
  rw [event?, h]
  rfl

theorem opens_iff (h : c.text? src = .ok text) :
    c.Opens src marker ↔ Directive.event? text = some (.opens marker) := by
  rw [← event?_eq h, event?_eq_some, Opens]

theorem closes_iff (h : c.text? src = .ok text) :
    c.Closes src marker ↔ Directive.event? text = some (.closes marker) := by
  rw [← event?_eq h, event?_eq_some, Closes]

theorem role_eq_opens : c.role src marker = .opens ↔ c.Opens src marker := by
  rw [Opens, ← event?_eq_some, role]
  split_ifs <;> simp [*]

theorem role_eq_closes : c.role src marker = .closes ↔ c.Closes src marker := by
  rw [Closes, ← event?_eq_some, role]
  split_ifs <;> simp [*]

theorem role_ne_breaks : c.role src marker ≠ .breaks := by
  unfold role
  split_ifs <;> simp

theorem role_of_isFor (h : c.isFor src marker = false) : c.role src marker = .passes := by
  rw [isFor, Option.any_eq_false] at h
  rw [role, if_neg fun he => by simpa [Directive.Event.name] using h _ he,
    if_neg fun he => by simpa [Directive.Event.name] using h _ he]

end Node

namespace Marker

variable {src : Bytes} {marker name text : String} {lines : Option (Int × Int)} {first : Option Int}
  {p q : Progress} {k : Known Node} {a b c x y : Node} {cs : List Node}

/-- What a pass knows about the section of one name: its lines if it was closed, and its first line if it
is open. -/
structure Progress.Knows (marker : String) (lines : Option (Int × Int)) (first : Option Int)
    (p : Progress) : Prop where
  distinct : p.openAt.keys.Nodup
  closed : p.closed.get? marker = lines
  openAt : p.openAt.get? marker = first

namespace Progress

theorem knows_start : start.Knows marker none none :=
  ⟨nodup_nil, rfl, rfl⟩

namespace Knows

theorem put (h : p.Knows marker lines first) (start : Int) :
    Knows marker lines (some start) ⟨p.closed, p.openAt.put marker start⟩ :=
  ⟨nodup_keys_put h.distinct _ _, h.closed, by rw [get?_put, if_pos rfl]⟩

theorem close (h : p.Knows marker lines first) (bounds : Int × Int) :
    Knows marker (some bounds) none ⟨p.closed.put marker bounds, p.openAt.remove marker⟩ :=
  ⟨nodup_keys_remove h.distinct _, by rw [get?_put, if_pos rfl],
    by rw [get?_remove h.distinct, if_pos rfl]⟩

theorem put_of_ne (h : p.Knows marker lines first) (hn : name ≠ marker) (start : Int) :
    Knows marker lines first ⟨p.closed, p.openAt.put name start⟩ :=
  ⟨nodup_keys_put h.distinct _ _, h.closed, by rw [get?_put, if_neg hn, h.openAt]⟩

theorem close_of_ne (h : p.Knows marker lines first) (hn : name ≠ marker) (bounds : Int × Int) :
    Knows marker lines first ⟨p.closed.put name bounds, p.openAt.remove name⟩ :=
  ⟨nodup_keys_remove h.distinct _, by rw [get?_put, if_neg hn, h.closed],
    by rw [get?_remove h.distinct, if_neg hn, h.openAt]⟩

end Knows

/-- The pass knows about the name what the known comments tell. -/
def Follows (marker : String) (k : Known Node) (p : Progress) : Prop :=
  p.Knows marker (k.pair.map fun ab => (ab.1.line + 1, ab.2.line - 1)) (k.opened.map (·.line + 1))

theorem Follows.step {e : Directive.Event} (h : p.Follows marker k) (he : c.event? src = some e) :
    ∃ q, (p.step c.line e).outcome = .ok q ∧ q.Follows marker (k.see (Node.role src marker) c) := by
  cases e with
  | opens name =>
    refine ⟨_, rfl, ?_⟩
    by_cases hn : name = marker
    · subst hn
      rw [Known.see_opens _ (Node.role_eq_opens.2 (Node.event?_eq_some.1 he))]
      exact h.put _
    · rw [Known.see_passes _ (by simp [Node.role, he, hn])]
      exact h.put_of_ne hn _
  | closes name =>
    unfold Progress.step
    dsimp only
    by_cases hn : name = marker
    · subst hn
      rw [Known.see_closes _ (Node.role_eq_closes.2 (Node.event?_eq_some.1 he)), h.openAt]
      have hop := h.openAt
      cases ho : k.opened with
      | none => exact ⟨p, rfl, h.distinct, h.closed, by rw [hop, ho]⟩
      | some a => exact ⟨_, rfl, h.close _⟩
    · rw [Known.see_passes _ (by simp [Node.role, he, hn])]
      cases p.openAt.get? name with
      | none => exact ⟨p, rfl, h⟩
      | some first => exact ⟨_, rfl, h.close_of_ne hn _⟩

end Progress

theorem outcome_scan_cons (ht : c.text? src = .ok text) (p : Progress) (cs : List Node) :
    (scan src p (c :: cs)).outcome = match Directive.event? text with
      | some e => (p.step (c.startRow + 1) e).outcome >>= fun q => (scan src q cs).outcome
      | none => (scan src p cs).outcome := by
  rw [scan, ht, outcome_bind]
  change Report.outcome (match Directive.event? text with | some e => _ | none => _) = _
  cases Directive.event? text with
  | none => rfl
  | some e => rw [outcome_bind]

/-- The pass knows about a name what the comments tell about it. -/
theorem exists_scan_known (k : Known Node) (hp : p.Follows marker k)
    (hcs : ∀ c ∈ cs, ∃ text, c.text? src = .ok text) : ∃ q, (scan src p cs).outcome = .ok q ∧
      q.Follows marker (cs.foldl (Known.see (Node.role src marker)) k) := by
  induction cs generalizing p k with
  | nil => exact ⟨p, rfl, hp⟩
  | cons c cs ih =>
    obtain ⟨⟨text, ht⟩, hcs⟩ := forall_mem_cons.1 hcs
    have hev := Node.event?_eq ht
    rw [outcome_scan_cons ht, foldl_cons]
    cases he : Directive.event? text with
    | none =>
      rw [Known.see_passes _ (by simp [Node.role, hev, he])]
      exact ih k hp hcs
    | some e =>
      obtain ⟨q, hq, hf⟩ := hp.step (hev.trans he)
      obtain ⟨q', hs, hf⟩ := ih _ hf hcs
      exact ⟨q', Outcome.bind_eq_ok.2 ⟨q, hq, hs⟩, hf⟩

/-- The section found in a whole pass lies between the comments known to be paired last. -/
theorem exists_scan_after (marker : String) (hcs : ∀ c ∈ cs, ∃ text, c.text? src = .ok text) :
    ∃ q, (scan src .start cs).outcome = .ok q ∧ q.closed.get? marker =
      (Known.after (Node.role src marker) cs).pair.map fun ab => (ab.1.line + 1, ab.2.line - 1) := by
  have hs : Progress.start.Follows marker .start := Progress.knows_start
  obtain ⟨q, hsc, hf⟩ := exists_scan_known .start hs hcs
  exact ⟨q, hsc, hf.closed⟩

theorem exists_text_of_scan (h : (scan src p cs).outcome = .ok q) :
    ∀ c ∈ cs, ∃ text, c.text? src = .ok text := by
  induction cs generalizing p with
  | nil => simp
  | cons c cs ih =>
    obtain ⟨text, ht, h⟩ := bind_eq_ok.1 h
    refine forall_mem_cons.2 ⟨⟨text, ht⟩, ?_⟩
    split at h
    · obtain ⟨p', -, h⟩ := bind_eq_ok.1 h
      exact ih h
    · exact ih h

/-- The section of a name depends on the comments for this name only. It is there exactly if one of them
closes what an earlier one has opened, and it runs between the comments of the last such pair. -/
theorem section_iff_lastPair (src : Bytes) (marker : String) (cs : List Node) :
    ((∃ q, (scan src .start cs).outcome = .ok q) ↔ ∀ c ∈ cs, ∃ text, c.text? src = .ok text) ∧
    ∀ q, (scan src .start cs).outcome = .ok q →
      (∀ n : Node, n.comments = cs → (sections src n).outcome = .ok q.closed) ∧
      (∃ q', (scan src .start (cs.filter (·.isFor src marker))).outcome = .ok q' ∧
        q'.closed.get? marker = q.closed.get? marker) ∧
      ((∃ lines, q.closed.get? marker = some lines) ↔ ∃ i j, Paired (Node.role src marker) cs i j) ∧
      ∀ lines, q.closed.get? marker = some lines ↔ ∃ i j a b, LastPair (Node.role src marker) cs i j ∧
        cs[i]? = some a ∧ cs[j]? = some b ∧ lines = (a.line + 1, b.line - 1) := by
  refine ⟨⟨fun ⟨q, hscan⟩ => exists_text_of_scan hscan, fun hcs =>
    (exists_scan_after marker hcs).imp fun q hq => hq.1⟩, fun q hscan => ?_⟩
  have hcs := exists_text_of_scan hscan
  obtain ⟨q₀, hscan₀, hget⟩ := exists_scan_after marker hcs
  cases hscan.symm.trans hscan₀
  have hfor : ∀ c ∈ cs.filter (·.isFor src marker), ∃ text, c.text? src = .ok text := fun c hc =>
    hcs c (mem_of_mem_filter hc)
  obtain ⟨q', hscan', hget'⟩ := exists_scan_after marker hfor
  rw [Known.after_filter (fun c => Node.role_of_isFor), ← hget] at hget'
  refine ⟨?_, ⟨q', hscan', hget'⟩, ?_, fun lines => ?_⟩
  · rintro n rfl
    rw [outcome_sections, hscan]
    rfl
  · rw [← exists_pair_after_iff, hget]
    simp
  · rw [hget, map_eq_some_iff]
    constructor
    · rintro ⟨⟨a, b⟩, hpair, rfl⟩
      obtain ⟨i, j, hlast, ha, hb⟩ := pair_after_iff.1 hpair
      exact ⟨i, j, a, b, hlast, ha, hb, rfl⟩
    · rintro ⟨i, j, a, b, hlast, ha, hb, rfl⟩
      exact ⟨(a, b), pair_after_iff.2 ⟨i, j, hlast, ha, hb⟩, rfl⟩

theorem section_iff_lastPair_overlapping :
    let src := Bytes.ofString ("//@@start a\n//@@start b\n//@@end a\n//@@end a\n//@@start a\n" ++
      "//@@start a\n//@@end b\nint é; //@@end a\n//@@end a\n//@@start a\n")
    ∃ (root : Node) (q : Progress) (i j : Nat), Node.parse src = .ok root ∧
      (scan src .start root.comments).outcome = .ok q ∧
      (sections src root).outcome = .ok q.closed ∧
      q.closed.get? "a" = some (7, 7) ∧ LastPair (Node.role src "a") root.comments i j ∧
      q.closed.get? "b" = some (3, 6) := by
  intro src
  have hrun : (do
      let root ← (Node.parse src).toOption
      let q ← (scan src .start ((root.walk.filter (·.kind == "comment")).insertionSort
        fun a b => a.start ≤ b.start)).outcome.toOption
      return (q.closed.get? "a" == some (7, 7) && q.closed.get? "b" == some (3, 6))) = some true := by
    decide +kernel
  simp only [bind, pure, bind_eq_some_iff, toOption_eq_some, some.injEq, Bool.and_eq_true, beq_iff_eq] at hrun
  obtain ⟨root, hroot, q, hscan, ha, hb⟩ := hrun
  rw [← Node.comments_eq_insertionSort] at hscan
  obtain ⟨hsections, -, -, hlines⟩ := (section_iff_lastPair src "a" root.comments).2 q hscan
  obtain ⟨i, j, a, b, hpair, -⟩ := (hlines (7, 7)).1 ha
  exact ⟨root, q, i, j, hroot, hscan, hsections root rfl, ha, hpair, hb⟩

/-! ## One pair -/

/-- One comment opens the section, and one behind it closes it. Others that close it come before. -/
structure Pair (src : Bytes) (marker : String) (a b : Node) (cs : List Node) : Prop where
  lt : a.start < b.start
  sorted : cs.Pairwise (·.start ≤ ·.start)
  readable : ∀ c ∈ cs, ∃ text, c.text? src = .ok text
  opens : ∀ c ∈ cs, c.Opens src marker ↔ c = a
  closes : ∀ c ∈ cs, c.Closes src marker → c = b ∨ c.start < a.start

namespace Pair

theorem start_le {i j : Nat} (h : Pair src marker a b cs) (hlt : i < j) (hx : cs[i]? = some x)
    (hy : cs[j]? = some y) : x.start ≤ y.start := by
  obtain ⟨hi, rfl⟩ := List.getElem?_eq_some_iff.1 hx
  obtain ⟨hj, rfl⟩ := List.getElem?_eq_some_iff.1 hy
  exact pairwise_iff_getElem.1 h.sorted i j hi hj hlt

/-- No other comments are paired. -/
theorem eq_of_isLastPair (h : Pair src marker a b cs) (hl : IsLastPair (Node.role src marker) cs x y) :
    x = a ∧ y = b ∧ x ∈ cs ∧ y ∈ cs := by
  obtain ⟨i, j, hp, hx, hy⟩ := hl
  obtain ⟨c, hc, ho⟩ := hp.latest.1.opens
  obtain ⟨d, hd, hcl⟩ := hp.latest.1.closes
  cases hx.symm.trans hc
  cases hy.symm.trans hd
  have hxm := mem_of_getElem? hx
  have hym := mem_of_getElem? hy
  have hle := h.start_le hp.latest.1.lt hx hy
  obtain rfl := (h.opens x hxm).1 (Node.role_eq_opens.1 ho)
  exact ⟨rfl, (h.closes y hym (Node.role_eq_closes.1 hcl)).resolve_right (Nat.not_lt.2 hle), hxm,
    hym⟩

theorem exists_paired (h : Pair src marker a b cs) (hb : b.Closes src marker) (hacs : a ∈ cs)
    (hbcs : b ∈ cs) : ∃ i j, Paired (Node.role src marker) cs i j := by
  obtain ⟨i, ha⟩ := mem_iff_getElem?.1 hacs
  obtain ⟨front, back, rfl, hf⟩ := eq_append_cons_of_mem hbcs
  have hl : (front ++ b :: back)[front.length]? = some b := by simp
  have hlt : i < front.length := by
    by_contra hle
    rcases Nat.lt_or_eq_of_le (Nat.not_lt.1 hle) with hlt | rfl
    · exact Nat.not_le.2 h.lt (h.start_le hlt hl ha)
    · cases hl.symm.trans ha
      exact Nat.lt_irrefl _ h.lt
  have ho := Node.role_eq_opens.2 ((h.opens a hacs).2 rfl)
  refine ⟨i, front.length, ⟨hlt, ⟨a, ha, ho⟩, fun j c hij hj hc => ⟨fun hcl => ?_, ?_⟩⟩, b, hl,
    Node.role_eq_closes.2 hb⟩
  · rcases h.closes c (mem_of_getElem? hc) (Node.role_eq_closes.1 hcl) with rfl | hbe
    · rw [getElem?_append_left hj] at hc
      exact hf (mem_of_getElem? hc)
    · exact Nat.not_le.2 hbe (h.start_le hij ha hc)
  · exact Node.role_ne_breaks

/-- The section within a node is the one between the two comments if it has both, and none otherwise. -/
theorem exists_sections {n : Node} (h : Pair src marker a b n.comments) (hb : b.Closes src marker) :
    ∃ found, (sections src n).outcome = .ok found ∧ (a ∈ n.comments ∧ b ∈ n.comments →
        found.get? marker = some ((a.startRow : Int) + 2, (b.startRow : Int))) ∧
      (¬ (a ∈ n.comments ∧ b ∈ n.comments) → found.get? marker = none) := by
  obtain ⟨q, hs, hget⟩ := exists_scan_after marker h.readable
  refine ⟨q.closed, by rw [outcome_sections, hs]; rfl, fun hbo => ?_, fun hnot => ?_⟩
  · obtain ⟨⟨x, y⟩, hp⟩ := exists_pair_after_iff.2 (h.exists_paired hb hbo.1 hbo.2)
    obtain ⟨rfl, rfl, -⟩ := h.eq_of_isLastPair (pair_after_iff.1 hp)
    rw [hget, hp]
    simp [Node.line, Int.add_assoc]
  · rw [hget, map_eq_none_iff, eq_none_iff_forall_ne_some]
    rintro ⟨x, y⟩ hp
    obtain ⟨rfl, rfl, hmem⟩ := h.eq_of_isLastPair (pair_after_iff.1 hp)
    exact hnot hmem

end Pair

end Marker

end Excerpt
