import Excerpt.Proofs.Macro.Walk
import Excerpt.Proofs.Query.Captured

/-!
# The choice of a macro use

A use is chosen in two ways: by narrowing the uses with one condition after the
other, or by asking of each use whether it meets all conditions. A condition that
does not name a place fails the first way at once and the second way only where it
is reached, but the two always choose the same use if they choose one
(`narrowed_eq_ok_iff`). The sections in the chosen use lie on its lines, since
its comments do.
-/

namespace Excerpt

open List Option Outcome Report

namespace Marker

/-- The sections closed by line `line` and the open one start on line `first` or below. -/
structure Single.Within (first line : Int) (s : Single) : Prop where
  closed : ∀ e ∈ s.closed, first ≤ e.2.1 ∧ e.2.1 ≤ e.2.2 ∧ e.2.2 ≤ line
  current : ∀ e ∈ s.current, first ≤ e.2 ∧ e.2 ≤ line

namespace Single.Within

variable {first line line' : Int} {s : Single}

theorem mono (h : s.Within first line) (hle : line ≤ line') : s.Within first line' := by
  refine ⟨fun e he => ?_, fun e he => ?_⟩
  · obtain ⟨hf, hle', hl⟩ := h.closed e he
    exact ⟨hf, hle', Int.le_trans hl hle⟩
  · obtain ⟨hf, hl⟩ := h.current e he
    exact ⟨hf, Int.le_trans hl hle⟩

theorem step (h : s.Within first line) (hf : first ≤ line) (text : String) :
    (s.step line text).Within first line := by
  unfold Single.step
  split
  · refine ⟨h.closed, ?_⟩
    intro e he
    rw [← some.inj he]
    exact ⟨hf, Int.le_refl line⟩
  · split
    · split
      · next name start hc =>
          split
          · refine ⟨fun e he => ?_, nofun⟩
            rcases Table.mem_put he with rfl | he
            · obtain ⟨hs, hle⟩ := h.current (name, start) hc
              exact ⟨hs, hle, Int.le_refl line⟩
            · exact h.closed e he
          · exact h
      · exact h
    · exact h

/-- A pass over comments that stand further and further down. -/
theorem scan {src : Bytes} {ns : List Node} {last : Int} {s' : Single} (h : s.Within first line)
    (hf : first ≤ line) (hl : line ≤ last) (hs : ns.Pairwise (·.startRow ≤ ·.startRow))
    (hns : ∀ n ∈ ns, line ≤ n.startRow + 1 ∧ (n.startRow : Int) + 1 ≤ last)
    (hsc : scanSingle src s ns = .ok s') : s'.Within first last := by
  induction ns generalizing s line with
  | nil =>
    cases hsc
    exact h.mono hl
  | cons n ns ih =>
    obtain ⟨hb, hs⟩ := pairwise_cons.1 hs
    obtain ⟨⟨hn, hnl⟩, hns⟩ := forall_mem_cons.1 hns
    obtain ⟨text, -, hsc⟩ := Outcome.bind_eq_ok.1 hsc
    refine ih ((h.mono hn).step (Int.le_trans hf hn) text) (Int.le_trans hf hn) hnl hs
      (fun m hm => ⟨?_, (hns m hm).2⟩) hsc
    have hrow := hb m hm
    omega

end Single.Within

theorem exists_scanSingle {src : Bytes} {ns : List Node} (s : Single)
    (h : ∀ n ∈ ns, ∃ text, n.text? src = .ok text) : ∃ s', scanSingle src s ns = .ok s' := by
  induction ns generalizing s with
  | nil => exact ⟨s, rfl⟩
  | cons n ns ih =>
    obtain ⟨⟨text, ht⟩, hns⟩ := forall_mem_cons.1 h
    rw [scanSingle, ht]
    exact ih _ hns

end Marker

namespace Node

variable {src : Bytes} {text : String} {n root : Node} {found : Sections}

theorem exists_singleSections (hte : Utf8.decode src = .ok text) (hp : parse src = .ok root)
    (hn : n ∈ root.preorder) : ∃ found, Marker.singleSections src n = .ok found := by
  have hr := (readable_of_parse hte hp).of_mem_preorder hn
  have ht : ∀ c ∈ n.comments, ∃ s, c.text? src = .ok s := fun c hc =>
    ⟨_, (hr.of_mem_preorder (mem_comments.1 hc).1).here.text?⟩
  obtain ⟨s, hs⟩ := Marker.exists_scanSingle .start ht
  exact ⟨s.closed, by rw [Marker.singleSections, hs]; rfl⟩

theorem lines_of_singleSections (hp : parse src = .ok root) (hn : n ∈ root.preorder)
    (h : Marker.singleSections src n = .ok found) :
    ∀ e ∈ found, (n.startRow : Int) + 1 ≤ e.2.1 ∧ e.2.1 ≤ e.2.2 ∧
      e.2.2 ≤ n.startRow + 1 + (n.text src).newlines := by
  obtain ⟨s, hsc, h⟩ := Outcome.bind_eq_ok.1 h
  cases h
  have hs : n.comments.Pairwise (·.startRow ≤ ·.startRow) := by
    refine (pairwise_comments n).imp_of_mem fun {a b} ha hb hle => ?_
    rw [startRow_of_parse hp (mem_preorder_trans hn (mem_comments.1 ha).1),
      startRow_of_parse hp (mem_preorder_trans hn (mem_comments.1 hb).1)]
    exact newlines_take_mono src hle
  have hst : Marker.Single.start.Within (n.startRow + 1) (n.startRow + 1) :=
    ⟨by simp [Marker.Single.start], by simp [Marker.Single.start]⟩
  refine (hst.scan (Int.le_refl _) (by omega) hs (fun c hc => ?_) hsc).closed
  obtain ⟨hab, hbe⟩ := rows_of_parse hp hn (mem_comments.1 hc).1
  omega

end Node

namespace MacroUse

variable {src : Bytes} {root : Node} {u : MacroUse} {uses kept : List MacroUse} {key : String}
  {value : Value} {place : Int} {conditions : Conditions}

theorem node_mem_of_ofMatch? {m : Query.Match} (h : ofMatch? src m = .ok (some u)) :
    u.node ∈ m.nodes "macro_usage" := by
  unfold ofMatch? at h
  split at h
  · next n args hn ha =>
      obtain ⟨v, hv, h⟩ := Outcome.bind_eq_ok.1 h
      cases h
      rw [(ofNodes_eq_ok hv).1]
      exact mem_of_head? hn
  · cases h

theorem mem_preorder_of_named {name : String} (h : (named src root name).outcome = .ok uses)
    (hu : u ∈ uses) : u.node ∈ root.preorder := by
  unfold named searched at h
  dsimp only at h
  split at h
  · next hf =>
      cases h
      obtain ⟨ms, hms, hf⟩ := Outcome.bind_eq_ok.1 hf
      obtain ⟨m, hm, hu⟩ := exists_of_mem_ofMatches hf hu
      exact Query.mem_preorder_of_search (mapError_eq_ok.1 hms) hm (node_mem_of_ofMatch? hu)
  · cases h
    cases hu

theorem meets_cons (hp : place? key = .ok (some place)) (u : MacroUse) :
    u.meets ((key, value) :: conditions) =
      (hasArgument place value u >>= fun b => if b then u.meets conditions else .ok false) := by
  rw [meets, hp]
  rfl

/-- Asking for one more condition is narrowing by it first. -/
theorem meeting_cons_eq_ok (hpl : place? key = .ok (some place)) :
    meeting ((key, value) :: conditions) uses = .ok kept ↔
      ∃ passed, Cpp.passing place value uses = .ok passed ∧ meeting conditions passed = .ok kept := by
  induction uses generalizing kept with
  | nil =>
    constructor
    · intro h
      exact ⟨[], rfl, h⟩
    · rintro ⟨_, ⟨⟩, h⟩
      exact h
  | cons u us ih =>
    rw [meeting, Cpp.passing, meets_cons hpl]
    cases hasArgument place value u with
    | error e =>
      constructor
      · intro h
        cases h
      · rintro ⟨_, h, -⟩
        cases h
    | ok b =>
      rw [ok_bind, ok_bind]
      cases b with
      | false =>
        rw [if_neg Bool.false_ne_true, ok_bind, Outcome.bind_eq_ok]
        constructor
        · rintro ⟨more, hmo, ⟨⟩⟩
          obtain ⟨passed, hp, hm⟩ := ih.1 hmo
          exact ⟨passed, Outcome.bind_eq_ok.2 ⟨passed, hp, rfl⟩, hm⟩
        · rintro ⟨_, hp, hm⟩
          obtain ⟨passed, hus, ⟨⟩⟩ := Outcome.bind_eq_ok.1 hp
          exact ⟨kept, ih.2 ⟨passed, hus, hm⟩, rfl⟩
      | true =>
        rw [if_pos rfl, Outcome.bind_eq_ok]
        constructor
        · rintro ⟨b, hb, h⟩
          obtain ⟨more, hmo, h⟩ := Outcome.bind_eq_ok.1 h
          obtain ⟨passed, hp, hm⟩ := ih.1 hmo
          refine ⟨u :: passed, Outcome.bind_eq_ok.2 ⟨passed, hp, rfl⟩, ?_⟩
          rw [meeting, hb, hm]
          exact h
        · rintro ⟨_, hp, hm⟩
          obtain ⟨passed, hus, ⟨⟩⟩ := Outcome.bind_eq_ok.1 hp
          obtain ⟨b, hb, h⟩ := Outcome.bind_eq_ok.1 hm
          obtain ⟨more, hmo, h⟩ := Outcome.bind_eq_ok.1 h
          exact ⟨b, hb, Outcome.bind_eq_ok.2 ⟨more, ih.2 ⟨passed, hus, hmo⟩, h⟩⟩

/-- A condition that speaks of no place says nothing. -/
theorem meeting_cons_of_none (hp : place? key = .ok none) :
    meeting ((key, value) :: conditions) uses = meeting conditions uses := by
  have hm : ∀ u : MacroUse, u.meets ((key, value) :: conditions) = u.meets conditions := by
    intro u
    rw [meets, hp]
    rfl
  induction uses with
  | nil => rfl
  | cons u us ih => rw [meeting, meeting, hm, ih]

theorem meeting_cons_of_error {e : Failure} (hp : place? key = .error e)
    (h : meeting ((key, value) :: conditions) uses = .ok kept) : kept = [] := by
  cases uses with
  | nil =>
    cases h
    rfl
  | cons u us =>
    obtain ⟨b, hb, -⟩ := Outcome.bind_eq_ok.1 h
    rw [meets, hp] at hb
    cases hb

theorem subset_of_meeting (h : meeting conditions uses = .ok kept) : kept ⊆ uses := by
  induction uses generalizing kept with
  | nil =>
    cases h
    exact Subset.refl _
  | cons u us ih =>
    obtain ⟨b, -, h⟩ := Outcome.bind_eq_ok.1 h
    obtain ⟨more, hm, h⟩ := Outcome.bind_eq_ok.1 h
    cases h
    have hs := subset_cons_of_subset u (ih hm)
    cases b with
    | true => exact cons_subset.2 ⟨mem_cons_self, hs⟩
    | false => exact hs

theorem meeting_nil (uses : List MacroUse) : meeting [] uses = .ok uses := by
  induction uses with
  | nil => rfl
  | cons u us ih =>
    rw [meeting, ih]
    rfl

end MacroUse

namespace Cpp

open MacroUse

variable {uses kept : List MacroUse} {conditions : Conditions} {spec : MacroSpec}

/-- Narrowing by the conditions in turn keeps the uses that meet them all, as soon as one does. -/
theorem narrowed_eq_ok_iff (hk : kept ≠ []) :
    narrowed uses conditions = .ok kept ↔ meeting conditions uses = .ok kept := by
  induction conditions generalizing uses with
  | nil =>
    rw [meeting_nil]
    rfl
  | cons condition conditions ih =>
    obtain ⟨key, value⟩ := condition
    rw [narrowed]
    cases hp : place? key with
    | error e =>
      constructor
      · intro h
        cases h
      · intro h
        exact absurd (meeting_cons_of_error hp h) hk
    | ok place? =>
      cases place? with
      | none =>
        rw [meeting_cons_of_none hp]
        exact ih
      | some place =>
        rw [meeting_cons_eq_ok hp, ok_bind]
        rw [Outcome.bind_eq_ok]
        exact exists_congr fun passed => and_congr_right fun _ => ih

/-- What is said besides conditions does not count. -/
theorem narrowed_conditions (uses : List MacroUse) (spec : MacroSpec) :
    narrowed uses spec.conditions = narrowed uses spec := by
  induction spec generalizing uses with
  | nil => rfl
  | cons entry spec ih =>
    obtain ⟨key, value⟩ := entry
    have hc : MacroSpec.conditions ((key, value) :: spec) =
        if Text.startsWith key "arg" then (key, value) :: MacroSpec.conditions spec
        else MacroSpec.conditions spec := filter_cons
    rw [hc]
    split
    · simp only [narrowed, ih]
    · next hkey =>
        have hp : place? key = .ok none := by rw [place?, if_neg hkey]
        rw [ih, narrowed, hp]
        rfl

variable {s : Source} {src : Bytes} {root : Node} {name text : String} {p : Passage} {u : MacroUse}
  {found : Sections}

/-- The use is the one that the conditions leave of the uses of a macro. -/
def Chosen (src : Bytes) (root : Node) (name : String) (spec : MacroSpec) (u : MacroUse) : Prop :=
  ∃ uses, (named src root name).outcome = .ok uses ∧ narrowed uses spec = .ok [u]

theorem Chosen.mem_preorder (h : Chosen src root name spec u) : u.node ∈ root.preorder := by
  obtain ⟨uses, hu, h⟩ := h
  rw [narrowed_eq_ok_iff (cons_ne_nil u [])] at h
  exact mem_preorder_of_named hu (subset_of_meeting h mem_cons_self)

theorem Chosen.unique {v : MacroUse} (hu : Chosen src root name spec u)
    (hv : Chosen src root name spec v) : u = v := by
  obtain ⟨uses, hus, hu⟩ := hu
  obtain ⟨uses', hu', hv⟩ := hv
  cases hus.symm.trans hu'
  cases hu.symm.trans hv
  rfl

theorem macroPassage_eq_ok (hc : s.content = .ok src) (htr : s.tree = .ok root)
    (hn : spec.name = .ok name) :
    (macroPassage s spec).outcome = .ok p ↔ ∃ u, Chosen src root name spec u ∧
      ∃ text, u.node.text? src = .ok text ∧ p = ⟨text, u.line, u.line + text.toList.count '\n'⟩ := by
  rw [macroPassage, hc, htr, hn]
  constructor
  · intro h
    obtain ⟨_, ⟨⟩, h⟩ := bind_eq_ok.1 h
    obtain ⟨_, ⟨⟩, h⟩ := bind_eq_ok.1 h
    obtain ⟨_, ⟨⟩, h⟩ := bind_eq_ok.1 h
    obtain ⟨uses, hu, h⟩ := bind_eq_ok.1 h
    obtain ⟨kept, hk, h⟩ := bind_eq_ok.1 h
    split at h
    · cases h
    · next u =>
        obtain ⟨text, ht, h⟩ := bind_eq_ok.1 h
        exact ⟨u, ⟨uses, hu, hk⟩, text, ht, (Except.ok.inj h).symm⟩
    · cases h
  · rintro ⟨u, ⟨uses, hu, hk⟩, text, ht, rfl⟩
    refine bind_eq_ok.2 ⟨src, rfl, bind_eq_ok.2 ⟨name, rfl, ?_⟩⟩
    refine bind_eq_ok.2 ⟨root, rfl, ?_⟩
    exact bind_eq_ok.2 ⟨uses, hu, bind_eq_ok.2 ⟨[u], hk,
      bind_eq_ok.2 ⟨text, ht, rfl⟩⟩⟩

theorem sectioned_eq_ok : (sectioned src root name spec.conditions).outcome = .ok (u, found) ↔
      Chosen src root name spec u ∧ Marker.singleSections src u.node = .ok found := by
  unfold Chosen
  simp only [← narrowed_conditions _ spec, narrowed_eq_ok_iff (cons_ne_nil u [])]
  constructor
  · intro h
    obtain ⟨uses, hu, h⟩ := bind_eq_ok.1 h
    obtain ⟨kept, hk, h⟩ := bind_eq_ok.1 h
    split at h
    · cases h
    · obtain ⟨found', hf, h⟩ := bind_eq_ok.1 h
      cases h
      exact ⟨⟨uses, hu, hk⟩, hf⟩
    · cases h
  · rintro ⟨⟨uses, hu, hk⟩, hf⟩
    exact bind_eq_ok.2 ⟨uses, hu, bind_eq_ok.2 ⟨[u], hk,
      bind_eq_ok.2 ⟨found, hf, rfl⟩⟩⟩

/-- A description of a macro leads to a passage exactly if it leads to sections. Both come from the same
use, and the sections lie on the lines of the passage. -/
theorem macroPassage_iff_sectioned (hcontent : s.content = .ok src) (htree : s.tree = .ok root)
    (htext : Utf8.decode src = .ok text) (hparse : Node.parse src = .ok root)
    (hname : spec.name = .ok name) :
    ((∃ p, (macroPassage s spec).outcome = .ok p) ↔
      ∃ r, (sectioned src root name spec.conditions).outcome = .ok r) ∧
    ∀ p u found, (macroPassage s spec).outcome = .ok p →
      (sectioned src root name spec.conditions).outcome = .ok (u, found) →
      Chosen src root name spec u ∧ u.node.text? src = .ok p.text ∧ p.first = u.line ∧
        ∀ e ∈ found, p.first ≤ e.2.1 ∧ e.2.1 ≤ e.2.2 ∧ e.2.2 ≤ p.last := by
  have hreadable := Node.readable_of_parse htext hparse
  refine ⟨⟨?_, ?_⟩, ?_⟩
  · rintro ⟨p, hp⟩
    obtain ⟨u, hu, -⟩ := (macroPassage_eq_ok hcontent htree hname).1 hp
    obtain ⟨found, hfound⟩ := Node.exists_singleSections htext hparse hu.mem_preorder
    exact ⟨(u, found), sectioned_eq_ok.2 ⟨hu, hfound⟩⟩
  · rintro ⟨⟨u, found⟩, hr⟩
    obtain ⟨hu, -⟩ := sectioned_eq_ok.1 hr
    exact ⟨_, (macroPassage_eq_ok hcontent htree hname).2
      ⟨u, hu, _, (hreadable.of_mem_preorder hu.mem_preorder).here.text?, rfl⟩⟩
  · intro p u found hp hr
    obtain ⟨v, hv, body, hbody, rfl⟩ := (macroPassage_eq_ok hcontent htree hname).1 hp
    obtain ⟨hu, hfound⟩ := sectioned_eq_ok.1 hr
    obtain rfl := hv.unique hu
    refine ⟨hu, hbody, rfl, fun e he => ?_⟩
    have hlines := Node.lines_of_singleSections hparse hu.mem_preorder hfound e he
    have hcount := (Utf8.spells_of_decode (mapError_eq_ok.1 hbody)).newlines
    rw [hcount] at hlines
    dsimp only [line]
    omega

/-- Two uses of one macro, of which a condition chooses the second. -/
theorem macroPassage_iff_sectioned_second :
    let src := Bytes.ofString ("M(a, 1) \x7b\n  f();\n\x7d\nM(b, \"é\") \x7b\n  //@@start s\n  g();\n" ++
      "  //@@end s\n\x7d\n")
    let spec : MacroSpec := [("name", .text "M"), ("arg0", .text "b")]
    ∃ (root : Node) (p : Passage) (u : MacroUse), Node.parse src = .ok root ∧
      (macroPassage ⟨.ofString "/a.cpp", .ok src, .ok root⟩ spec).outcome = .ok p ∧
      (sectioned src root "M" spec.conditions).outcome = .ok (u, [("s", (5, 7))]) ∧
      Chosen src root "M" spec u ∧ p.first = 4 ∧ p.first ≤ 5 ∧ 7 ≤ p.last := by
  intro src spec
  have hrun : (do
      let root ← (Node.parse src).toOption
      let uses ← (walked src root ["M"]).toOption
      let kept ← (narrowed uses spec).toOption
      let u ← kept.head?
      let pass ← (Marker.scanSingle src .start
        ((u.node.walk.filter (·.kind == "comment")).insertionSort fun a b => a.start ≤ b.start)).toOption
      return (kept.length == 1 && u.line == 4 && pass.closed == [("s", (5, 7))])) = some true := by
    decide +kernel
  simp only [bind, pure, bind_eq_some_iff, toOption_eq_some, some.injEq, Bool.and_eq_true, beq_iff_eq] at hrun
  obtain ⟨root, hparse, uses, huses, kept, hkept, u, hu, pass, hpass, ⟨hlength, hline⟩, hclosed⟩ := hrun
  obtain ⟨text, htext⟩ : ∃ text, Utf8.decode src = .ok text := ⟨_, Utf8.decode_ofString _⟩
  have hnamed : (named src root "M").outcome = .ok uses := by
    rw [named_of_walked htext hparse (by decide) (by decide) huses]
    rfl
  obtain rfl : kept = [u] := by
    obtain ⟨v, rfl⟩ := length_eq_one_iff.1 hlength
    exact congrArg ([·]) (some.inj hu)
  have hchosen : Chosen src root "M" spec u := ⟨uses, hnamed, hkept⟩
  have hsections : Marker.singleSections src u.node = .ok [("s", (5, 7))] := by
    rw [Marker.singleSections, Node.comments, mergeSort_eq_insertionSort, hpass, ← hclosed]
    rfl
  have hsectioned := sectioned_eq_ok.2 ⟨hchosen, hsections⟩
  obtain ⟨hiff, hlines⟩ := macroPassage_iff_sectioned (s := ⟨.ofString "/a.cpp", .ok src, .ok root⟩)
    rfl rfl htext hparse (rfl : spec.name = .ok "M")
  obtain ⟨p, hp⟩ := hiff.2 ⟨_, hsectioned⟩
  obtain ⟨-, -, hfirst, hinside⟩ := hlines p u _ hp hsectioned
  obtain ⟨hfrom, -, hto⟩ := hinside _ mem_cons_self
  exact ⟨root, p, u, hparse, hp, hsectioned, hchosen, by rw [hfirst, hline]; rfl, hfrom, hto⟩

end Cpp

end Excerpt
