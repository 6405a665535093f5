import Excerpt.Extract
import Excerpt.Proofs.Grammar.Descendant
import Excerpt.Proofs.Macro.Walk
import Excerpt.Proofs.Marker.Name

/-!
# Sections of functions and of files

A marked section can be asked for in a whole source or in the functions of a name. If
its directives are a pair and one of the functions covers both, the section is found in
that function as it is in the source: the comments below a function are those that it
covers, and every other function of the name has either both directives or no section.
-/

namespace Excerpt

open List Option Outcome Report

namespace Node

variable {src : Bytes} {text s marker : String} {a b c d n root : Node}

theorem children_of_comment (h : c.WellFormed src) (hk : c.kind = "comment") : c.children = [] := by
  cases h.form with
  | comment ht => rfl
  | flat hki => rfl
  | symbol hki => rfl
  | list hki | record hki | variableDeclarator hki => exact Form.absurd_kind hki hk (by decide)
  | _ => simp at hk

/-- A comment with a directive is not empty. -/
theorem start_lt_stop_of_text {event : Directive.Event} (h : c.text? src = .ok text)
    (he : Directive.event? text = some event) : c.start < c.stop := by
  by_contra hle
  have hnil : c.text src = [] := by
    rw [Node.text, Bytes.slice]
    exact drop_eq_nil_of_le (Nat.le_trans (length_take_le _ _) (Nat.not_lt.1 hle))
  rw [Node.text?, hnil, Bytes.text?, Utf8.Spells.nil.decode] at h
  cases h
  have hn : Directive.event? "" = none := by decide
  rw [hn] at he
  cases he

/-- Comments with directives that start at the same place are the same. -/
theorem text?_of_start (hc : c.WellFormed src) (hd : d.WellFormed src) (hck : c.kind = "comment")
    (hdk : d.kind = "comment") (hclt : c.start < c.stop) (hdlt : d.start < d.stop)
    (hs : c.start = d.start) : c.text? src = d.text? src := by
  obtain ⟨t, ht, hcs⟩ := hc.form.span_of_comment hck
  obtain ⟨u, hu, hds⟩ := hd.form.span_of_comment hdk
  have heq : t = u := by
    by_contra hne
    have ha := apart_of_pairwise (Token.pairwise_scan src) ht hu hne
    rw [start, stop, hcs] at hclt
    rw [start, stop, hds] at hdlt
    rw [start, start, hcs, hds] at hs
    simp only [Token.span] at hclt hdlt hs
    omega
  rw [Node.text?, Node.text?, Node.text, Node.text, start, stop, start, stop, hcs, hds, heq]

/-- Of the comments of a tree, `a` alone opens the section, and of those behind it `b` alone closes it. -/
structure Marked (src : Bytes) (marker : String) (root a b : Node) : Prop where
  opens_mem : a ∈ root.comments
  closes_mem : b ∈ root.comments
  opens : ∀ c ∈ root.comments, c.Opens src marker ↔ c = a
  closes : ∀ c ∈ root.comments, c.Closes src marker ∧ a.start < c.start ↔ c = b

section Parsed

variable (htext : Utf8.decode src = .ok text) (hparse : parse src = .ok root)

include htext hparse

theorem exists_text?_of_mem_comments (hn : n ∈ root.preorder) (hc : c ∈ n.comments) :
    ∃ s, c.text? src = .ok s :=
  ⟨_, ((readable_of_parse htext hparse).of_mem_preorder
    (mem_preorder_trans hn (mem_comments.1 hc).1)).here.text?⟩

theorem Marked.pair (h : Marked src marker root a b) (hn : n ∈ root.preorder) :
    Marker.Pair src marker a b n.comments := by
  obtain ⟨atext, hat, ha⟩ := (h.opens a h.opens_mem).2 rfl
  have hb : ∀ c ∈ n.comments, c ∈ root.comments := fun c hc =>
    mem_comments.2 ⟨mem_preorder_trans hn (mem_comments.1 hc).1, (mem_comments.1 hc).2⟩
  refine ⟨((h.closes b h.closes_mem).2 rfl).2, pairwise_comments n, fun c hc => exists_text?_of_mem_comments
    htext hparse hn hc, fun c hc => h.opens c (hb c hc), fun c hc hcl => ?_⟩
  obtain ⟨ctext, hct, hce⟩ := hcl
  rcases Nat.lt_trichotomy a.start c.start with hlt | heq | hlt
  · exact .inl ((h.closes c (hb c hc)).1 ⟨⟨ctext, hct, hce⟩, hlt⟩)
  · -- a comment has one directive, so it does not both open and close the section
    have hw := parse_wellFormed hparse
    obtain ⟨ham, hak⟩ := mem_comments.1 h.opens_mem
    obtain ⟨hcm, hck⟩ := mem_comments.1 (hb c hc)
    have hs := text?_of_start (hw.of_mem_preorder ham) (hw.of_mem_preorder hcm) hak
      hck (start_lt_stop_of_text hat ha) (start_lt_stop_of_text hct hce) heq
    rw [hat, hct, Except.ok.injEq] at hs
    rw [hs, hce] at ha
    cases ha
  · exact .inr hlt

omit htext in
theorem mem_comments_of_covers {event : Directive.Event} (hn : n ∈ root.preorder)
    (hc : c ∈ root.comments) (hct : c.text? src = .ok s) (hev : Directive.event? s = some event)
    (hco : n.Covers c) : c ∈ n.comments := by
  obtain ⟨hmem, hk⟩ := mem_comments.1 hc
  have hch := children_of_comment ((parse_wellFormed hparse).of_mem_preorder hmem) hk
  exact mem_comments.2 ⟨(every_layout_of_parse hparse).mem_preorder_of_covers hn hmem hch
    (start_lt_stop_of_text hct hev) hco, hk⟩

end Parsed

end Node

namespace Cpp

open Node

variable {src : Bytes} {t : Target} {functions : Bool} {scope lines : List String} {m root : Node}
  {s : Source} {marker name : String} {first last : Int} {ns : List Node} {found : Sections}

mutual

theorem mem_preorder_of_collect : ∀ (n : Node) {scope : List String} {found : List Node},
    collect functions t src scope n = .ok found → m ∈ found → m ∈ n.preorder
  | ⟨kind, range, children, fields⟩, scope, found, h, hm => by
      rw [preorder]
      unfold collect at h
      split at h
      · obtain ⟨names, -, h⟩ := Outcome.bind_eq_ok.1 h
        split at h
        · exact mem_cons_of_mem _ (mem_preorder_of_collectInBody children _ h hm)
        · cases h
          cases hm
      · split at h
        · obtain ⟨name, -, h⟩ := Outcome.bind_eq_ok.1 h
          split at h
          · exact mem_cons_of_mem _ (mem_preorder_of_collectInRecord children h hm)
          · cases h
            cases hm
        · split at h
          · obtain ⟨hits, -, h⟩ := Outcome.bind_eq_ok.1 h
            cases h
            rw [eq_of_mem_replicate hm]
            exact mem_cons_self
          · have hr : ∀ {hit : Bool}, (do
                return (if hit then [⟨kind, range, children, fields⟩] else []) ++
                  (← collectAmong functions t src scope children)) = Except.ok found →
                m ∈ (⟨kind, range, children, fields⟩ : Node) :: preorderAll children := by
              intro hit h
              obtain ⟨inside, hin, h⟩ := Outcome.bind_eq_ok.1 h
              cases h
              rcases mem_append.1 hm with hm | hm
              · cases hit with
                | false => cases hm
                | true => exact mem_cons.2 (.inl (mem_singleton.1 hm))
              · exact mem_cons_of_mem _ (mem_preorder_of_collectAmong children hin hm)
            split at h
            · obtain ⟨hit, -, h⟩ := Outcome.bind_eq_ok.1 h
              exact hr h
            · exact hr h

theorem mem_preorder_of_collectAmong : ∀ (ns : List Node) {scope : List String} {found : List Node},
    collectAmong functions t src scope ns = .ok found → m ∈ found → m ∈ preorderAll ns
  | [], _, _, h, hm => by
      cases h
      cases hm
  | n :: ns, scope, found, h, hm => by
      obtain ⟨here, hh, h⟩ := Outcome.bind_eq_ok.1 h
      obtain ⟨more, hmo, h⟩ := Outcome.bind_eq_ok.1 h
      cases h
      rw [preorderAll, mem_append]
      exact (mem_append.1 hm).imp (mem_preorder_of_collect n hh) (mem_preorder_of_collectAmong ns hmo)

theorem mem_preorder_of_collectInBody : ∀ (ns : List Node) (i : Nat) {scope : List String}
    {found : List Node}, collectInBody functions t src scope i ns = .ok found → m ∈ found → m ∈ preorderAll ns
  | [], _, _, _, h, hm => by
      cases h
      cases hm
  | ⟨kind, range, children, fields⟩ :: ns, i, scope, found, h, hm => by
      rw [preorderAll, mem_append, preorder]
      unfold collectInBody at h
      cases i with
      | zero =>
        dsimp only at h
        split at h
        · exact .inl (mem_cons_of_mem _ (mem_preorder_of_collectAmong children h hm))
        · cases h
          cases hm
      | succ i => exact .inr (mem_preorder_of_collectInBody ns i h hm)

theorem mem_preorder_of_collectInRecord : ∀ (ns : List Node) {scope : List String}
    {found : List Node}, collectInRecord functions t src scope ns = .ok found → m ∈ found → m ∈ preorderAll ns
  | [], _, _, h, hm => by
      cases h
      cases hm
  | ⟨kind, range, children, fields⟩ :: ns, scope, found, h, hm => by
      rw [preorderAll, mem_append, preorder]
      unfold collectInRecord at h
      split at h
      · obtain ⟨here, hh, h⟩ := Outcome.bind_eq_ok.1 h
        obtain ⟨more, hmo, h⟩ := Outcome.bind_eq_ok.1 h
        cases h
        refine (mem_append.1 hm).imp (fun hm => ?_) (mem_preorder_of_collectInRecord ns hmo)
        exact mem_cons_of_mem _ (mem_preorder_of_collectAmong children hh hm)
      · exact .inr (mem_preorder_of_collectInRecord ns h hm)

end

/-- The section that one of some nodes has, if no other one has another section of the name. -/
theorem outcome_sectionAmong {n : Node} (hl : s.lines = .ok lines)
    (ht : ∀ n ∈ ns, ∃ text, n.text? src = .ok text)
    (hall : ∀ n ∈ ns, ∃ found, (Marker.sections src n).outcome = .ok found ∧
      (found.get? marker = some (first, last) ∨ found.get? marker = none)) (hn : n ∈ ns)
    (hf : (Marker.sections src n).outcome = .ok found)
    (hget : found.get? marker = some (first, last)) (count : Nat) :
    (sectionAmong s src name marker count ns).outcome = .ok (Passage.ofLines lines first last) := by
  induction ns with
  | nil => cases hn
  | cons d ns ih =>
    obtain ⟨⟨text, htext⟩, ht⟩ := forall_mem_cons.1 ht
    obtain ⟨⟨here, hh, hc⟩, hall⟩ := forall_mem_cons.1 hall
    rw [sectionAmong, htext]
    refine bind_eq_ok.2 ⟨text, rfl, bind_eq_ok.2 ⟨here, hh, ?_⟩⟩
    rcases hc with hs | hno
    · rw [hs, isSome_some, if_pos rfl]
      exact outcome_nodeSection hh hs hl _
    · rw [hno, isSome_none, if_neg Bool.false_ne_true]
      refine ih ht hall ((mem_cons.1 hn).resolve_left ?_)
      rintro rfl
      cases hf.symm.trans hh
      rw [hget] at hno
      cases hno

theorem outcome_functionSection
    (hc : s.content = .ok src) (ht : s.tree = .ok root)
    (hf : findAll src root name ["function_definition"] = .ok ns) (hns : ns ≠ []) :
    (functionSection s name marker).outcome = (sectionAmong s src name marker ns.length ns).outcome := by
  rw [functionSection, onTree, hc, ht]
  change Report.outcome (liftM (findAll src root name ["function_definition"]) >>= _) = _
  rw [hf, outcome_bind]
  cases ns with
  | nil => exact absurd rfl hns
  | cons n ns => rfl

theorem outcome_commentSection (hc : s.content = .ok src) (ht : s.tree = .ok root)
    (hl : s.lines = .ok lines) (hf : (Marker.sections src root).outcome = .ok found)
    (hget : found.get? marker = some (first, last)) :
    (s.commentSection marker).outcome = .ok (Passage.ofLines lines first last) := by
  rw [Source.commentSection, Source.commentSections, onTree, hc, ht]
  refine bind_eq_ok.2 ⟨found, hf, ?_⟩
  rw [hget]
  dsimp only
  rw [Source.linePassage, hl]
  rfl

/-- A section whose directives are a pair, both covered by a function of the name, is the same passage
whether it is asked for in the functions of the name or in the source. -/
theorem functionSection_eq_commentSection {s : Source} {text marker name : String}
    {a b n root : Node} {ns : List Node} (hcontent : s.content = .ok src) (htree : s.tree = .ok root)
    (htext : Utf8.decode src = .ok text) (hparse : Node.parse src = .ok root)
    (hmarked : Marked src marker root a b)
    (hfound : findAll src root name ["function_definition"] = .ok ns) (hn : n ∈ ns)
    (hna : n.Covers a) (hnb : n.Covers b) :
    ∃ p, (functionSection s name marker).outcome = .ok p ∧ (s.commentSection marker).outcome = .ok p ∧
      p = Passage.ofLines (Text.lines (Text.unifyEnds text)) (a.startRow + 2) b.startRow := by
  have hlines := Source.lines_eq_ok hcontent htext
  have hreadable := readable_of_parse htext hparse
  have hmem : ∀ m ∈ ns, m ∈ root.preorder := fun m hm => mem_preorder_of_collect root hfound hm
  obtain ⟨atext, hatext, haevent⟩ := (hmarked.opens a hmarked.opens_mem).2 rfl
  obtain ⟨⟨btext, hbtext, hbevent⟩, -⟩ := (hmarked.closes b hmarked.closes_mem).2 rfl
  have hsections := fun m hm =>
    (hmarked.pair (n := m) htext hparse hm).exists_sections ⟨btext, hbtext, hbevent⟩
  refine ⟨_, ?_, ?_, rfl⟩
  · obtain ⟨found, hsome, hget, -⟩ := hsections n (hmem n hn)
    have hget := hget ⟨mem_comments_of_covers hparse (hmem n hn) hmarked.opens_mem hatext haevent hna,
      mem_comments_of_covers hparse (hmem n hn) hmarked.closes_mem hbtext hbevent hnb⟩
    rw [outcome_functionSection hcontent htree hfound (ne_nil_of_mem hn)]
    refine outcome_sectionAmong hlines (fun m hm => ⟨_, (hreadable.of_mem_preorder (hmem m hm)).here.text?⟩)
      (fun m hm => ?_) hn hsome hget ns.length
    obtain ⟨here, hhere, hboth, hnone⟩ := hsections m (hmem m hm)
    by_cases hm : a ∈ m.comments ∧ b ∈ m.comments
    · exact ⟨here, hhere, .inl (hboth hm)⟩
    · exact ⟨here, hhere, .inr (hnone hm)⟩
  · obtain ⟨found, hsome, hget, -⟩ := hsections root (mem_preorder_self root)
    exact outcome_commentSection hcontent htree hlines hsome (hget ⟨hmarked.opens_mem, hmarked.closes_mem⟩)

/-- The second of two overloads has the section; the directive above both closes nothing. -/
theorem functionSection_eq_commentSection_overload :
    let src := Bytes.ofString ("//@@end m\r\nvoid f(int a) \x7b\r\n\x7d\r\nvoid f() \x7b\r\n  //@@start m\r\n" ++
      "  h(\"é\");\r\n  //@@end m\r\n\x7d\r\n")
    ∃ (root a b n : Node) (ns : List Node), Node.parse src = .ok root ∧ Marked src "m" root a b ∧
      findAll src root "f" ["function_definition"] = .ok ns ∧ n ∈ ns ∧ n.Covers a ∧ n.Covers b ∧
      (functionSection ⟨.ofString "/a.cpp", .ok src, .ok root⟩ "f" "m").outcome =
        .ok ⟨"  h(\"é\");", 6, 6⟩ ∧
      (Source.commentSection ⟨.ofString "/a.cpp", .ok src, .ok root⟩ "m").outcome =
        .ok ⟨"  h(\"é\");", 6, 6⟩ := by
  intro src
  have hrun : (do
      let root : Node ← (Node.parse src).toOption
      let ns : List Node ← (findAll src root "f" ["function_definition"]).toOption
      let n : Node ← ns[1]?
      let b : Node ← (root.walk.filter (·.kind == "comment"))[0]?
      let a : Node ← (root.walk.filter (·.kind == "comment"))[1]?
      let c : Node ← (root.walk.filter (·.kind == "comment"))[2]?
      let atext : String ← (a.text? src).toOption
      let btext : String ← (b.text? src).toOption
      let ctext : String ← (c.text? src).toOption
      return (root.walk.filter (·.kind == "comment")).length == 3 &&
        Directive.event? atext == some (.opens "m") && Directive.event? btext == some (.closes "m") &&
        Directive.event? ctext == some (.closes "m") && decide (c.start < a.start) &&
        decide (n.start ≤ a.start) && decide (a.stop ≤ b.start) && decide (b.stop ≤ n.stop) &&
        a.startRow == 4 && b.startRow == 6) = some true := by
    decide +kernel
  obtain ⟨text, htext, hpassage⟩ : ∃ text, Utf8.decode src = .ok text ∧
      Passage.ofLines (Text.lines (Text.unifyEnds text)) 6 6 = ⟨"  h(\"é\");", 6, 6⟩ :=
    ⟨_, Utf8.decode_eq_lossy _, by
      rw [Text.unifyEnds, Text.lines, Utf8.decodeLossy, String.toList_ofList, String.toList_ofList]
      decide +kernel⟩
  simp only [bind, pure, bind_eq_some_iff, toOption_eq_some, some.injEq, Bool.and_eq_true, beq_iff_eq,
    decide_eq_true_eq] at hrun
  obtain ⟨root, hparse, ns, hfound, n, hn, b, hb, a, ha, c, hc, atext, hatext, btext, hbtext, ctext, hctext,
    ⟨⟨⟨⟨⟨⟨⟨⟨hlength, haevent⟩, hbevent⟩, hcevent⟩, hca⟩, hna⟩, hab⟩, hbn⟩, harow⟩, hbrow⟩ := hrun
  have hlt := start_lt_stop_of_text hatext haevent
  have hlt' := start_lt_stop_of_text hbtext hbevent
  have hcomments : ∀ d, d ∈ root.comments ↔ d = b ∨ d = a ∨ d = c := by
    intro d
    obtain ⟨x, y, z, hxyz⟩ := length_eq_three.1 hlength
    rw [hxyz] at ha hb hc
    cases ha
    cases hb
    cases hc
    rw [comments, mem_mergeSort, hxyz]
    simp
  have hba : b ≠ a := by
    rintro rfl
    omega
  have hca' : c ≠ a := by
    rintro rfl
    omega
  have hcb : c ≠ b := by
    rintro rfl
    omega
  have hmarked : Marked src "m" root a b := by
    refine ⟨(hcomments a).2 (by simp), (hcomments b).2 (by simp), fun d hd => ?_, fun d hd => ?_⟩
    · rcases (hcomments d).1 hd with hd | hd | hd
      · rw [hd, opens_iff hbtext, hbevent]
        simp [hba]
      · rw [hd, opens_iff hatext, haevent]
        simp
      · rw [hd, opens_iff hctext, hcevent]
        simp [hca']
    · rcases (hcomments d).1 hd with hd | hd | hd
      · rw [hd, closes_iff hbtext, hbevent]
        simp only [true_and, iff_true]
        omega
      · rw [hd, closes_iff hatext, haevent]
        simp [hba.symm]
      · rw [hd, closes_iff hctext, hcevent]
        simp only [true_and, hcb, iff_false]
        omega
  have hna : n.Covers a := ⟨hna, by omega⟩
  have hnb : n.Covers b := ⟨by omega, hbn⟩
  obtain ⟨p, hfunction, hcomment, rfl⟩ :=
    functionSection_eq_commentSection (s := ⟨.ofString "/a.cpp", .ok src, .ok root⟩) rfl rfl
      htext hparse hmarked hfound (mem_of_getElem? hn) hna hnb
  rw [harow, hbrow] at hfunction hcomment
  exact ⟨root, a, b, n, ns, hparse, hmarked, hfound, mem_of_getElem? hn, hna, hnb,
    hpassage ▸ hfunction, hpassage ▸ hcomment⟩

end Cpp

end Excerpt
