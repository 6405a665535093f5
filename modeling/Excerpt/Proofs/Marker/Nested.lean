import Excerpt.Macro.Section
import Excerpt.Proofs.Marker.Name
import Excerpt.Proofs.Proto.Directive
import Excerpt.Proofs.Text.Trim

/-!
# Nested sections

Sections are read in two ways: with every open section remembered, or with one open
at a time. Where the directives form nested pairs of distinct names, the first way
finds all pairs (`scan_nested`). The second way forgets a section as soon as another
one opens within it, so it finds the innermost pairs only (`scanSingle_nested`), and
counts the directives to them. The two ways agree if and only if no pair holds
another one.
-/

namespace Excerpt

open List Option Outcome Text Table

namespace Directive

variable {word name text : String} {w : List Char}

/-- A directive cut at its word. The word stands nowhere else, and behind it blanks and the name. -/
structure Cut (word name text : String) where
  lead : List Char
  rest : List Char
  text_eq : text.toList = lead ++ word.toList ++ rest
  lead_slash : '/' ∉ lead
  rest_slash : '/' ∉ rest
  nameAfter : nameAfterBlanks? rest = some name
  trimmed : trimBy isBlank rest = name.toList

theorem not_mem_of_isBlank {cs : List Char} (h : ∀ c ∈ cs, isBlank c) : '/' ∉ cs := by
  intro hmem
  have hs : isBlank '/' = false := by decide
  rw [h '/' hmem] at hs
  cases hs

theorem exists_cut (h : Proto.DirectiveLine word name text) (hne : name ≠ "")
    (hch : ∀ c ∈ name.toList, isNameChar c) : Nonempty (Cut word name text) := by
  obtain ⟨lead, gap, tail, hte, hgap, hl, hb, ht⟩ := h
  have hsl : '/' ∉ name.toList := by
    intro hmem
    have hn : isNameChar '/' = false := by decide
    rw [hch '/' hmem] at hn
    cases hn
  have hs : ∀ c ∈ name.toList, isBlank c = false := by
    intro c hc
    by_contra hb
    have hn := isNameChar_of_isBlank (Bool.eq_true_of_not_eq_false hb)
    rw [hch c hc] at hn
    cases hn
  refine ⟨lead, gap ++ name.toList ++ tail, by simpa using hte, not_mem_of_isBlank hl, ?_, ?_,
    trimBy_append hb (fun c hc => hs c (mem_of_head? hc)) (fun c hc => hs c (mem_of_getLast?
    hc)) ht⟩
  · simp only [mem_append, not_or]
    exact ⟨⟨not_mem_of_isBlank hb, hsl⟩, not_mem_of_isBlank ht⟩
  · have hh : (gap ++ name.toList ++ tail).head?.any isBlank := by
      cases gap with
      | nil => exact absurd rfl hgap
      | cons c gap => exact hb c mem_cons_self
    have hd : (gap ++ name.toList ++ tail).dropWhile isBlank = name.toList ++ tail := by
      rw [append_assoc, dropWhile_append_of_pos hb]
      cases hn : name.toList with
      | nil => exact absurd (String.toList_eq_nil_iff.1 hn) hne
      | cons c cs =>
        rw [hn] at hs
        simp [hs c mem_cons_self]
    rw [nameAfterBlanks?, hh, hd, (Proto.takeWhile_isNameChar_append hch ht).1]
    simp [hne]

/-- Looking for the word finds the name behind it. -/
theorem nameIn?_append {lead rest : List Char} (hl : '/' ∉ lead)
    (hn : nameAfterBlanks? rest = some name) :
    nameIn? ('/' :: w) (lead ++ ('/' :: w) ++ rest) = some name := by
  induction lead with
  | nil =>
    have hw : ('/' :: w).isPrefixOf ('/' :: w ++ rest) :=
      isPrefixOf_iff_prefix.2 (List.prefix_append _ _)
    rw [nil_append, cons_append, nameIn?, ← cons_append, if_pos hw, drop_left, hn]
  | cons c lead ih =>
    rw [mem_cons, not_or] at hl
    rw [cons_append, cons_append, nameIn?, if_neg (by simp [hl.1]), ih hl.2]

namespace Cut

theorem nameIn? (h : Cut word name text) (hw : word.toList = '/' :: w) :
    Directive.nameIn? word.toList text.toList = some name := by
  rw [h.text_eq, hw]
  exact nameIn?_append h.lead_slash h.nameAfter

theorem contains (h : Cut word name text) : Text.contains text word := by
  rw [Text.contains, hasPart_iff, h.text_eq]
  exact ⟨h.lead, h.rest, rfl⟩

/-- Behind the word stands the name, whatever blanks are around it. -/
theorem after (h : Cut word name text) (hw : word.toList = '/' :: w) : Marker.after word text = name := by
  have hp : partsFrom word.toList 0 text.toList = [h.lead, h.rest] := by
    rw [h.text_eq, hw, partsFrom_append_word h.lead_slash, partsFrom_of_not_mem h.rest_slash]
  rw [Marker.after, split, hp]
  simp [trim, h.trimmed]

theorem contains_opening (h : Cut closing name text) : Text.contains text opening = false := by
  have hc : closing.toList = ['/', '/', '@', '@', 'e', 'n', 'd'] := by decide
  have ho : opening.toList = ['/', '/', '@', '@', 's', 't', 'a', 'r', 't'] := by decide
  rw [Text.contains, h.text_eq, append_assoc, ho, hasPart_append_of_not_mem h.lead_slash, hc]
  simp [hasPart, List.isPrefixOf, hasPart_of_not_mem h.rest_slash]

theorem event?_opening (h : Cut opening name text) : event? text = some (.opens name) := by
  rw [event?, if_pos h.contains, h.nameIn? (w := "/@@start".toList) (by decide)]
  rfl

theorem event?_closing (h : Cut closing name text) : event? text = some (.closes name) := by
  rw [event?, if_neg (by simp [h.contains_opening]), if_pos h.contains,
    h.nameIn? (w := "/@@end".toList) (by decide)]
  rfl

end Cut

end Directive

namespace Node

variable {src : Bytes} {name word : String} {c : Node}

/-- The comment is the directive `word` for the name. -/
def Says (src : Bytes) (word name : String) (c : Node) : Prop :=
  ∃ text, c.text? src = .ok text ∧ Proto.DirectiveLine word name text ∧ name ≠ "" ∧
    ∀ d ∈ name.toList, Directive.isNameChar d

/-- The comment is no directive. -/
def Silent (src : Bytes) (c : Node) : Prop :=
  ∃ text, c.text? src = .ok text ∧ Text.contains text Directive.opening = false ∧
    Text.contains text Directive.closing = false

theorem Says.exists_cut (h : c.Says src word name) :
    ∃ text, c.text? src = .ok text ∧ Nonempty (Directive.Cut word name text) := by
  obtain ⟨text, ht, hl, hne, hc⟩ := h
  exact ⟨text, ht, Directive.exists_cut hl hne hc⟩

/-- Reading the name of a directive tells that the comment is one. -/
theorem says_of_directiveName? {text : String}
    (hw : ∃ d, word.toList.head? = some d ∧ isBlank d = false) (ht : c.text? src = .ok text)
    (h : Proto.directiveName? word text = some name) : c.Says src word name :=
  ⟨text, ht, (Proto.directiveName?_eq_some_iff hw).1 h⟩

end Node

namespace Marker

variable {src : Bytes} {name : String} {a b c : Node} {cs mid rest : List Node} {p : Progress}
  {s : Single}

/-! ### One comment -/

theorem scan_opening (hc : c.Says src Directive.opening name) (p : Progress) (cs : List Node) :
    (scan src p (c :: cs)).outcome = (scan src ⟨p.closed, p.openAt.put name (c.line + 1)⟩ cs).outcome := by
  obtain ⟨text, ht, ⟨cut⟩⟩ := hc.exists_cut
  rw [outcome_scan_cons ht, cut.event?_opening]
  rfl

theorem scan_closing (hc : c.Says src Directive.closing name) {first : Int}
    (ho : p.openAt.get? name = some first) (cs : List Node) : (scan src p (c :: cs)).outcome =
      (scan src ⟨p.closed.put name (first, c.line - 1), p.openAt.remove name⟩ cs).outcome := by
  obtain ⟨text, ht, ⟨cut⟩⟩ := hc.exists_cut
  rw [outcome_scan_cons ht, cut.event?_closing]
  dsimp only [Progress.step]
  rw [ho]
  rfl

theorem scan_silent (hc : c.Silent src) (p : Progress) (cs : List Node) :
    (scan src p (c :: cs)).outcome = (scan src p cs).outcome := by
  obtain ⟨text, ht, ho, hcl⟩ := hc
  have hev : Directive.event? text = none := by
    rw [Directive.event?, if_neg (by simp [ho]), if_neg (by simp [hcl])]
  rw [outcome_scan_cons ht, hev]

theorem scanSingle_cons {text : String} (ht : c.text? src = .ok text) (s : Single) (cs : List Node) :
    scanSingle src s (c :: cs) = scanSingle src (s.step c.line text) cs := by
  rw [scanSingle, ht]
  rfl

theorem scanSingle_opening (hc : c.Says src Directive.opening name) (s : Single) (cs : List Node) :
    scanSingle src s (c :: cs) = scanSingle src ⟨s.closed, some (name, c.line)⟩ cs := by
  obtain ⟨text, ht, ⟨cut⟩⟩ := hc.exists_cut
  rw [scanSingle_cons ht, Single.step, if_pos cut.contains,
    cut.after (w := "/@@start".toList) (by decide)]

theorem scanSingle_closing (hc : c.Says src Directive.closing name) (closed : Sections) (first : Int)
    (cs : List Node) : scanSingle src ⟨closed, some (name, first)⟩ (c :: cs) =
      scanSingle src ⟨closed.put name (first, c.line), none⟩ cs := by
  obtain ⟨text, ht, ⟨cut⟩⟩ := hc.exists_cut
  obtain ⟨-, -, -, hne, -⟩ := hc
  rw [scanSingle_cons ht, Single.step, if_neg (by simp [cut.contains_opening]), if_pos cut.contains,
    cut.after (w := "/@@end".toList) (by decide)]
  simp [hne]

theorem scanSingle_closing_none (hc : c.Says src Directive.closing name) (closed : Sections)
    (cs : List Node) : scanSingle src ⟨closed, none⟩ (c :: cs) = scanSingle src ⟨closed, none⟩ cs := by
  obtain ⟨text, ht, ⟨cut⟩⟩ := hc.exists_cut
  rw [scanSingle_cons ht, Single.step, if_neg (by simp [cut.contains_opening]), if_pos cut.contains]

theorem scanSingle_silent (hc : c.Silent src) (s : Single) (cs : List Node) :
    scanSingle src s (c :: cs) = scanSingle src s cs := by
  obtain ⟨text, ht, ho, hcl⟩ := hc
  rw [scanSingle_cons ht, Single.step, if_neg (by simp [ho]), if_neg (by simp [hcl])]

/-! ### Nested pairs -/

/-- Two directives that open and close a section, and whether no other pair stands between them. -/
structure Bracket where
  name : String
  opened : Node
  closed : Node
  innermost : Bool

namespace Bracket

/-- The lines strictly between the directives. -/
def between (b : Bracket) : String × Int × Int :=
  (b.name, b.opened.line + 1, b.closed.line - 1)

/-- The lines between the directives, and those of the directives. -/
def through (b : Bracket) : String × Int × Int :=
  (b.name, b.opened.line, b.closed.line)

theorem keys_between (bs : List Bracket) : Table.keys (bs.map between) = bs.map Bracket.name := by
  simp [Table.keys, between]

theorem mapValues_through (bs : List Bracket) :
    mapValues (fun lines => (lines.1 + 1, lines.2 - 1)) (bs.map through) = bs.map between := by
  simp [mapValues, through, between]

end Bracket

/-- The directives among the comments form nested pairs, listed in the order in which they are closed. -/
inductive Nested (src : Bytes) : List Node → List Bracket → Prop where
  | nil : Nested src [] []
  | silent {c : Node} {cs : List Node} {bs : List Bracket} (hc : c.Silent src) (hcs : Nested src cs bs) :
      Nested src (c :: cs) bs
  | pair {name : String} {a b : Node} {mid rest : List Node} {inner bs : List Bracket}
      (ha : a.Says src Directive.opening name) (hmid : Nested src mid inner)
      (hb : b.Says src Directive.closing name) (hrest : Nested src rest bs) :
      Nested src (a :: (mid ++ b :: rest)) (inner ++ ⟨name, a, b, inner.isEmpty⟩ :: bs)

/-- The names are not in the table. -/
def Fresh {α : Type} (bs : List Bracket) (t : Table String α) : Prop :=
  ∀ b ∈ bs, b.name ∉ t.keys

section Fresh

variable {α : Type} {bs inner : List Bracket} {x : Bracket} {t : Table String α}

theorem fresh_append_cons : Fresh (inner ++ x :: bs) t ↔ Fresh inner t ∧ x.name ∉ t.keys ∧ Fresh bs t := by
  unfold Fresh
  rw [forall_mem_append, forall_mem_cons]

theorem Fresh.put (h : Fresh bs t) (hn : name ∉ bs.map Bracket.name) (v : α) :
    Fresh bs (t.put name v) := by
  intro b hb hmem
  obtain ⟨e, he, hkey⟩ := List.mem_map.1 hmem
  rcases mem_put he with rfl | he
  · exact hn (List.mem_map.2 ⟨b, hb, hkey.symm⟩)
  · exact h b hb (List.mem_map.2 ⟨e, he, hkey⟩)

/-- Pairs of other names leave the names fresh. -/
theorem not_mem_keys_append {f : Bracket → String × α} (hf : ∀ b, (f b).1 = b.name)
    (h : x.name ∉ t.keys) (hx : x.name ∉ inner.map Bracket.name) : x.name ∉ (t ++ inner.map f).keys := by
  rw [Table.keys, map_append, List.map_map, mem_append, not_or]
  refine ⟨h, ?_⟩
  rwa [Function.comp_def, funext hf]

/-- Pairs listed by name: those in front, the one, and those behind have different names. -/
theorem nodup_append_cons (h : ((inner ++ x :: bs).map Bracket.name).Nodup) :
    (inner.map Bracket.name).Nodup ∧ (bs.map Bracket.name).Nodup ∧ x.name ∉ inner.map Bracket.name ∧
      x.name ∉ bs.map Bracket.name ∧ ∀ b ∈ bs, b.name ∉ inner.map Bracket.name := by
  rw [map_append, map_cons, nodup_append] at h
  obtain ⟨hin, hc, hne⟩ := h
  obtain ⟨hx, hbs⟩ := nodup_cons.1 hc
  exact ⟨hin, hbs, fun hmem => hne _ hmem _ mem_cons_self rfl, hx, fun b hb hmem =>
    hne _ hmem _ (mem_cons_of_mem _ (List.mem_map_of_mem hb)) rfl⟩

end Fresh

variable {bs : List Bracket}

/-- Every pair is found, and what was open before is open behind the comments. -/
theorem scan_nested (h : Nested src cs bs)
    (hd : (bs.map Bracket.name).Nodup) (p : Progress) (hcl : Fresh bs p.closed)
    (ho : Fresh bs p.openAt) (rest : List Node) : (scan src p (cs ++ rest)).outcome =
      (scan src ⟨p.closed ++ bs.map Bracket.between, p.openAt⟩ rest).outcome := by
  induction h generalizing p rest with
  | nil => simp
  | silent hc _ ih =>
    rw [cons_append, scan_silent hc]
    exact ih hd p hcl ho rest
  | @pair name a b mid behind inner bs ha _ hb _ ihmid ihrest =>
    obtain ⟨hin, hbs, hn, hn', hot⟩ := nodup_append_cons hd
    obtain ⟨hcl, hc', hc''⟩ := fresh_append_cons.1 hcl
    obtain ⟨ho, ho', ho''⟩ := fresh_append_cons.1 ho
    have hput := not_mem_keys_append (f := Bracket.between) (fun _ => rfl) hc' hn
    have hf : Fresh bs (p.closed ++ inner.map Bracket.between) := fun x hx =>
      not_mem_keys_append (fun _ => rfl) (hc'' x hx) (hot x hx)
    rw [cons_append, scan_opening ha, append_assoc, cons_append, ihmid hin ⟨p.closed, p.openAt.put name
      (a.line + 1)⟩ hcl (ho.put hn _), scan_closing hb (by rw [get?_put, if_pos rfl])]
    rw [remove_put_of_not_mem ho', ihrest hbs ⟨_, _⟩ (hf.put hn' _) ho'',
      put_of_not_mem hput]
    simp [Bracket.between]

/-- With one section open at a time the innermost pairs are found, and a pair leaves no section open. -/
theorem scanSingle_nested (h : Nested src cs bs)
    (hd : (bs.map Bracket.name).Nodup) (s : Single) (hcl : Fresh bs s.closed) (rest : List Node) :
    scanSingle src s (cs ++ rest) =
      scanSingle src ⟨s.closed ++ (bs.filter Bracket.innermost).map Bracket.through,
        if bs.isEmpty then s.current else none⟩ rest := by
  induction h generalizing s rest with
  | nil => simp
  | silent hc _ ih =>
    rw [cons_append, scanSingle_silent hc]
    exact ih hd s hcl rest
  | @pair name a b mid behind inner bs ha _ hb _ ihmid ihrest =>
    obtain ⟨hin, hbs, hn, hn', ho⟩ := nodup_append_cons hd
    obtain ⟨hcl, hc', hc''⟩ := fresh_append_cons.1 hcl
    rw [cons_append, scanSingle_opening ha, append_assoc, cons_append,
      ihmid hin ⟨s.closed, some (name, a.line)⟩ hcl]
    cases hem : inner.isEmpty with
    | true =>
      -- nothing was opened in between, so the section is still the open one
      cases List.isEmpty_iff.1 hem
      have hput : name ∉ s.closed.keys := hc'
      simp only [filter_nil, map_nil, append_nil, if_true]
      rw [scanSingle_closing hb, ihrest hbs ⟨_, _⟩ (hc''.put hn' _), put_of_not_mem hput]
      simp [Bracket.through]
    | false =>
      have hf : Fresh bs (s.closed ++ (inner.filter Bracket.innermost).map Bracket.through) :=
        fun x hx => not_mem_keys_append (fun _ => rfl) (hc'' x hx) fun hmem =>
          ho x hx ((filter_sublist.map _).subset hmem)
      simp only [Bool.false_eq_true, if_false]
      rw [scanSingle_closing_none hb, ihrest hbs ⟨_, _⟩ hf]
      simp [filter_append]

/-- Where the directives form nested pairs of distinct names, all pairs are found with every open section
remembered, and the innermost ones with one open at a time. The lines that are found both ways
differ by those of the directives, and all are found both ways if and only if no pair holds another. -/
theorem sections_agree_iff_innermost {n : Node} {bs : List Bracket} (hnested : Nested src n.comments bs)
    (hdistinct : (bs.map Bracket.name).Nodup) :
    ∃ found single, (sections src n).outcome = .ok found ∧ singleSections src n = .ok single ∧
      found = bs.map Bracket.between ∧ single = (bs.filter Bracket.innermost).map Bracket.through ∧
      (∀ name first last, single.get? name = some (first, last) →
        found.get? name = some (first + 1, last - 1)) ∧
      ((∀ name, found.get? name = (single.get? name).map fun lines => (lines.1 + 1, lines.2 - 1)) ↔
        ∀ b ∈ bs, b.innermost = true) := by
  have hscan := scan_nested hnested hdistinct .start (by simp [Fresh, Progress.start, Table.keys])
    (by simp [Fresh, Progress.start, Table.keys]) []
  have hsingle := scanSingle_nested hnested hdistinct .start (by simp [Fresh, Single.start, Table.keys]) []
  rw [append_nil] at hscan hsingle
  refine ⟨_, _, ?_, ?_, rfl, rfl, ?_, ?_⟩
  · rw [outcome_sections, hscan]
    rfl
  · rw [singleSections, hsingle]
    rfl
  · intro name first last hget
    have hmem : (name, first + 1, last - 1) ∈ (bs.filter Bracket.innermost).map Bracket.between := by
      refine Table.mem_of_get?_eq_some ?_
      rw [← Bracket.mapValues_through, Table.get?_mapValues, hget]
      rfl
    rw [Table.get?_eq_some_iff (Bracket.keys_between bs ▸ hdistinct)]
    exact (filter_sublist.map _).subset hmem
  · simp only [← Table.get?_mapValues, Bracket.mapValues_through]
    constructor
    · intro hagree b hb
      have hget := (Table.get?_eq_some_iff (Bracket.keys_between bs ▸ hdistinct)).2
        (List.mem_map_of_mem (f := Bracket.between) hb)
      obtain ⟨b', hb', heq⟩ := List.mem_map.1 (Table.mem_of_get?_eq_some ((hagree _).symm.trans hget))
      obtain ⟨hmem, hinnermost⟩ := mem_filter.1 hb'
      rwa [inj_on_of_nodup_map hdistinct hmem hb (congrArg Prod.fst heq)] at hinnermost
    · intro hall name
      rw [filter_eq_self.2 hall]

theorem sections_agree_iff_innermost_inner :
    let src := Bytes.ofString ("int é;\r\n//@@start a\r\nint x; // é\r\n//@@start b-1\r\nint y;\r\n" ++
      "//@@end b-1 \r\nint z;\r\n//@@end a\r\n//@@start c\n//@@end c")
    ∃ (root : Node) (bs : List Bracket) (found single : Sections), Node.parse src = .ok root ∧
      Nested src root.comments bs ∧ bs.map Bracket.name = ["b-1", "a", "c"] ∧
      (sections src root).outcome = .ok found ∧ singleSections src root = .ok single ∧
      found.get? "a" = some (3, 7) ∧ single.get? "a" = none ∧
      found.get? "b-1" = some (5, 5) ∧ single.get? "b-1" = some (4, 6) := by
  intro src
  have hrun : (do
      let root ← (Node.parse src).toOption
      return ((root.walk.filter (·.kind == "comment")).insertionSort fun a b => a.start ≤ b.start).map
        fun c => ((c.text? src).toOption, c.startRow)) =
      some [(some "//@@start a\r", 1), (some "// é\r", 2), (some "//@@start b-1\r", 3),
        (some "//@@end b-1 \r", 5), (some "//@@end a\r", 7), (some "//@@start c", 8),
        (some "//@@end c", 9)] := by
    decide +kernel
  obtain ⟨root, hroot, hrun⟩ := bind_eq_some_iff.1 hrun
  rw [← Node.comments_eq_insertionSort] at hrun
  simp only [pure, some.injEq, map_eq_cons_iff, map_eq_nil_iff, Prod.mk.injEq, toOption_eq_some] at hrun
  obtain ⟨a, _, hcs, ⟨ha, hrow⟩, d, _, rfl, ⟨hd, -⟩, b, _, rfl, ⟨hb, hrowb⟩, b', _, rfl, ⟨hb', hrowb'⟩,
    a', _, rfl, ⟨ha', hrow'⟩, c, _, rfl, ⟨hc, -⟩, c', _, rfl, ⟨hc', -⟩, rfl⟩ := hrun
  have hopening : ∀ {x : Node} {name text : String}, x.text? src = .ok text →
      Proto.directiveName? Directive.opening text = some name → x.Says src Directive.opening name :=
    Node.says_of_directiveName? Proto.head_opening
  have hclosing : ∀ {x : Node} {name text : String}, x.text? src = .ok text →
      Proto.directiveName? Directive.closing text = some name → x.Says src Directive.closing name :=
    Node.says_of_directiveName? Proto.head_closing
  have hnested : Nested src root.comments
      [⟨"b-1", b, b', true⟩, ⟨"a", a, a', false⟩, ⟨"c", c, c', true⟩] := by
    rw [hcs]
    exact .pair (hopening ha (by decide)) (.silent ⟨_, hd, by decide, by decide⟩
      (.pair (hopening hb (by decide)) .nil (hclosing hb' (by decide)) .nil)) (hclosing ha' (by decide))
      (.pair (hopening hc (by decide)) .nil (hclosing hc' (by decide)) .nil)
  obtain ⟨found, single, hfound, hsingle, rfl, rfl, -, -⟩ := sections_agree_iff_innermost hnested (by simp)
  refine ⟨root, _, _, _, toOption_eq_some.1 hroot, hnested, rfl, hfound, hsingle, ?_, ?_, ?_, ?_⟩
  · simp [Table.get?, Bracket.between, Node.line, hrow, hrow']
  · simp [Table.get?, Bracket.through]
  · simp [Table.get?, Bracket.between, Node.line, hrowb, hrowb']
  · simp [Table.get?, Bracket.through, Node.line, hrowb, hrowb']

end Marker

end Excerpt
