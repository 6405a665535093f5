import Excerpt.Proofs.Macro.Choice
import Excerpt.Proofs.Marker.Single

/-!
# The lines of a section in a macro use

The section of a use is given with its text and its lines. The text is made of the
lines strictly between the two directives, where these stand on lines of their own
(`withoutDirectives_between`). The lines are those of the directives themselves, so
they are never the lines that the text is made of.
-/

namespace Excerpt

open List Option Outcome Report Passage

/-- The comment stands alone on its row, up to blanks. -/
def Node.Alone (src : Bytes) (text : String) (c : Node) : Prop :=
  ∃ row body, (Text.split "\n" text)[c.startRow]? = some row ∧ c.text? src = .ok body ∧
    Text.trim row = Text.trim body

namespace Text

theorem exists_line_of_contains {text row word : String} {r : Nat} (hp : plainEnds text.toList)
    (hrow : (split "\n" text)[r]? = some row) (hw : contains row word) (hne : word ≠ "") :
    ∃ line, (lines text)[r]? = some line ∧
      ∀ other : String, other ≠ "" → (∀ c ∈ other.toList, isBlank c = false) →
        contains line other = contains row other := by
  have hsep : "\n".toList = ['\n'] := by decide
  have hr : ∀ c ∈ ['\r'], isBlank c := by simpa using (by decide : isBlank '\r')
  rw [split, hsep, getElem?_map, map_eq_some_iff] at hrow
  obtain ⟨cs, hcs, rfl⟩ := hrow
  have hnil : cs ≠ [] := by
    rintro rfl
    rw [contains, hasPart_iff, String.toList_ofList, infix_nil] at hw
    exact hne (String.toList_eq_nil_iff.1 hw)
  obtain ⟨line, hl, hen⟩ := exists_line_of_row hp hcs hnil
  refine ⟨String.ofList line, by rw [lines, getElem?_map, hl]; rfl, fun other ho hs => ?_⟩
  rcases hen with rfl | rfl
  · rfl
  · rw [Bool.eq_iff_iff, contains, contains, hasPart_iff, hasPart_iff, String.toList_ofList,
      String.toList_ofList]
    exact (infix_append_iff (by simpa using ho) hs hr).symm

/-- Lines joined are told apart by their number, if there are two at least. -/
theorem join_ne_of_length {ls ms : List String} (hls : ∀ l ∈ ls, '\n' ∉ l.toList)
    (hms : ∀ m ∈ ms, '\n' ∉ m.toList) (htwo : 2 ≤ ms.length) (hl : ls.length ≠ ms.length) :
    join "\n" ls ≠ join "\n" ms := by
  intro heq
  have hsep : "\n".toList = ['\n'] := by decide
  have hcut : split "\n" (join "\n" ms) = ms := split_join hsep (by rintro rfl; cases htwo) hms
  cases ls with
  | nil =>
    have hone : split "\n" (join "\n" ms) = [""] := by
      rw [← heq]
      rfl
    rw [← hcut, hone] at htwo
    exact absurd htwo (by decide)
  | cons l ls =>
    rw [← heq, split_join hsep (cons_ne_nil l ls) hls] at hcut
    exact hl (congrArg List.length hcut)

end Text

namespace MacroUse

variable {lines : List String} {i j : Nat} {opened closed : String}

/-- The lines between two directives are left of the lines from the one to the other. -/
theorem withoutDirectives_between (hij : i < j) (hi : lines[i]? = some opened)
    (hj : lines[j]? = some closed) (ho : Text.contains opened Directive.opening)
    (hc : Text.contains closed Directive.closing) :
    withoutDirectives ((lines.take (j + 1)).drop i) = (lines.take j).drop (i + 1) := by
  have hl := (List.getElem?_eq_some_iff.1 hj).1
  have hh : ((lines.take (j + 1)).drop i).head? = some opened := by
    rw [head?_drop, getElem?_take_of_lt (by omega), hi]
  have hd : (lines.take (j + 1)).drop (i + 1) = (lines.take j).drop (i + 1) ++ [closed] := by
    rw [take_add_one, hj, toList_some, drop_append_of_le_length]
    rw [length_take]
    omega
  rw [withoutDirectives, hh, any_some, if_pos ho, drop_drop, hd]
  simp [hc]

end MacroUse

namespace Directive

theorem isBlank_of_mem_opening : ∀ c ∈ opening.toList, Text.isBlank c = false := by
  have hall : (opening.toList.all fun c => !Text.isBlank c) := by decide
  simpa using hall

theorem isBlank_of_mem_closing : ∀ c ∈ closing.toList, Text.isBlank c = false := by
  have hall : (closing.toList.all fun c => !Text.isBlank c) := by decide
  simpa using hall

end Directive

/-- A directive alone on its row makes a line that mentions the same directive words. -/
theorem Node.Alone.exists_line {src : Bytes} {text body : String} {c : Node} (h : c.Alone src text)
    (hp : Text.plainEnds text.toList) (hb : c.text? src = .ok body)
    (hwo : Text.contains body Directive.opening = true ∨ Text.contains body Directive.closing) :
    ∃ line, (Text.lines text)[c.startRow]? = some line ∧
      Text.contains line Directive.opening = Text.contains body Directive.opening ∧
      Text.contains line Directive.closing = Text.contains body Directive.closing := by
  obtain ⟨row, body', hrow, hb', ht⟩ := h
  cases hb.symm.trans hb'
  have ho := Text.contains_eq_of_trim_eq ht (by decide) Directive.isBlank_of_mem_opening
  have hc := Text.contains_eq_of_trim_eq ht (by decide) Directive.isBlank_of_mem_closing
  rw [← ho, ← hc] at hwo ⊢
  have hl : ∃ line, (Text.lines text)[c.startRow]? = some line ∧
      ∀ other : String, other ≠ "" → (∀ c ∈ other.toList, Text.isBlank c = false) →
        Text.contains line other = Text.contains row other := by
    rcases hwo with hw | hw
    · exact Text.exists_line_of_contains hp hrow hw (by decide)
    · exact Text.exists_line_of_contains hp hrow hw (by decide)
  obtain ⟨line, hl, hs⟩ := hl
  exact ⟨line, hl, hs _ (by decide) Directive.isBlank_of_mem_opening,
    hs _ (by decide) Directive.isBlank_of_mem_closing⟩

namespace Cpp

open MacroUse

variable {s : Source} {src : Bytes} {root : Node} {name text marker body : String} {spec : MacroSpec}
  {p : Passage} {u : MacroUse}

/-- The lines of a section, its directives left out, joined. -/
def shownText (text : String) (lines : Int × Int) : String :=
  Text.join "\n"
    (withoutDirectives (((Text.lines text).take lines.2.toNat).drop (lines.1 - 1).toNat))

theorem sectionText_eq_ok (ht : Utf8.decode src = .ok text) :
    (sectionText src root name marker spec.conditions).outcome = .ok body ↔
      ∃ u found lines, Chosen src root name spec u ∧ Marker.singleSections src u.node = .ok found ∧
        found.get? marker = some lines ∧ body = shownText text lines := by
  have hre : src.text? = .ok text := mapError_eq_ok.2 ht
  constructor
  · intro h
    obtain ⟨⟨u, found⟩, hr, h⟩ := bind_eq_ok.1 h
    obtain ⟨hu, hf⟩ := sectioned_eq_ok.1 hr
    dsimp only at h
    split at h
    · cases h
    · next first last hget =>
        obtain ⟨text', ht', h⟩ := bind_eq_ok.1 h
        cases ht'.symm.trans hre
        exact ⟨u, found, (first, last), hu, hf, hget, (Except.ok.inj h).symm⟩
  · rintro ⟨u, found, lines, hu, hf, hget, rfl⟩
    refine bind_eq_ok.2 ⟨(u, found), sectioned_eq_ok.2 ⟨hu, hf⟩, ?_⟩
    dsimp only
    rw [hget]
    exact bind_eq_ok.2 ⟨text, hre, rfl⟩

theorem macroSection_eq_ok (hc : s.content = .ok src) (htr : s.tree = .ok root)
    (hn : spec.name = .ok name) (ht : Utf8.decode src = .ok text) (hu : Chosen src root name spec u) :
    (macroSection s spec marker).outcome = .ok p ↔
      ∃ found lines, Marker.singleSections src u.node = .ok found ∧ found.get? marker = some lines ∧
        p = ⟨shownText text lines, lines.1, lines.2⟩ := by
  rw [macroSection, hc, htr, hn]
  constructor
  · intro h
    obtain ⟨_, ⟨⟩, h⟩ := bind_eq_ok.1 h
    obtain ⟨_, ⟨⟩, h⟩ := bind_eq_ok.1 h
    obtain ⟨_, ⟨⟩, h⟩ := bind_eq_ok.1 h
    obtain ⟨body, hb, h⟩ := bind_eq_ok.1 h
    obtain ⟨⟨u', found'⟩, hr, h⟩ := bind_eq_ok.1 h
    obtain ⟨v, found, lines, hv, hf, hget, rfl⟩ := (sectionText_eq_ok ht).1 hb
    obtain ⟨hu', hf'⟩ := sectioned_eq_ok.1 hr
    obtain rfl := hv.unique hu
    obtain rfl := hu'.unique hv
    cases hf.symm.trans hf'
    dsimp only at h
    rw [hget] at h
    exact ⟨_, lines, hf, hget, (Except.ok.inj h).symm⟩
  · rintro ⟨found, lines, hf, hget, rfl⟩
    refine bind_eq_ok.2 ⟨src, rfl, bind_eq_ok.2 ⟨name, rfl, ?_⟩⟩
    refine bind_eq_ok.2 ⟨root, rfl, bind_eq_ok.2 ⟨shownText text lines,
      (sectionText_eq_ok ht).2 ⟨u, found, lines, hu, hf, hget, rfl⟩, ?_⟩⟩
    refine bind_eq_ok.2 ⟨(u, found), sectioned_eq_ok.2 ⟨hu, hf⟩, ?_⟩
    dsimp only
    rw [hget]
    rfl

/-- The text of a section whose directives stand on lines of their own is made of the lines strictly between
them, and not of the lines from the one to the other. -/
theorem shownText_between {a b : Node} {opened closed : String} (hlt : a.startRow < b.startRow)
    (ha : (Text.lines text)[a.startRow]? = some opened) (hb : (Text.lines text)[b.startRow]? = some closed)
    (hop : Text.contains opened Directive.opening)
    (hc : Text.contains closed Directive.closing) : shownText text (a.line, b.line) =
        Text.join "\n" (linesBetween (Text.lines text) (a.line + 1) (b.line - 1)) ∧
      shownText text (a.line, b.line) ≠
        Text.join "\n" (linesBetween (Text.lines text) a.line b.line) := by
  have hle := (List.getElem?_eq_some_iff.1 hb).1
  have hno : ∀ l ∈ Text.lines text, '\n' ∉ l.toList := fun l hl hmem =>
    absurd (Text.lines_no_end text l hl '\n' hmem) (by decide)
  have hin : linesBetween (Text.lines text) (a.line + 1) (b.line - 1) =
      ((Text.lines text).take b.startRow).drop (a.startRow + 1) := by
    rw [linesBetween, Node.line, Node.line, if_neg (by omega)]
    congr 1
    · omega
    · congr 1
      omega
  have ho : linesBetween (Text.lines text) a.line b.line =
      ((Text.lines text).take (b.startRow + 1)).drop a.startRow := by
    rw [linesBetween, Node.line, Node.line, if_neg (by omega)]
    congr 1
    omega
  have hs : shownText text (a.line, b.line) =
      Text.join "\n" (((Text.lines text).take b.startRow).drop (a.startRow + 1)) := by
    rw [shownText, ← withoutDirectives_between hlt ha hb hop hc, ← ho, linesBetween,
      Node.line, Node.line, if_neg (by omega)]
  refine ⟨by rw [hs, hin], ?_⟩
  rw [hs, ho]
  refine Text.join_ne_of_length (fun l hl => hno l ?_) (fun l hl => hno l ?_) ?_ ?_
  · exact mem_of_mem_take (mem_of_mem_drop hl)
  · exact mem_of_mem_take (mem_of_mem_drop hl)
  · rw [length_drop, length_take]
    omega
  · rw [length_drop, length_take, length_drop, length_take]
    omega

/-- A section is shown exactly if a directive closes it with no other section opened since it was. It
has the lines of its directives, and the text strictly between them: never the text of its lines. -/
theorem macroSection_shows_between (hcontent : s.content = .ok src) (htree : s.tree = .ok root)
    (htext : Utf8.decode src = .ok text) (hparse : Node.parse src = .ok root)
    (hplain : Text.plainEnds text.toList = true) (hname : spec.name = .ok name)
    (hu : Chosen src root name spec u)
    (halone : ∀ c ∈ u.node.comments, c.singleRole src marker = .opens ∨
      c.singleRole src marker = .closes → c.Alone src text) :
    ((∃ p, (macroSection s spec marker).outcome = .ok p) ↔
      ∃ i j, Marker.Paired (Node.singleRole src marker) u.node.comments i j) ∧
    ∀ p, (macroSection s spec marker).outcome = .ok p →
      ∃ i j a b, Marker.LastPair (Node.singleRole src marker) u.node.comments i j ∧
        u.node.comments[i]? = some a ∧ u.node.comments[j]? = some b ∧
        p.first = a.line ∧ p.last = b.line ∧
        a.line < b.line ∧ b.line ≤ (Text.lines text).length ∧
        p.text = Text.join "\n" (Passage.linesBetween (Text.lines text) (a.line + 1) (b.line - 1)) ∧
        p.text ≠ Text.join "\n" (Passage.linesBetween (Text.lines text) p.first p.last) := by
  obtain ⟨found, hfound⟩ := Node.exists_singleSections htext hparse hu.mem_preorder
  have hget := Marker.get?_singleSections hfound marker
  refine ⟨?_, fun p hp => ?_⟩
  · rw [← Marker.exists_pair_after_iff]
    constructor
    · rintro ⟨p, hp⟩
      obtain ⟨_, lines, hfound', hlines, -⟩ := (macroSection_eq_ok hcontent htree hname htext hu).1 hp
      cases hfound.symm.trans hfound'
      obtain ⟨ab, hab, -⟩ := map_eq_some_iff.1 (hget.symm.trans hlines)
      exact ⟨ab, hab⟩
    · rintro ⟨ab, hab⟩
      rw [hab] at hget
      exact ⟨_, (macroSection_eq_ok hcontent htree hname htext hu).2 ⟨found, _, hfound, hget, rfl⟩⟩
  · obtain ⟨_, lines, hfound', hlines, rfl⟩ := (macroSection_eq_ok hcontent htree hname htext hu).1 hp
    cases hfound.symm.trans hfound'
    obtain ⟨⟨a, b⟩, hab, rfl⟩ := map_eq_some_iff.1 (hget.symm.trans hlines)
    obtain ⟨i, j, hlast, ha, hb⟩ := Marker.pair_after_iff.1 hab
    obtain ⟨a', ha', hopens⟩ := hlast.latest.1.opens
    obtain ⟨b', hb', hcloses⟩ := hlast.latest.1.closes
    cases ha.symm.trans ha'
    cases hb.symm.trans hb'
    obtain ⟨body, hbody, hopening⟩ := Marker.contains_of_singleRole_opens hopens
    obtain ⟨body', hbody', hnot, hclosing⟩ := Marker.contains_of_singleRole_closes hcloses
    obtain ⟨opened, hopened, hsame, -⟩ := (halone a (mem_of_getElem? ha) (.inl hopens)).exists_line
      hplain hbody (.inl hopening)
    obtain ⟨closed, hclosed, hsame', hsame''⟩ :=
      (halone b (mem_of_getElem? hb) (.inr hcloses)).exists_line hplain hbody' (.inr hclosing)
    rw [← hsame] at hopening
    rw [← hsame'] at hnot
    rw [← hsame''] at hclosing
    have hle := (Node.lines_of_singleSections hparse hu.mem_preorder hfound _
      (Table.mem_of_get?_eq_some hlines)).2.1
    have hne : a.startRow ≠ b.startRow := by
      -- the two directives cannot share a line, since the closing one does not mention the opening word
      intro heq
      rw [heq] at hopened
      cases hopened.symm.trans hclosed
      rw [hopening] at hnot
      cases hnot
    have hlength := (List.getElem?_eq_some_iff.1 hclosed).1
    simp only [Node.line] at hle
    have hlt : a.startRow < b.startRow := by omega
    obtain ⟨hbetween, hother⟩ := shownText_between hlt hopened hclosed hopening hclosing
    refine ⟨i, j, a, b, hlast, ha, hb, rfl, rfl, ?_, ?_, hbetween, hother⟩
    · simp only [Node.line]
      omega
    · simp only [Node.line]
      omega

/-- The section of the second use, between directives on lines 4 and 7. -/
theorem macroSection_shows_between_second :
    let text := "M(a) \x7b\r\n\x7d\r\nM(b, \"é\") \x7b\r\n  //@@start s\r\n  f();\r\n  g();\r\n" ++
      "\t//@@end s \r\n\x7d\r\n"
    let src := Bytes.ofString text
    let spec : MacroSpec := [("name", .text "M"), ("arg0", .text "b")]
    ∃ (root : Node) (u : MacroUse), Node.parse src = .ok root ∧ Chosen src root "M" spec u ∧
      (macroSection ⟨.ofString "/a.cpp", .ok src, .ok root⟩ spec "s").outcome =
        .ok ⟨"  f();\n  g();", 4, 7⟩ ∧
      "  f();\n  g();" ≠ Text.join "\n" (Passage.linesBetween (Text.lines text) 4 7) := by
  intro text src spec
  have hrun : (do
      let root ← (Node.parse src).toOption
      let uses ← (walked src root ["M"]).toOption
      let kept ← (narrowed uses spec).toOption
      let u ← kept.head?
      let comments := (u.node.walk.filter (·.kind == "comment")).insertionSort fun a b => a.start ≤ b.start
      let pass ← (Marker.scanSingle src .start comments).toOption
      return (kept.length == 1 && pass.closed == [("s", (4, 7))] && comments.all fun c =>
        ((Text.split "\n" text)[c.startRow]?.map Text.trim).isSome &&
          (Text.split "\n" text)[c.startRow]?.map Text.trim == (c.text? src).toOption.map Text.trim)) =
      some true := by
    decide +kernel
  have htext : Utf8.decode src = .ok text := Utf8.decode_ofString text
  have hshown : shownText text (4, 7) = "  f();\n  g();" := by decide
  simp only [bind, pure, bind_eq_some_iff, toOption_eq_some, some.injEq, Bool.and_eq_true, beq_iff_eq,
    List.all_eq_true] at hrun
  obtain ⟨root, hparse, uses, huses, kept, hkept, u, hu, pass, hpass, ⟨hlength, hclosed⟩, hrows⟩ := hrun
  have hnamed : (named src root "M").outcome = .ok uses := by
    rw [named_of_walked htext hparse (by decide) (by decide) huses]
    rfl
  obtain rfl : kept = [u] := by
    obtain ⟨v, rfl⟩ := length_eq_one_iff.1 hlength
    exact congrArg ([·]) (some.inj hu)
  have hchosen : Chosen src root "M" spec u := ⟨uses, hnamed, hkept⟩
  rw [← Node.comments_eq_insertionSort] at hpass hrows
  have hsections : Marker.singleSections src u.node = .ok [("s", (4, 7))] := by
    rw [Marker.singleSections, hpass, ← hclosed]
    rfl
  have halone : ∀ c ∈ u.node.comments, c.Alone src text := by
    intro c hc
    obtain ⟨hsome, hrow⟩ := hrows c hc
    obtain ⟨trimmed, htrimmed⟩ := isSome_iff_exists.1 hsome
    rw [htrimmed] at hrow
    obtain ⟨row, hrow', rfl⟩ := map_eq_some_iff.1 htrimmed
    obtain ⟨body, hbody, htrim⟩ := map_eq_some_iff.1 hrow.symm
    exact ⟨row, body, hrow', toOption_eq_some.1 hbody, htrim.symm⟩
  have hpassage : (macroSection ⟨.ofString "/a.cpp", .ok src, .ok root⟩ spec "s").outcome =
      .ok ⟨"  f();\n  g();", 4, 7⟩ :=
    (macroSection_eq_ok rfl rfl rfl htext hchosen).2 ⟨_, (4, 7), hsections, rfl, by rw [hshown]⟩
  obtain ⟨_, _, _, _, _, _, _, _, _, _, _, _, hother⟩ := (macroSection_shows_between rfl rfl htext hparse
    (by decide) rfl hchosen fun c hc _ => halone c hc).2 _ hpassage
  exact ⟨root, u, hparse, hchosen, hpassage, hother⟩

end Cpp

end Excerpt
