import Excerpt.Cpp.Extract
import Excerpt.Proofs.Marker.Moved
import Excerpt.Proofs.Text.Rows

/-!
# Sections of a construct, in place and on its own

The section of a function, a template or a class is found by the rows of the source,
or by reading the text of the construct on its own and counting on from
its first line. If the construct ends with a closing brace and lines end with line
feeds, the two give the same passage.
-/

namespace Excerpt

open List Option Outcome Marker Utf8 Text

namespace Grammar

/-- A definition runs to the end of the source, or over a line feed. -/
theorem definitionLength_cases (bs : Bytes) : definitionLength bs = bs.length ∨
      ∃ k more, definitionLength bs = k + 1 ∧ bs.drop k = Bytes.newline :: more := by
  fun_induction definitionLength bs with
  | case1 => exact .inl rfl
  | case2 bs ih =>
    rcases ih with hlen | ⟨k, more, hk, hd⟩
    · exact .inl (by rw [hlen, length_cons, length_cons])
    · exact .inr ⟨k + 2, more, by rw [hk], hd⟩
  | case3 bs => exact .inr ⟨0, bs, rfl, rfl⟩
  | case4 b bs hlo hl ih =>
    rcases ih with hlen | ⟨k, more, hk, hd⟩
    · exact .inl (by rw [hlen, length_cons])
    · exact .inr ⟨k + 1, more, by rw [hk], hd⟩

end Grammar

namespace Node

variable {src : Bytes} {cs : List Char} {i : Nat}

/-- A construct ends between two characters. -/
theorem EndsAt.edge (h : EndsAt src i) (hsrc : Utf8.Spells src cs) : Utf8.Edge src i := by
  obtain ⟨t, ht, rfl | rfl⟩ := h
  · exact Token.edge_stop hsrc ht
  · rcases Grammar.definitionLength_cases (src.drop t.stop) with hlen | ⟨k, more, hk, hd⟩
    · refine edge_of_length_le hsrc ?_
      rw [hlen, length_drop]
      omega
    · rw [hk, ← Nat.add_assoc]
      rw [drop_drop] at hd
      exact edge_after_ascii hsrc (by decide) hd

/-- The nodes in the tree of a text start and end between characters. -/
theorem edges_of_parse {text : String} {root n : Node} (hte : decode src = .ok text)
    (h : parse src = .ok root) (hn : n ∈ root.preorder) : Utf8.Edge src n.start ∧ Utf8.Edge src n.stop := by
  have hsrc := spells_of_decode hte
  rcases eq_or_settled h hn with rfl | hs
  · obtain ⟨hst, hstop, -, -⟩ := root_span h
    rw [hst, hstop]
    exact ⟨⟨[], .nil⟩, edge_of_length_le hsrc (Nat.le_refl _)⟩
  · obtain ⟨t, ht, hst, -⟩ := hs.here.starts
    rw [hst]
    exact ⟨Token.edge_start hsrc ht, (endsAt_of_settled hs).edge hsrc⟩

end Node

namespace Passage

/-- The lines of a part of a text that have a line feed of the part on either side. -/
theorem linesBetween_append {xs ys zs : List Char} {a b : Int}
    (h : plainEnds (xs ++ ys ++ zs)) (ha : 2 ≤ a) (hb : 0 ≤ b) (hle : b ≤ ys.count '\n') :
    linesBetween (Text.lines (unifyEnds (String.ofList (xs ++ ys ++ zs))))
        (a + xs.count '\n') (b + xs.count '\n') = linesBetween (Text.lines (String.ofList ys)) a b := by
  have hbe := between_linesOf_append h (a := (a - 1).toNat) (b := b.toNat) (by omega) (by omega)
  unfold linesBetween
  rw [if_neg (by omega), if_neg (by omega)]
  dsimp only
  rw [show (b + (xs.count '\n' : Int)).toNat = b.toNat + xs.count '\n' by omega,
    show (a + (xs.count '\n' : Int) - 1).toNat = (a - 1).toNat + xs.count '\n' by omega,
    Text.lines, Text.lines, unifyEnds, String.toList_ofList, String.toList_ofList,
    String.toList_ofList, linesOf_unifyEndsOf, ← map_take, ← map_drop,
    ← map_take, ← map_drop, hbe]

end Passage

theorem Source.lines_eq_ok {s : Source} {src : Bytes} {text : String} (hc : s.content = .ok src)
    (ht : decode src = .ok text) : s.lines = .ok (Text.lines (unifyEnds text)) := by
  rw [Source.lines, Source.text, hc, ok_bind, Bytes.text?, ht]
  rfl

namespace Cpp

variable {src : Bytes} {n : Node} {found : Sections} {marker : String} {a b : Int}

theorem outcome_nodeSection {s : Source} {lines : List String}
    (hf : (sections src n).outcome = .ok found) (hget : found.get? marker = some (a, b))
    (hl : s.lines = .ok lines) (place : String) :
    (nodeSection s src n marker place).outcome = .ok (Passage.ofLines lines a b) := by
  rw [nodeSection, Report.outcome_bind, hf, ok_bind, hget]
  rw [hl]
  rfl

theorem outcome_textSection {text : String} {root : Node} (hsrc : Bytes.ofString text = src)
    (hparse : Node.parse src = .ok root) (hf : (sections src root).outcome = .ok found)
    (hget : found.get? marker = some (a, b)) (first : Int) (place : String) :
    (textSection text first marker place).outcome =
      .ok ⟨join "\n" (Passage.linesBetween (Text.lines text) a b), first + a - 1, first + b - 1⟩ := by
  rw [textSection, hsrc, hparse, Report.outcome_bind]
  change Report.outcome _ = _
  rw [Report.outcome_bind, hf, ok_bind, hget]
  rfl

section Alone

variable {root : Node} (hcpp : Dialect.guess src = .cpp) (hparse : Node.parse src = .ok root)
  (hn : n ∈ root.walk) (hkind : n.kind ∈ Node.ownKinds) (hbrace : n.endsWithBrace src)

include hcpp hparse hn hkind hbrace

/-- A section of the construct is found in its text, on lines that count from its first one. -/
theorem exists_section_alone (ha : Dialect.guess (n.text src) = .cpp)
    (hf : (sections src n).outcome = .ok found) (hma : marker ∈ found.keys) :
    ∃ root' found' a b, Node.parse (n.text src) = .ok root' ∧
      (sections (n.text src) root').outcome = .ok found' ∧ found'.get? marker = some (a, b) ∧
      found.get? marker = some (a + n.startRow, b + n.startRow) ∧
      2 ≤ a ∧ 0 ≤ b ∧ b ≤ (n.text src).newlines := by
  obtain ⟨root', hp', hre⟩ := Node.exists_parse_alone hcpp hparse hn hkind hbrace ha
  have hm := sections_moveDown hre
  cases hf' : (sections (n.text src) root').outcome with
  | error e =>
    rw [hf, hf'] at hm
    cases hm
  | ok found' =>
    rw [hf, hf'] at hm
    obtain rfl := Except.ok.inj hm
    obtain ⟨range, hget⟩ := Table.exists_get?_of_mem hma
    have hr := hget
    rw [moveDown, Table.get?_mapValues] at hr
    obtain ⟨⟨a, b⟩, hget', rfl⟩ := map_eq_some_iff.1 hr
    have hb := ends_of_mem_sections (Node.parse_wellFormed hp') hf' _
      (Table.mem_of_get?_eq_some hget')
    exact ⟨root', found', a, b, hp', hf', hget', hget, hb⟩

/-- The construct is a part of the text, as many rows down as there are line feeds before it. -/
theorem exists_text_around {text : String} (ht : decode src = .ok text) :
    ∃ xs ys zs, text.toList = xs ++ ys ++ zs ∧ n.startRow = xs.count '\n' ∧ Utf8.Spells (n.text src) ys := by
  have hsrc := spells_of_decode ht
  obtain ⟨hs, hst⟩ := Node.edges_of_parse ht hparse ((Node.walk_perm_preorder root).mem_iff.1 hn)
  have hrow := Node.startRow_eq_newlines hcpp hparse hn hkind
  have hle := Node.start_le_stop_of_brace hbrace
  obtain ⟨xs, ys, zs, htoList, hxs, hys⟩ := Utf8.Edge.exists_parts hs hst hle hsrc
  exact ⟨xs, ys, zs, htoList, hrow.trans hxs.newlines, hys⟩

end Alone

/-- The section of a construct that ends with a closing brace is the same passage whether it is found
in the source or in the text of the construct on its own. -/
theorem nodeSection_eq_textSection {s : Source} {text : String} {root : Node}
    (hcontent : s.content = .ok src) (htext : Utf8.decode src = .ok text)
    (hends : Text.plainEnds text.toList = true) (hcpp : Dialect.guess src = .cpp)
    (hparse : Node.parse src = .ok root) (hn : n ∈ root.walk) (hkind : n.kind ∈ Node.ownKinds)
    (hbrace : n.endsWithBrace src = true) (halone : Dialect.guess (n.text src) = .cpp)
    (hfound : (Marker.sections src n).outcome = .ok found) (hmarker : marker ∈ found.keys)
    (place : String) :
    ∃ whole shown, n.passage src = .ok whole ∧
      (nodeSection s src n marker place).outcome = .ok shown ∧
      (textSection whole.text whole.first marker place).outcome = .ok shown := by
  obtain ⟨root', found', a, b, hparse', hfound', hget', hget, ha, hb, hrows⟩ :=
    exists_section_alone hcpp hparse hn hkind hbrace halone hfound hmarker
  obtain ⟨xs, ys, zs, htoList, hrow, hys⟩ := exists_text_around hcpp hparse hn hkind hbrace htext
  have hpassage : n.passage src = .ok ⟨String.ofList ys, n.startRow + 1, n.endRow + 1⟩ := by
    rw [Node.passage, Node.text?, Bytes.text?, hys.decode]
    rfl
  have hlines := Passage.linesBetween_append (htoList ▸ hends) ha hb (hys.newlines ▸ hrows)
  rw [← htoList, String.ofList_toList, ← hrow] at hlines
  refine ⟨_, _, hpassage, outcome_nodeSection hfound hget (Source.lines_eq_ok hcontent htext) place, ?_⟩
  rw [outcome_textSection (Utf8.ofString_of_decode hys.decode) hparse' hfound' hget', Passage.ofLines, hlines]
  have hfirst : (n.startRow : Int) + 1 + a - 1 = a + n.startRow := by omega
  have hlast : (n.startRow : Int) + 1 + b - 1 = b + n.startRow := by omega
  rw [hfirst, hlast]

/-- A template below a comment line, with line ends of two characters. -/
theorem nodeSection_eq_textSection_template :
    let src := Bytes.ofString ("// é\r\ntemplate <class T> void f() \x7b\r\n  //@@start m\r\n" ++
      "  g(1);\r\n  h(2);\r\n  //@@end m\r\n\x7d\r\n")
    ∃ (root n : Node) (whole : Passage), Node.parse src = .ok root ∧ n ∈ root.walk ∧
      n.kind = "template_declaration" ∧ n.passage src = .ok whole ∧ whole.first = 2 ∧
      (nodeSection ⟨.ofString "/a.cpp", .ok src, .ok root⟩ src n "m" "f").outcome =
        .ok ⟨"  g(1);\n  h(2);", 4, 5⟩ ∧
      (textSection whole.text whole.first "m" "f").outcome = .ok ⟨"  g(1);\n  h(2);", 4, 5⟩ := by
  intro src
  have hrun : (do
      let root ← (Node.parse src).toOption
      let n ← root.walk.find? (·.kind == "template_declaration")
      let pass ← (Marker.scan src .start
        ((Node.remarks [n]).insertionSort fun a b => a.start ≤ b.start)).outcome.toOption
      return (n.startRow, pass.closed, n.endsWithBrace src && decide (Dialect.guess (n.text src) = .cpp))) =
        some (1, [("m", (4, 5))], true) := by
    decide +kernel
  obtain ⟨text, htext, hends, hlines⟩ : ∃ text, Utf8.decode src = .ok text ∧ Text.plainEnds text.toList ∧
      Passage.ofLines (Text.lines (Text.unifyEnds text)) 4 5 = ⟨"  g(1);\n  h(2);", 4, 5⟩ :=
    ⟨_, Utf8.decode_eq_lossy _, by
      rw [Text.unifyEnds, Text.lines, Utf8.decodeLossy, String.toList_ofList, String.toList_ofList]
      decide +kernel⟩
  simp only [bind, pure, bind_eq_some_iff, toOption_eq_some, some.injEq] at hrun
  obtain ⟨root, hparse, n, hn, pass, hpass, hrun⟩ := hrun
  simp only [Prod.mk.injEq, Bool.and_eq_true, decide_eq_true_eq] at hrun
  obtain ⟨hrow, hclosed, hbrace, halone⟩ := hrun
  have hkind : n.kind = "template_declaration" := by simpa using find?_some hn
  have hmem := mem_of_find?_eq_some hn
  have hfound : (Marker.sections src n).outcome = .ok [("m", (4, 5))] := by
    rw [Marker.outcome_sections, Node.comments_eq_remarks, hpass, ← hclosed]
    rfl
  obtain ⟨whole, shown, hwhole, hnode, halone⟩ :=
    nodeSection_eq_textSection (s := ⟨.ofString "/a.cpp", .ok src, .ok root⟩) rfl htext hends
      (by decide) hparse hmem (by rw [hkind]; decide) hbrace halone hfound
      (mem_singleton_self "m") "f"
  have hget : Table.get? [("m", ((4 : Int), (5 : Int)))] "m" = some (4, 5) := rfl
  have hshown := outcome_nodeSection hfound hget
    (Source.lines_eq_ok (s := ⟨.ofString "/a.cpp", .ok src, .ok root⟩) rfl htext) "f"
  rw [hlines] at hshown
  obtain rfl := Except.ok.inj (hnode.symm.trans hshown)
  have hfirst : whole.first = 2 := by
    obtain ⟨_, _, hpassage⟩ := Outcome.bind_eq_ok.1 hwhole
    rw [← Except.ok.inj hpassage, hrow]
    rfl
  exact ⟨root, n, whole, hparse, hmem, hkind, hwhole, hfirst, hshown, halone⟩

end Cpp

end Excerpt
