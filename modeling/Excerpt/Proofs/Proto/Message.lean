import Excerpt.Extract
import Excerpt.Proofs.Grammar.Descendant
import Excerpt.Proofs.Macro.Walk
import Excerpt.Proofs.Proto.Section

/-!
# Sections of messages

A section is looked for among the lines of a file, or among the lines of the text of
a message. The text of a message that holds both directives of a section is made of
a part of a line, which starts with the keyword and so is no directive, of lines
that are lines of the file too, and of what lies behind the directive that closes
the section. So the two searches, and the pass that finds all sections of the
file, give the same lines.
-/

namespace Excerpt

open List Option Outcome Bytes

namespace Utf8

variable {cs : List Char}

theorem encoded_ne_nil (c : Char) : encoded c ≠ [] := by
  obtain ⟨b, tail, heq, -⟩ := letter_encoded c
  rw [heq]
  exact cons_ne_nil b tail

/-- Of two parts at the front of a text, the one with no fewer bytes holds the other. -/
theorem prefix_of_encoded_le {ds es : List Char} (hcs : cs <+: es) (hds : ds <+: es)
    (hle : (cs.flatMap encoded).length ≤ (ds.flatMap encoded).length) : cs <+: ds := by
  rcases prefix_or_prefix_of_prefix hcs hds with h | ⟨rest, rfl⟩
  · exact h
  · rw [flatMap_append, length_append] at hle
    have hnil : rest.flatMap encoded = [] := eq_nil_of_length_eq_zero (by omega)
    cases rest with
    | nil => simp
    | cons c rest =>
      rw [flatMap_cons, append_eq_nil_iff] at hnil
      exact absurd hnil.1 (encoded_ne_nil c)

theorem exists_wholeLines {src : Bytes} {row o : Nat} (h : Spells src cs)
    (ho : Point.ofOffset src o = ⟨row, 0⟩) :
    ∃ xs, Spells (src.take o) xs ∧ Text.WholeLines xs ∧ xs.count '\n' = row := by
  have hrow : newlines (src.take o) = row := by
    rw [← Point.row_ofOffset, ho]
  have hc : (Point.origin.after (src.take o)).column = 0 := congrArg Point.column ho
  rcases eq_nil_or_concat' (src.take o) with hnil | ⟨front, b, hf⟩
  · rw [hnil] at hrow ⊢
    exact ⟨[], .nil, .inl rfl, hrow⟩
  · have hb : b = newline := by
      rw [Point.column_after, hf, reverse_append, reverse_singleton, singleton_append] at hc
      by_contra hb
      rw [takeWhile_cons_of_pos (by simpa using hb)] at hc
      cases hc
    have ha : newline < 128 := by decide
    rw [← take_append_drop o src, hf, hb, append_assoc, singleton_append] at h
    obtain ⟨xs, -, -, hxs, -⟩ := h.cut_after ha
    obtain ⟨ds, hds⟩ := hxs.last_of_ascii ha
    rw [← hb, ← hf] at hxs
    exact ⟨xs, hxs, .inr ⟨ds, hds⟩, by rw [← hxs.newlines, hrow]⟩

end Utf8

namespace Node

variable {src : Bytes} {text : String} {root n : Node}

/-- The node holds the line `line`, which is in row `row` of the source. -/
def HoldsLine (src : Bytes) (n : Node) (row : Nat) (line : String) : Prop :=
  ∃ o, Point.ofOffset src o = ⟨row, 0⟩ ∧ n.start ≤ o ∧ o + (Bytes.ofString line).length ≤ n.stop

theorem head_of_message (h : parse src = .ok root) (hn : n ∈ root.preorder) (hkind : n.kind = "message")
    {o : Nat} {cs : List Char} (hcs : Utf8.Spells (src.slice n.start o) cs) :
    cs = [] ∨ ∃ more, cs = 'm' :: more := by
  obtain ⟨t, ht, hsp, hst⟩ := ((parse_wellFormed h).of_mem_preorder hn).form.start_of_message hkind
  have hw : Bytes.ofString "message" = 109 :: Bytes.ofString "essage" := by decide
  have hs := Token.slice_of_mem_scan ht
  rw [show t.text = _ from beq_iff_eq.1 hsp, hw, slice, drop_take, ← hst] at hs
  rw [slice, drop_take] at hcs
  cases hd : src.drop n.start with
  | nil =>
    rw [hd, take_nil] at hs
    cases hs
  | cons b bs =>
    rw [hd] at hs hcs
    cases hlen : o - n.start with
    | zero =>
      rw [hlen, take_zero] at hcs
      exact .inl (hcs.unique .nil)
    | succ k =>
      rw [hlen, take_succ_cons] at hcs
      have hb : b = 109 := by
        cases hsi : t.stop - n.start with
        | zero =>
          rw [hsi] at hs
          cases hs
        | succ k =>
          rw [hsi, take_succ_cons] at hs
          exact (cons.inj hs).1
      rw [hb] at hcs
      exact .inr (hcs.head_of_ascii (by decide))

end Node

namespace Proto

open Text (linesOf)

variable {src : Bytes} {text marker x y name : String} {root n : Node} {above inside below : List String}
  {ws xs : List Char} {kind : ProtoKind}

/-- A line that starts with the keyword of messages is no directive. -/
theorem not_opensLine_of_head {line : String} {cs : List Char} (h : line.toList = 'm' :: cs) :
    ¬ OpensLine marker line := by
  intro ho
  obtain ⟨c, ds, hc, hh⟩ := ho.head (by decide)
  cases h.symm.trans hc
  rcases hh with hb | hs
  · exact absurd hb (by decide)
  · exact absurd hs (by decide)

/-- The lines in front of a row, from the start of a message on: none of them opens the section if no line
above the row does. -/
theorem not_opensLine_of_mem (hends : Text.plainEnds (xs ++ ws))
    (hw : Text.WholeLines ws) (hh : ws = [] ∨ ∃ more, ws = 'm' :: more)
    (ha : ∀ line ∈ (linesOf (xs ++ ws)).map String.ofList, ¬ OpensLine marker line) :
    ∀ line ∈ (linesOf ws).map String.ofList, ¬ OpensLine marker line := by
  intro line hli
  obtain ⟨cs, hcs, rfl⟩ := List.mem_map.1 hli
  cases hl : linesOf ws with
  | nil =>
    rw [hl] at hcs
    cases hcs
  | cons first more =>
    rw [hl] at hcs
    rcases mem_cons.1 hcs with rfl | hcs
    · -- the first line starts where the message starts
      obtain ⟨rest, hr, hend⟩ := Text.exists_of_linesOf_eq_cons hl
      rcases hh with rfl | ⟨ws', rfl⟩
      · cases hl
      · cases cs with
        | nil =>
          rw [nil_append] at hr
          have hm := hend 'm' (by rw [← hr]; rfl)
          exact absurd hm (by decide)
        | cons c cs =>
          cases hr
          exact not_opensLine_of_head (String.toList_ofList)
    · have hmem : cs ∈ linesOf (xs ++ ws) := Text.mem_linesOf_append hends hw (by rw [hl]; exact hcs)
      exact ha _ (List.mem_map_of_mem hmem)

/-- A part of a text that starts with `ws` and holds the lines from the one behind `ws` to the line `y`:
these lines are lines of the part. -/
theorem exists_lines_of_part {us vs zs : List Char}
    (hends : Text.plainEnds (xs ++ ws ++ us)) (hws : Text.WholeLines (xs ++ ws))
    (hus : Text.WholeLines (xs ++ ws ++ us)) (hrow : (xs ++ ws).count '\n' = above.length)
    (hrow' : (xs ++ ws ++ us).count '\n' = above.length + 1 + inside.length)
    (hl : (linesOf (xs ++ ws ++ us ++ (vs ++ zs))).map String.ofList =
      above ++ x :: (inside ++ y :: below)) (hne : y ≠ "")
    (hle : (y.toList.flatMap Utf8.encoded).length ≤ (vs.flatMap Utf8.encoded).length) :
    (linesOf (xs ++ ws)).map String.ofList = above ∧ ∃ below', (linesOf (ws ++ us ++ vs)).map String.ofList =
        (linesOf ws).map String.ofList ++ x :: (inside ++ y :: below') := by
  have hlen := hws.length_linesOf (hws.plainEnds_front hends)
  have hlen' := hus.length_linesOf hends
  rw [hws.linesOf_append, length_append, hlen] at hlen'
  rw [hus.linesOf_append, hws.linesOf_append, append_assoc, map_append] at hl
  obtain ⟨ha, hr⟩ := append_inj hl (by rw [length_map, hlen, hrow])
  rw [map_append, ← cons_append] at hr
  obtain ⟨hin, hba⟩ := append_inj hr (by
    rw [length_map, length_cons]
    omega)
  obtain ⟨ycs, more, hy, rfl, -⟩ := map_eq_cons_iff.1 hba
  rw [String.toList_ofList] at hle
  have hcs : ycs ≠ [] := by simpa using hne
  obtain ⟨rest, hsplit, -⟩ := Text.exists_of_linesOf_eq_cons hy
  obtain ⟨ts, rfl⟩ := Utf8.prefix_of_encoded_le ⟨rest, hsplit.symm⟩ (List.prefix_append vs zs) hle
  obtain ⟨below', hb⟩ := Text.exists_linesOf_front hcs hy
  refine ⟨ha, below'.map String.ofList, ?_⟩
  rw [append_assoc, hws.of_append.linesOf_append, hus.of_append.linesOf_append, hb,
    map_append, map_append, hin, map_cons, cons_append]

section Held

variable (htext : Utf8.decode src = .ok text) (hends : Text.plainEnds text.toList)
  (hparse : Node.parse src = .ok root) (hn : n ∈ root.preorder) (hkind : n.kind = "message")
  (hsplit : Text.lines text = above ++ x :: (inside ++ y :: below))
  (hparts : Parts marker above x inside y) (hx : n.HoldsLine src above.length x)
  (hy : n.HoldsLine src (above.length + 1 + inside.length) y)

include htext hends hparse hn hkind hsplit hparts hx hy

/-- In the text of a message that holds both directives, the section has the same lines as in the file, as
many rows further up as the message starts down. -/
theorem exists_message_lines : ∃ shown front below', n.text? src = .ok shown ∧
      Text.lines shown = front ++ x :: (inside ++ y :: below') ∧
      n.startRow + front.length = above.length ∧ Parts marker front x inside y := by
  have hsrc := Utf8.spells_of_decode htext
  obtain ⟨hst, hs⟩ := Node.edges_of_parse htext hparse hn
  obtain ⟨xs, hxs⟩ := hst
  obtain ⟨o, ho, hno, -⟩ := hx
  obtain ⟨o', ho', -, hf⟩ := hy
  obtain ⟨as, has, hasWhole, hasRow⟩ := Utf8.exists_wholeLines hsrc ho
  obtain ⟨bs, hbs, hbsWhole, hbsRow⟩ := Utf8.exists_wholeLines hsrc ho'
  have hlt : o < o' := by
    by_contra hle
    have hr := Node.newlines_take_mono src (Nat.not_lt.1 hle)
    rw [has.newlines, hbs.newlines] at hr
    omega
  -- the text is cut where the message starts, in front of both directives, and where the message ends
  obtain ⟨ws, hws, hxws⟩ := Utf8.Edge.exists_next ⟨as, has⟩ hno hxs
  obtain rfl := has.unique hxws
  obtain ⟨us, -, hxw⟩ := Utf8.Edge.exists_next ⟨bs, hbs⟩ (Nat.le_of_lt hlt) hxws
  obtain rfl := hbs.unique hxw
  obtain ⟨vs, hvs, hall⟩ := hs.exists_next (by omega) hxw
  obtain ⟨ys, hys, hxys⟩ := hs.exists_next (by omega) hxs
  have hp' : ys = ws ++ us ++ vs := by
    have heq := hxys.unique hall
    rwa [append_assoc, append_assoc, append_cancel_left_eq, ← append_assoc] at heq
  rw [← take_append_drop n.stop src] at hsrc
  obtain ⟨zs, hzs, -⟩ := hall.cancel hsrc
  rw [append_assoc] at hzs
  have hle : (y.toList.flatMap Utf8.encoded).length ≤ (vs.flatMap Utf8.encoded).length := by
    have hlen := Node.stop_le_length hparse hn
    rw [← hvs.eq_encoded, ← Utf8.ofString_eq_flatMap, slice, length_drop, length_take]
    omega
  have hne : y ≠ "" := by
    rintro rfl
    obtain ⟨c, cs, hc, -⟩ := hparts.closes.head (by decide)
    cases hc
  rw [Text.lines, hzs] at hsplit
  rw [hzs] at hends
  have husEnds := hbsWhole.plainEnds_front hends
  have hwsEnds := hasWhole.plainEnds_front husEnds
  obtain ⟨ha, below', hl⟩ :=
    exists_lines_of_part husEnds hasWhole hbsWhole hasRow hbsRow hsplit hne hle
  refine ⟨String.ofList ys, (linesOf ws).map String.ofList, below', ?_, ?_, ?_, ?_, hparts.opens,
    hparts.inside, hparts.closes⟩
  · rw [Node.text?, text?, Node.text, hys.decode]
    rfl
  · rw [Text.lines, String.toList_ofList, hp', hl]
  · have hlen := hasWhole.of_append.length_linesOf (Text.plainEnds_of_append xs hwsEnds)
    rw [length_map, hlen, Node.startRow_of_parse hparse hn, hxs.newlines, ← count_append, hasRow]
  · refine not_opensLine_of_mem hwsEnds hasWhole.of_append (Node.head_of_message hparse hn hkind hws) ?_
    rw [ha]
    exact hparts.above

/-- The section of a message that holds both directives is the section of the file. -/
theorem sectionOf_message (place : String) : ∃ shown, n.text? src = .ok shown ∧
      sectionOf marker place (n.startRow + 1) (Text.lines shown) =
        .ok ⟨Text.join "\n" inside, above.length + 2, above.length + 1 + inside.length⟩ := by
  obtain ⟨shown, front, below', hs, hl, hrow, hf⟩ :=
    exists_message_lines htext hends hparse hn hkind hsplit hparts hx hy
  refine ⟨shown, hs, ?_⟩
  rw [hl, hf.sectionOf_eq, ← hrow]
  congr 2
  · push_cast
    omega
  · push_cast
    omega

end Held

/-- A definition that is found is a node of the tree, and of the kind that is looked for. -/
theorem mem_of_findAmong {ns : List Node}
    (h : findAmong src kind name ns = .ok (some n)) : n ∈ ns ∧ n.kind = kind.keyword := by
  induction ns with
  | nil => cases h
  | cons m ns ih =>
    obtain ⟨found, hf, h⟩ := Outcome.bind_eq_ok.1 h
    cases found with
    | false =>
      obtain ⟨hmem, hkind⟩ := ih h
      exact ⟨mem_cons_of_mem _ hmem, hkind⟩
    | true =>
      cases h
      refine ⟨mem_cons_self, ?_⟩
      rw [defines] at hf
      split at hf
      · next hkind => exact beq_iff_eq.1 hkind
      · cases hf

theorem find_eq_ok {s : Source} (h : find s kind name = .ok n) :
    ∃ src root, s.content = .ok src ∧ s.tree = .ok root ∧ n ∈ root.preorder ∧ n.kind = kind.keyword := by
  obtain ⟨src, hsrc, h⟩ := Outcome.bind_eq_ok.1 h
  obtain ⟨root, hr, h⟩ := Outcome.bind_eq_ok.1 h
  obtain ⟨found, hf, h⟩ := Outcome.bind_eq_ok.1 h
  cases found with
  | none => cases h
  | some m =>
    cases h
    obtain ⟨hmem, hkind⟩ := mem_of_findAmong hf
    exact ⟨src, root, hsrc, hr, hmem, hkind⟩

/-- For a name with one line that opens its section and one line behind it that closes it, the pass over
all sections gives the numbers of the two lines, and the search in the file and the search in any message
that holds both lines give the lines between them. -/
theorem markedRows_found {s : Source} {i j : Nat} (hcontent : s.content = .ok src)
    (htree : s.tree = (Node.parse src).mapError .noTree) (htext : Utf8.decode src = .ok text)
    (hends : Text.plainEnds text.toList = true) (hname : IsName marker)
    (hrows : MarkedRows marker (Text.lines text) i j) :
    (∃ found, (s.sections .proto).outcome = .ok found ∧
      found.get? marker = some ((i : Int) + 1, (j : Int) + 1)) ∧
    (s.fromProto (.marked marker)).outcome = .ok (Passage.ofLines (Text.lines text) (i + 2) j) ∧
    ∀ name n, find s .message name = .ok n →
      (∀ line, (Text.lines text)[i]? = some line → n.HoldsLine src i line) →
      (∀ line, (Text.lines text)[j]? = some line → n.HoldsLine src j line) →
      (s.fromProto (.messageSection name marker)).outcome =
        .ok (Passage.ofLines (Text.lines text) (i + 2) j) := by
  obtain ⟨above, x, inside, y, below, hsplit, rfl, rfl, hparts, hbelow⟩ := hrows.exists_parts
  have hlines : s.lines = .ok (Text.lines text) := by
    rw [Source.lines_eq_ok hcontent htext, Text.lines, Text.unifyEnds, String.toList_ofList,
      Text.linesOf_unifyEndsOf, ← Text.lines]
  have hpassage : Passage.ofLines (Text.lines text) ((above.length : Int) + 2)
        ((above.length + 1 + inside.length : Nat) : Int) =
      ⟨Text.join "\n" inside, above.length + 2, above.length + 1 + inside.length⟩ := by
    have hfirst : ((above.length : Int) + 2 - 1).toNat = above.length + 1 := by omega
    have hlast : ¬ ((above.length + 1 + inside.length : Nat) : Int) < 0 := by omega
    rw [Passage.ofLines, Passage.linesBetween, if_neg hlast, hfirst, Int.toNat_natCast, hsplit,
      drop_take_parts]
    push_cast
    rfl
  rw [hpassage]
  refine ⟨⟨Proto.sections (Text.lines text), ?_, ?_⟩, ?_, ?_⟩
  · rw [Source.sections, hlines]
    rfl
  · rw [hsplit, hparts.get?_sections hname hbelow]
    congr 2
    push_cast
    omega
  · rw [Source.fromProto, hlines]
    change Report.outcome (liftM (sectionOf marker _ _ (Text.lines text))) = _
    rw [hsplit, hparts.sectionOf_eq]
    change Except.ok _ = _
    congr 2
    · omega
    · omega
  · intro name n hfind hi hj
    obtain ⟨src', root, hsrc', hroot, hn, hkind⟩ := find_eq_ok hfind
    cases hcontent.symm.trans hsrc'
    have hparse := mapError_eq_ok.1 (htree.symm.trans hroot)
    have hy : (Text.lines text)[above.length + 1 + inside.length]? = some y := by
      have hlen : (above ++ x :: inside).length = above.length + 1 + inside.length := by
        simp [Nat.add_assoc, Nat.add_comm 1]
      rw [hsplit, ← cons_append, ← append_assoc, ← hlen, getElem?_append_right (Nat.le_refl _), Nat.sub_self]
      rfl
    obtain ⟨shown, hshown, hsection⟩ := sectionOf_message htext hends hparse hn hkind hsplit hparts
      (hi x (by simp [hsplit])) (hj y hy) (s!"message '{name}'")
    rw [Source.fromProto, hfind, hcontent]
    change Report.outcome (liftM (n.text? src) >>= _) = _
    rw [hshown]
    change Report.outcome (liftM (sectionOf marker _ _ (Text.lines shown))) = _
    rw [hsection]
    rfl

/-- A message within a message, with line ends of two characters; the directive above both closes
nothing. -/
theorem markedRows_found_nested :
    let src := Bytes.ofString ("syntax = \"proto3\";\r\n//@@end m\r\nmessage A \x7b\r\n  message B \x7b\r\n" ++
      "  // é\r\n  //@@start m\r\n    string s = 1;\r\n\t//@@end  m \r\n  \x7d\r\n\x7d\r\n")
    let s : Source := ⟨.ofString "/a.proto", .ok src, (Node.parse src).mapError .noTree⟩
    ∃ (text : String) (n : Node) (found : Sections), Utf8.decode src = .ok text ∧
      MarkedRows "m" (Text.lines text) 5 7 ∧ find s .message "B" = .ok n ∧
      (s.sections .proto).outcome = .ok found ∧ found.get? "m" = some (6, 8) ∧
      (s.fromProto (.marked "m")).outcome = .ok ⟨"    string s = 1;", 7, 7⟩ ∧
      (s.fromProto (.messageSection "B" "m")).outcome = .ok ⟨"    string s = 1;", 7, 7⟩ := by
  intro src s
  obtain ⟨text, htext, hends, hrows, hfirst, hlast, hpassage⟩ : ∃ text, Utf8.decode src = .ok text ∧
      Text.plainEnds text.toList ∧ MarkedRows "m" (Text.lines text) 5 7 ∧
      (Text.lines text)[5]? = some "  //@@start m" ∧ (Text.lines text)[7]? = some "\t//@@end  m " ∧
      Passage.ofLines (Text.lines text) 7 7 = ⟨"    string s = 1;", 7, 7⟩ :=
    ⟨_, Utf8.decode_eq_lossy _, by
      rw [Text.lines, Utf8.decodeLossy, String.toList_ofList]
      decide +kernel⟩
  have hspan : ((find s .message "B").toOption.map fun n => (n.start, n.stop)) = some (46, 119) := by
    decide +kernel
  obtain ⟨n, hn, hspan⟩ := map_eq_some_iff.1 hspan
  simp only [Prod.mk.injEq] at hspan
  have hfind := toOption_eq_some.1 hn
  obtain ⟨⟨found, hfound, hget⟩, hmarked, hmessage⟩ :=
    markedRows_found (s := s) rfl rfl htext hends (by decide) hrows
  have hsection := hmessage "B" n hfind
    (fun line hline => by
      rw [hfirst] at hline
      rw [← some.inj hline]
      exact ⟨68, by decide, by omega, by rw [hspan.2]; decide⟩)
    (fun line hline => by
      rw [hlast] at hline
      rw [← some.inj hline]
      exact ⟨102, by decide, by omega, by rw [hspan.2]; decide⟩)
  exact ⟨text, n, found, htext, hrows, hfind, hfound, hget, hpassage ▸ hmarked, hpassage ▸ hsection⟩

end Proto

end Excerpt
