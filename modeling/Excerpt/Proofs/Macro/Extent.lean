import Excerpt.Proofs.Grammar.Descendant
import Excerpt.Proofs.Macro.Definition
import Excerpt.Proofs.Region.Lines
import Excerpt.Proofs.Session.Work

/-!
# The lines of a definition

The text of a definition runs to the line feed that ends it, and includes it. The
lines of a definition are counted by the line feeds in its text, so the last of them is
the line behind the directive, unless the directive ends with the source
(`definition_lines`). A citation of the definition covers this line as well.
-/

namespace Excerpt

open List Option Outcome

namespace Bytes

variable {src : Bytes} {i j : Nat}

/-- The line on which the byte at a place stands. -/
def lineOf (src : Bytes) (i : Nat) : Nat :=
  newlines (src.take i) + 1

theorem getLast?_slice (h : i < j) (hj : j ≤ src.length) : (src.slice i j).getLast? = src[j - 1]? := by
  rw [slice, getLast?_drop, if_neg (by rw [length_take]; omega), getLast?_eq_getElem?,
    length_take, Nat.min_eq_left hj, getElem?_take_of_lt (by omega)]

/-- A line feed is followed by a new line. -/
theorem newlines_take (h : i < j) (hj : j ≤ src.length) : newlines (src.take j) + 1 =
      src.lineOf (j - 1) + if (src.slice i j).getLast? = some newline then 1 else 0 := by
  have hget : src[j - 1]? = some src[j - 1] := getElem?_eq_getElem (by omega)
  have ht : src.take j = src.take (j - 1) ++ [src[j - 1]] := by
    rw [take_append_getElem, Nat.sub_add_cancel (by omega)]
  rw [getLast?_slice h hj, hget, ht, newlines_append, lineOf, Nat.add_right_comm]
  congr 1
  simp [newlines, count_singleton]

end Bytes

namespace MacroDefinition

open Query Node

variable {src : Bytes} {n root : Node} {d : MacroDefinition}

/-- A definition ends with a line feed or with the source. -/
theorem stop_eq_length (hd : Defines src n) (hlt : n.start < n.stop) (hs : n.stop ≤ src.length)
    (hen : (n.text src).getLast? ≠ some Bytes.newline) : n.stop = src.length := by
  obtain ⟨t, ht, hli⟩ := hd.line
  rcases Grammar.definitionLength_cases (src.drop t.stop) with hlen | ⟨k, more, hk, hdr⟩
  · rw [hlen, length_drop] at hli
    omega
  · have hl : src[n.stop - 1]? = some Bytes.newline := by
      rw [drop_drop] at hdr
      have hget := congrArg (·[0]?) hdr
      rw [getElem?_drop] at hget
      rw [show n.stop - 1 = t.stop + k + 0 by omega]
      exact hget
    exact absurd ((Bytes.getLast?_slice hlt hs).trans hl) hen

/-- The macro is shown on the lines of its first definition. -/
theorem outcome_extract {source : Source} {name : String} (hc : source.content = .ok src)
    (ht : source.tree = .ok root) (hf : find? src root name = .ok (some d)) :
    (source.extract .cpp (.macroDefinition name)).outcome = .ok d.passage := by
  rw [Source.extract, Source.fromCpp, Cpp.onTree, hc, ht]
  change (passageOf src root name) = _
  rw [passageOf, hf]
  rfl

/-- The lines of a definition are counted right, but its last line is the one behind the directive if
the directive ends with a line feed. It ends so unless it ends the source. A definition is taken to be
continued if it holds a backslash and a line feed, wherever they stand. What is covered by a citation are
its lines. -/
theorem definition_lines (hparse : Node.parse src = .ok root) (hn : n ∈ root.preorder)
    (hdefine : n.isDefine = true) (hd : ofNode? src n = .ok (some d)) :
    let ended := (n.text src).getLast? = some Bytes.newline
    let last := src.lineOf (n.stop - 1) + if ended then 1 else 0
    d.passage.first = src.lineOf n.start ∧ d.passage.last = last ∧
      d.lineCount = d.passage.last - d.passage.first + 1 ∧ (¬ ended → n.stop = src.length) ∧
      (d.multiline = true ↔ '\\' ∈ d.text.toList ∧ '\n' ∈ d.text.toList) ∧
      ∀ (c : Citation) (s : Session) (name : String) (r : RegionSet),
        s.folder.read (s.locate c.path) = .ok src → Language.ofPath (s.locate c.path) = .ok .cpp →
        c.selection.request c.path = .ok (.macroDefinition name) →
        find? src root name = .ok (some d) →
        (c.link = true ∨ Hub.relative? s.repo (s.locate c.path) ≠ none) →
        s.regions = some r → r.WellFormed →
        ∃ block s' r', (Session.cite c).run.run s = (.ok block, s') ∧ s'.regions = some r' ∧
          ∀ q k, r'.covers q k ↔
            r.covers q k ∧ ¬ (q = s.locate c.path ∧ src.lineOf n.start ≤ k ∧ k ≤ last) := by
  intro ended last
  obtain ⟨hnode, htext, -⟩ := ofNode?_eq_some hd
  have hsettled : Settled src n := by
    rcases eq_or_settled hparse hn with rfl | hsettled
    · rw [isDefine_root hparse] at hdefine
      cases hdefine
    · exact hsettled.here
  have hlt := (leads_of_define hsettled).lt hdefine
  have hstop := stop_le_length hparse hn
  have hdefines := hsettled.define (isDefine_iff.1 hdefine)
  have hfirst : d.passage.first = src.lineOf n.start := by
    rw [passage, hnode, startRow_of_parse hparse hn]
    rfl
  have hlast : d.passage.last = last := by
    rw [passage, hnode, hdefines.row]
    exact congrArg Nat.cast (Bytes.newlines_take hlt hstop)
  have hcount : (d.lineCount : Int) = d.passage.last - d.passage.first + 1 := by
    have hnewlines := (Utf8.spells_of_decode (mapError_eq_ok.1 htext)).newlines
    have hslice : _ + (n.text src).newlines = _ := Point.newlines_take_add_slice hsettled.le
    rw [lineCount, ← hnewlines, passage, hnode, startRow_of_parse hparse hn, hdefines.row]
    dsimp only
    omega
  refine ⟨hfirst, hlast, hcount, stop_eq_length hdefines hlt hstop, ?_, ?_⟩
  · rw [multiline, lineCount, Bool.and_eq_true, contains_iff_mem, decide_eq_true_eq,
      Nat.lt_add_left_iff_pos, count_pos_iff]
  · intro c s name r hread hlanguage hrequest hfind hheader hregions hr
    have htree : (Source.ofFolder s.folder (s.locate c.path)).tree = .ok root := by
      change (s.folder.read (s.locate c.path) >>= fun bs => (Node.parse bs).mapError Failure.noTree) = _
      rw [hread, ok_bind, hparse]
      rfl
    have hfound := outcome_extract hread htree hfind
    obtain ⟨_, s', hrun⟩ := Session.exists_run_shown hlanguage hrequest hfound hheader
    obtain ⟨_, _, found, _, hlanguage', hrequest', hfound', -, hkeeps, -⟩ := Session.exists_of_shown hrun
    cases hlanguage.symm.trans hlanguage'
    cases hrequest.symm.trans hrequest'
    cases hfound.symm.trans hfound'
    refine ⟨_, s', _, Session.run_cite_of_ok hrun, hkeeps.regions_of_without hregions, fun q k => ?_⟩
    have hle : d.passage.first ≤ d.passage.last := by
      rw [lineCount] at hcount
      omega
    rw [RegionSet.covers_subtract hr, min_eq_left hle, max_eq_right hle, hfirst, hlast]

/-- A definition on one line, with a backslash in it: it has two lines, is taken to be continued, and the
line behind it is covered. -/
theorem definition_lines_backslash :
    let src := Bytes.ofString "#define N '\\n'\nint x;\n"
    let p : Path := ⟨["/", "r", "a.cpp"]⟩
    let r : RegionSet := RegionSet.empty.add p 1 3
    let s : Session := .start ⟨["/", "r"]⟩ ⟨[(p, src)], [], ⟨["/", "r"]⟩⟩ .outside (fun _ => .noSetup)
      false (some r)
    let c : Citation := { path := "a.cpp", selection := { macroDefinition := some "N" }, link := true }
    ∃ (root : Node) (d : MacroDefinition) (block : String) (s' : Session) (r' : RegionSet),
      Node.parse src = .ok root ∧ find? src root "N" = .ok (some d) ∧ src.lineOf (d.node.stop - 1) = 1 ∧
      d.passage.last = 2 ∧ d.lineCount = 2 ∧ d.multiline = true ∧ d.text = "#define N '\\n'\n" ∧
      (Session.cite c).run.run s = (.ok block, s') ∧ s'.regions = some r' ∧
      ∀ k, r'.covers p k ↔ k = 3 := by
  intro src p r s c
  have hrun : (do
      let root ← (Node.parse src).toOption
      let n ← ((root.preorder.filter isDefine).filter (defines src "N")).head?
      let d ← (← (ofNode? src n).toOption)
      return n.start == 0 && n.stop == 15 && d.text == "#define N '\\n'\n") = some true := by
    decide +kernel
  simp only [bind, pure, bind_eq_some_iff, toOption_eq_some, some.injEq, Bool.and_eq_true, beq_iff_eq] at hrun
  obtain ⟨root, hparse, n, hn, found, hd, d, rfl, ⟨hstart, hstop⟩, htext⟩ := hrun
  obtain ⟨hmem, -⟩ := mem_filter.1 (mem_of_head? hn)
  obtain ⟨hmem, hdefine⟩ := mem_filter.1 hmem
  have hfind : find? src root "N" = .ok (some d) := by
    rw [find?_eq hparse (by decide) (by decide), hn]
    exact hd
  obtain ⟨-, hlast, -, -, -, hcite⟩ := definition_lines hparse hmem hdefine hd
  obtain ⟨block, s', r', hcite, hr', hcovers⟩ := hcite c s "N" r
    (toOption_eq_some.1 (by decide)) (toOption_eq_some.1 (by decide)) rfl
    hfind (.inl rfl) rfl (RegionSet.wellFormed_empty.add p 1 3)
  have hnode := (ofNode?_eq_some hd).1
  have hp : s.locate c.path = p := by decide
  rw [Node.text, hstart, hstop] at hlast hcovers
  refine ⟨root, d, block, s', r', hparse, hfind, ?_, ?_, ?_, ?_, htext, hcite, hr', fun k => ?_⟩
  · rw [hnode, hstop]
    decide
  · rw [hlast]
    decide
  · rw [lineCount, htext]
    decide
  · rw [multiline, lineCount, htext]
    decide
  · have hends : src.lineOf 0 = 1 ∧ (src.lineOf (15 - 1) +
        if (src.slice 0 15).getLast? = some Bytes.newline then 1 else 0) = 2 := by
      decide
    rw [hcovers, hp, hends.1, hends.2, RegionSet.covers_add RegionSet.wellFormed_empty]
    simp [RegionSet.covers]
    omega

end MacroDefinition

end Excerpt
