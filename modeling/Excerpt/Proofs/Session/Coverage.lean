import Excerpt.Proofs.Passage
import Excerpt.Proofs.Region.Lines
import Excerpt.Proofs.Session.Work

/-!
# What is covered and what is shown

Showing a passage takes the lines between its two ends out of the regions, in
whatever order the ends are given. Shown are the lines that the passage holds.
These are the same lines if the ends are in order and in the file, and else lines
are covered that nobody has seen: a marked section without a line in it covers
the directives around it.
-/

namespace Excerpt

open List Text

namespace Citation

theorem infix_block (header language code : String) :
    code.toList <:+: (block header language code).toList := by
  unfold block
  rw [String.toList_append, String.toList_append]
  exact infix_append _ _ _

/-- The rows under which lines are shown, one for each, the first with number `first`. -/
def rows (g : Git) (c : Citation) (p : Path) (first : Int) (lines : List String) : List String :=
  if c.blame then Blame.decorated (Hub.blame g p first (first + lines.length - 1)) first lines
  else numberedLines first lines

/-- Rows that are made line by line, with the number counted on. -/
theorem getElem?_counted {rows : Int → List String → List String} {row : Int → String → String}
    (hnil : ∀ k, rows k [] = []) (hcons : ∀ k t ts, rows k (t :: ts) = row k t :: rows (k + 1) ts)
    (first : Int) (lines : List String) (i : Nat) :
    (rows first lines)[i]? = lines[i]?.map (row (first + i)) := by
  induction lines generalizing first i with
  | nil => rw [hnil, getElem?_nil, Option.map_none]
  | cons line lines ih =>
    rw [hcons]
    cases i with
    | zero => simp
    | succ i =>
      rw [getElem?_cons_succ, getElem?_cons_succ, ih, Int.natCast_succ, Int.add_assoc, Int.add_comm 1]

theorem prefix_append {cs : List Char} {a : String} (h : cs <+: a.toList) (b : String) :
    cs <+: (a ++ b).toList := by
  rw [String.toList_append]
  exact h.trans (List.prefix_append _ _)

theorem prefix_decorate (known : Option Blame) (number : Int) (t : String) :
    (Text.padNumber 4 number).toList <+: (Blame.decorate known number t).toList := by
  cases known with
  | none =>
    iterate 2 refine prefix_append ?_ _
    exact prefix_rfl
  | some b =>
    iterate 8 refine prefix_append ?_ _
    exact prefix_rfl

theorem suffix_decorate (known : Option Blame) (number : Int) (line : String) :
    line.toList <:+ (Blame.decorate known number line).toList := by
  cases known with
  | none =>
    rw [Blame.decorate, String.toList_append]
    exact suffix_append _ _
  | some b =>
    rw [Blame.decorate, String.toList_append]
    exact suffix_append _ _

variable {t : String} {lines : List String}

theorem exists_getElem?_rows (g : Git) (c : Citation) (p : Path) (first : Int) {i : Nat}
    (h : lines[i]? = some t) : ∃ row, (c.rows g p first lines)[i]? = some row ∧
      (Text.padNumber 4 (first + i)).toList <+: row.toList ∧ t.toList <:+ row.toList := by
  unfold rows
  split
  · generalize Hub.blame g p first _ = known
    have hrow : (Blame.decorated known first lines)[i]? = _ :=
      getElem?_counted (fun _ => rfl) (fun _ _ _ => rfl) first lines i
    rw [h] at hrow
    exact ⟨_, hrow, prefix_decorate _ _ _, suffix_decorate _ _ _⟩
  · have hrow : (numberedLines first lines)[i]? = _ :=
      getElem?_counted (fun _ => rfl) (fun _ _ _ => rfl) first lines i
    rw [h] at hrow
    refine ⟨_, hrow, prefix_append (prefix_append prefix_rfl _) _, ?_⟩
    rw [String.toList_append]
    exact suffix_append _ _

theorem infix_join_rows (g : Git) (c : Citation) (p : Path) (first : Int) (h : t ∈ lines) :
    t.toList <:+: (join "\n" (rows g c p first (dropEmptyLast lines))).toList := by
  by_cases hne : t = ""
  · subst hne
    exact nil_infix
  · obtain ⟨i, hi⟩ := mem_iff_getElem?.1 (mem_dropEmptyLast h hne)
    obtain ⟨row, hrow, -, ht⟩ := exists_getElem?_rows g c p first hi
    exact ht.isInfix.trans (infix_join "\n" (mem_of_getElem? hrow))

theorem displayed_eq_join_rows (g : Git) {c : Citation} (p : Path) (code : String) (first : Int)
    (h : c.numbered) :
    Session.displayed g c p code first = join "\n" (rows g c p first (Text.lines code)) := by
  unfold Session.displayed rows
  rw [if_pos h]
  split <;> rfl

end Citation

theorem Passage.no_end_of_mem_linesBetween {source : Source} {lines : List String}
    (h : source.lines = .ok lines) (first last : Int) :
    ∀ l ∈ linesBetween lines first last, ∀ c ∈ l.toList, isLineEnd c = false := by
  intro l hl
  obtain ⟨text, -, h⟩ := Outcome.bind_eq_ok.1 h
  cases h
  exact lines_no_end text l (mem_of_mem_take (mem_of_mem_drop hl))

namespace Session

variable {c : Citation} {s s' : Session} {p : Path} {source : Source} {block : String}
  {r : RegionSet}

/-- A citation of lines or of a marked section shows the lines that its passage holds and
covers the lines between the ends of the passage. Of a line that it covers, the passage holds
it exactly under a condition on the ends; it holds all of them, whatever the regions were,
exactly if the ends are in order and in the file. Ends that have changed places show nothing
and still cover lines, and those of a marked section are in the file but may have changed
places. -/
theorem shown_covers_between (hp : p = s.locate c.path) (hsource : source = .ofFolder s.folder p)
    (hselection : c.selection.OfLines) (hnumbered : c.numbered = true)
    (hremap : s.remap = false) (hregions : s.regions = some r) (hr : r.WellFormed)
    (h : (shown c).run.run s = (.ok block, s')) :
    (cite c).run.run s = (.ok block, s') ∧
    ∃ language lines first last header r',
      Language.ofPath p = .ok language ∧ source.lines = .ok lines ∧
      source.Chosen language c.selection first last ∧ s'.regions = some r' ∧
      -- what is shown
      block = Citation.block header (c.languageName p) (Text.join "\n"
        (c.rows s.git p first (Text.dropEmptyLast (Passage.linesBetween lines first last)))) ∧
      (∀ n, Passage.Holds lines first last n →
        ∃ t, lines[(n - 1).toNat]? = some t ∧ t.toList <:+: block.toList) ∧
      -- what is covered
      (∀ q n, r'.covers q n ↔
        r.covers q n ∧ ¬ (q = p ∧ min first last ≤ n ∧ n ≤ max first last)) ∧
      -- which of it is shown
      (∀ n, r.covers p n → ¬ r'.covers p n →
        (Passage.Holds lines first last n ↔ 1 ≤ n ∧ n ≤ lines.length ∧
          if last < 0 then n = first ∧ n ≤ lines.length + last else first ≤ last)) ∧
      ((∀ n, min first last ≤ n → n ≤ max first last → Passage.Holds lines first last n) ↔
        1 ≤ first ∧ first ≤ last ∧ last ≤ lines.length) ∧
      (0 ≤ last → last < first → ∀ n, ¬ Passage.Holds lines first last n) ∧
      (c.selection.marker ≠ none → 2 ≤ first ∧ 0 ≤ last ∧ last ≤ lines.length) := by
  refine ⟨run_cite_of_ok h, ?_⟩
  obtain ⟨language, request, found, header, hlanguage, hrequest, hfound, -, hkeeps, hblock⟩ :=
    exists_of_shown h
  rw [← hp] at hlanguage hfound hkeeps hblock
  rw [← hsource] at hfound
  obtain ⟨lines, first, last, hlines, hchosen, rfl⟩ := Source.exists_chosen hselection hrequest hfound
  rw [Citation.displayed_eq_join_rows _ _ _ _ hnumbered, numberOf, hremap,
    if_neg Bool.false_ne_true, Passage.ofLines,
    Text.lines_join (Passage.no_end_of_mem_linesBetween hlines first last)] at hblock
  have hcovers : ∀ q n, (r.subtract p first last).covers q n ↔
      r.covers q n ∧ ¬ (q = p ∧ min first last ≤ n ∧ n ≤ max first last) :=
    RegionSet.covers_subtract hr p first last
  refine ⟨language, lines, first, last, header, r.subtract p first last, hlanguage, hlines,
    hchosen, hkeeps.regions_of_without hregions, hblock, ?_, hcovers, ?_,
    Passage.forall_between_holds_iff, Passage.not_holds_of_lt, ?_⟩
  · intro n hn
    obtain ⟨hpos, hlen, -⟩ := id hn
    obtain ⟨t, ht⟩ : ∃ t, lines[(n - 1).toNat]? = some t := ⟨_, getElem?_eq_getElem (by omega)⟩
    refine ⟨t, ht, ?_⟩
    rw [hblock]
    exact (Citation.infix_join_rows _ _ _ _ (Passage.mem_linesBetween.2 ⟨n, hn, ht⟩)).trans
      (Citation.infix_block _ _ _)
  · intro n hbefore hafter
    have hbetween : min first last ≤ n ∧ n ≤ max first last := by
      by_contra hnot
      exact hafter ((hcovers p n).2 ⟨hbefore, fun hin => hnot hin.2⟩)
    exact Passage.holds_iff_of_between hbetween.1 hbetween.2
  · rw [hsource] at hlines hchosen
    exact hchosen.ends_of_marker hlines

/-- Two directives with nothing between them: no line is shown, and both directives are
covered. -/
theorem shown_covers_between_empty_section :
    let p : Path := ⟨["/", "r", "a.proto"]⟩
    let r : RegionSet := RegionSet.empty.add p 1 3
    let s : Session := .start ⟨["/", "r"]⟩
      ⟨[(p, Bytes.ofString "//@@start m\n//@@end m\n")], [], ⟨["/", "r"]⟩⟩ .outside
      (fun _ => .noSetup) false (some r)
    let c : Citation :=
      { path := "a.proto", selection := { marker := some "m" }, link := false }
    let block : String := "📍 `a.proto:2-1`\n```protobuf\n\n```"
    ∃ s' r', (cite c).run.run s = (.ok block, s') ∧ s'.regions = some r' ∧
      ∀ n, r'.covers p n ↔ n = 3 := by
  intro p r s c block
  have hp : p = s.locate c.path := by decide
  have hr : r.WellFormed := RegionSet.wellFormed_empty.add p 1 3
  have hshown : ((shown c).run.run s).1 = .ok block := by decide +kernel
  obtain ⟨hcite, language, lines, first, last, header, r', hlanguage, -, hchosen, hr', -, -,
    hcovers, -⟩ := shown_covers_between hp rfl (.marked "m") rfl rfl rfl hr (run_eq_of_fst hshown)
  refine ⟨_, r', hcite, hr', ?_⟩
  intro n
  replace hchosen : Source.Chosen _ language { marker := some "m" } first last := hchosen
  cases hchosen with
  | comments hnot =>
    have hproto : Language.ofPath p = .ok .proto := by decide
    exact absurd (Except.ok.inj (hlanguage.symm.trans hproto)) hnot
  | @directives _ lines i j hlines hbounds =>
    have hends : (Source.ofFolder s.folder p).lines.map (Proto.boundsFrom "m" none 0) =
        .ok ⟨some 0, some 1⟩ := by
      decide +kernel
    rw [hlines, Except.map, hbounds] at hends
    cases hends
    rw [hcovers, RegionSet.covers_add RegionSet.wellFormed_empty]
    simp [RegionSet.covers]
    omega

end Session

end Excerpt
