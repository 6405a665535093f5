import Excerpt.Proofs.Diff.Shape
import Excerpt.Proofs.Region.Edit
import Excerpt.Proofs.Region.ReadPatch
import Excerpt.Proofs.Text.Rows

/-!
# Lines that are read as one

The text of a patch is cut at every character that ends a line, also in the middle
of the lines of its hunks, and each piece is read by itself. A line of a hunk is
benign if this makes no difference: its first piece is not the new name of a file,
and its other pieces are passed over. Then the line is read as if it had no text
behind its mark, so patches with benign lines record the same regions if they have
the same shape.

No other line can be left to itself. What pieces do to the place of the reading is
summed up as a move; a line that is not benign moves it elsewhere than its mark, and
with enough kept lines below it the patch records other regions, or cannot be read.
-/

namespace Excerpt

open List Option

namespace Text

/-- The lines that a line is cut into at the line ends in it. -/
def pieces (line : List Char) : List (List Char) :=
  linesOf (line ++ ['\n'])

theorem pieces_of_no_end {line : List Char} (h : ∀ c ∈ line, isLineEnd c = false) : pieces line = [line] :=
  linesOf_append_newline h []

theorem pieces_ne_nil (line : List Char) : pieces line ≠ [] :=
  linesOf_concat_ne_nil line

theorem exists_pieces_cons {c : Char} (hc : isLineEnd c = false) (line : List Char) :
    ∃ t ts, pieces (c :: line) = (c :: t) :: ts := by
  have hne := pieces_ne_nil line
  rw [pieces, cons_append, linesOf_cons hc, ← pieces]
  cases hp : pieces line with
  | nil => exact absurd hp hne
  | cons t ts => exact ⟨t, ts, rfl⟩

/-- A line feed behind a text adds an empty line to it, or nothing. -/
theorem pieces_eq_or (cs : List Char) : pieces cs = linesOf cs ∨ pieces cs = linesOf cs ++ [[]] := by
  unfold pieces
  induction cs with
  | nil => exact .inr rfl
  | cons c cs ih =>
    rw [cons_append, linesOf_cons_eq c, linesOf_cons_eq c]
    cases cs with
    | nil =>
      -- a carriage return takes the line feed behind it along
      by_cases hend : isLineEnd c
      · by_cases hr : c = '\r'
        · subst hr
          exact .inl rfl
        · simp [hend, hr, linesOf_feed, linesOf]
      · simp [hend, linesOf_feed, linesOf, consHead]
    | cons d cs =>
      have hh : (d :: cs ++ ['\n']).head? = (d :: cs).head? := rfl
      rw [hh]
      by_cases hend : isLineEnd c
      · rw [if_pos hend, if_pos hend]
        split
        · exact ih
        · exact ih.imp (congrArg _) (congrArg _)
      · rw [if_neg hend, if_neg hend]
        cases hl : linesOf (d :: cs) with
        | nil => exact absurd hl (linesOf_cons_ne_nil d cs)
        | cons line lines =>
          rw [hl] at ih
          rcases ih with ih | ih
          · exact .inl (congrArg _ ih)
          · exact .inr (congrArg _ ih)

/-- A text of lines is cut into the pieces of the lines, less an empty last one. -/
theorem linesOf_intercalate_eq (ls : List (List Char)) :
    ls.flatMap pieces = linesOf (List.intercalate ['\n'] ls) ∨
      ls.flatMap pieces = linesOf (List.intercalate ['\n'] ls) ++ [[]] := by
  induction ls with
  | nil => exact .inl rfl
  | cons l ls ih =>
    cases ls with
    | nil =>
      rw [flatMap_cons, flatMap_nil, append_nil, intercalate_singleton]
      exact pieces_eq_or l
    | cons m ms =>
      rw [flatMap_cons, intercalate_cons_cons, append_assoc,
        singleton_append, linesOf_append_feed, append_assoc, ← pieces]
      exact ih.imp (congrArg _) (congrArg _)

end Text

open Unified Text

namespace RegionSet

/-! ## Lines that are passed over -/

/-- A line that is passed over: it starts with neither a plus nor a space, and if it starts like
the header of a hunk, its third word does not give a place in the new text. -/
structure Inert (line : List Char) : Prop where
  no_plus : line.head? ≠ some '+'
  no_space : line.head? ≠ some ' '
  no_place : ['@', '@'] <+: line → ((wordsOf line)[2]?.any fun w : List Char => w.head? == some '+') = false

end RegionSet

/-- A line of a hunk whose first piece is not the new name of a file and whose other pieces are
passed over. -/
structure Unified.Line.Benign (l : Line) : Prop where
  first : ∀ t ∈ (pieces l.written).head?, ¬ "+++ b/".toList <+: t
  later : ∀ t ∈ (pieces l.written).tail, RegionSet.Inert t

namespace RegionSet

variable {repo : Path} {c : Char} {line : List Char} {l : Line} {ls : List (List Char)}

theorem startsWith_singleton (line : List Char) (c : Char) :
    startsWith (String.ofList line) (String.ofList [c]) = (line.head? == some c) := by
  rw [startsWith_ofList, String.toList_ofList]
  cases line with
  | nil => rfl
  | cons d ds => simp [List.isPrefixOf, eq_comm]

/-- The header of a hunk that gives no place is one whose third word does not start with a plus. -/
theorem headerLine?_eq_ok_none_iff (line : List Char) : headerLine? (String.ofList line) = .ok none ↔
      ((wordsOf line)[2]?.any fun w : List Char => w.head? == some '+') = false := by
  have hp : "+" = String.ofList ['+'] := by decide
  rw [headerLine?, words, String.toList_ofList, getElem?_map]
  cases (wordsOf line)[2]? with
  | none => simp
  | some w =>
    simp only [map_some, any_some]
    rw [hp, startsWith_singleton]
    cases hw : w.head? == some '+' with
    | false => simp
    | true =>
      cases number (beforeFirst "," (drop 1 (String.ofList w))) <;> simp [Except.map]

/-- What a line of a text does to the reading. -/
inductive Turn where
  /-- The file `f` is shown from here on. -/
  | file (f : Path)
  /-- The next line is `n`. -/
  | place (n : Int)
  /-- The next line is recorded. -/
  | line
  | pass
deriving DecidableEq

/-- What a line does, unless it cannot be read. -/
def turn (repo : Path) (line : List Char) : Except Failure Turn :=
  if "+++ b/".toList <+: line then .ok (.file (repo.child (String.ofList (line.drop 6))))
  else if ['@', '@'] <+: line then
    (headerLine? (String.ofList line)).map fun n => n.elim .pass .place
  else if line.head? = some '+' ∨ line.head? = some ' ' then .ok .line
  else .ok .pass

/-- The state after a line. A line of no file is not recorded. -/
def Progress.turned (p : Progress) : Turn → Progress
  | .file f => { p with file := some f }
  | .place n => { p with next := n }
  | .line => p.file.elim p fun f => ⟨p.regions.add f p.next p.next, p.file, p.next + 1⟩
  | .pass => p

theorem step_eq_turn (p : Progress) (line : List Char) :
    p.step repo (String.ofList line) = (turn repo line).map p.turned := by
  have hat : "@@".toList = ['@', '@'] := by decide
  have hp : "+" = String.ofList ['+'] := by decide
  have hs : " " = String.ofList [' '] := by decide
  unfold Progress.step turn
  rw [hp, hs, startsWith_singleton, startsWith_singleton, startsWith_ofList, startsWith_ofList, hat]
  simp only [ isPrefixOf_iff_prefix, Bool.or_eq_true, beq_iff_eq]
  split
  · rw [Text.drop, String.toList_ofList]
    rfl
  · split
    · cases headerLine? (String.ofList line) with
      | error e => rfl
      | ok n => cases n <;> rfl
    · obtain ⟨s, file, n⟩ := p
      by_cases hl : line.head? = some '+' ∨ line.head? = some ' '
      · rw [if_pos hl]
        cases file with
        | none => rfl
        | some f => exact if_pos hl
      · rw [if_neg hl]
        cases file with
        | none => rfl
        | some f => exact if_neg hl

theorem head?_eq_of_starts {cs : List Char} (h : c :: cs <+: line) : line.head? = some c := by
  obtain ⟨rest, rfl⟩ := h
  rfl

/-- The lines that are passed over, in any repository, are the inert ones. -/
theorem turn_eq_pass_iff (line : List Char) : turn repo line = .ok .pass ↔ Inert line := by
  have hn : "+++ b/".toList = '+' :: "++ b/".toList := by decide
  unfold turn
  split
  · next h =>
    refine ⟨fun heq => (by cases heq), fun hin => ?_⟩
    exact absurd (head?_eq_of_starts (hn ▸ h)) hin.no_plus
  · split
    · next hat =>
      have hh : line.head? = some '@' := head?_eq_of_starts hat
      have hp : (headerLine? (String.ofList line)).map (fun n => n.elim Turn.pass Turn.place) =
          .ok .pass ↔ headerLine? (String.ofList line) = .ok none := by
        cases headerLine? (String.ofList line) with
        | error e => simp [Except.map]
        | ok n => cases n <;> simp [Except.map]
      rw [hp, headerLine?_eq_ok_none_iff]
      refine ⟨fun h => ⟨by simp [hh], by simp [hh], fun _ => h⟩, fun h => h.no_place hat⟩
    · next hat =>
      split
      · next hl =>
        refine ⟨fun heq => (by cases heq), fun hin => ?_⟩
        exact (hl.elim hin.no_plus hin.no_space).elim
      · next hl =>
        rw [not_or] at hl
        exact ⟨fun _ => ⟨hl.1, hl.2, fun h => absurd h hat⟩, fun _ => rfl⟩

/-- What the mark of a line of a hunk does. -/
def markTurn (l : Line) : Turn :=
  match l with
  | .kept _ => .line
  | .added _ => .line
  | _ => .pass

theorem markTurn_eq_of_mark {m : Line} (h : l.mark = m.mark) : markTurn l = markTurn m := by
  cases l <;> cases m <;> simp [Line.mark, Line.written] at h <;> rfl

theorem turn_cons (hc : c ≠ '@') (hn : ¬ "+++ b/".toList <+: c :: line) :
    turn repo (c :: line) = .ok (if c = '+' ∨ c = ' ' then .line else .pass) := by
  have hat : ¬ ['@', '@'] <+: c :: line := fun h => hc (some.inj (head?_eq_of_starts h))
  rw [turn, if_neg hn, if_neg hat, apply_ite Except.ok]
  simp only [head?_cons, some.injEq]

/-- The first piece of a line starts with its mark, and unless it is the name of a file it does
what the mark does. -/
theorem exists_pieces_written (repo : Path) (l : Line) : ∃ t ts, pieces l.written = t :: ts ∧
      (¬ "+++ b/".toList <+: t → turn repo t = .ok (markTurn l)) := by
  cases l with
  | blank => exact ⟨[], [], rfl, fun _ => rfl⟩
  | kept text =>
    obtain ⟨t, ts, hp⟩ := exists_pieces_cons (c := ' ') (by decide) text
    exact ⟨_, ts, hp, turn_cons (by decide)⟩
  | added text =>
    obtain ⟨t, ts, hp⟩ := exists_pieces_cons (c := '+') (by decide) text
    exact ⟨_, ts, hp, turn_cons (by decide)⟩
  | removed text =>
    obtain ⟨t, ts, hp⟩ := exists_pieces_cons (c := '-') (by decide) text
    exact ⟨_, ts, hp, turn_cons (by decide)⟩
  | remark text =>
    obtain ⟨t, ts, hp⟩ := exists_pieces_cons (c := '\\') (by decide) text
    exact ⟨_, ts, hp, turn_cons (by decide)⟩

/-! ## Runs of lines -/

theorem run_append_eq (p : Progress) (as bs : List String) : p.run repo (as ++ bs) = match p.run repo as with
      | (q, none) => q.run repo bs | (q, some e) => (q, some e) := by
  induction as generalizing p with
  | nil => rfl
  | cons a as ih =>
    rw [cons_append, Progress.run, Progress.run]
    cases p.step repo a with
    | error e => rfl
    | ok q => exact ih q

/-- Lines that can be read take their turns one after the other. -/
theorem run_of_turns {ts : List Turn}
    (h : List.Forall₂ (fun line t => turn repo line = .ok t) ls ts) (p : Progress) :
    p.run repo (ls.map String.ofList) = (ts.foldl Progress.turned p, none) := by
  induction h generalizing p with
  | nil => rfl
  | cons hl _ ih =>
    rw [map_cons, Progress.run, step_eq_turn, hl]
    exact ih _

theorem exists_turns_or_fails (repo : Path) (ls : List (List Char)) :
    (∃ ts, List.Forall₂ (fun line t => turn repo line = .ok t) ls ts) ∨
      ∀ p : Progress, ∃ q e, p.run repo (ls.map String.ofList) = (q, some e) := by
  induction ls with
  | nil => exact .inl ⟨[], List.Forall₂.nil⟩
  | cons line ls ih =>
    cases hl : turn repo line with
    | error e =>
      refine .inr fun p => ⟨p, e, ?_⟩
      rw [map_cons, Progress.run, step_eq_turn, hl]
      rfl
    | ok t =>
      rcases ih with ⟨ts, hts⟩ | hf
      · exact .inl ⟨t :: ts, List.Forall₂.cons hl hts⟩
      · refine .inr fun p => ?_
        rw [map_cons, Progress.run, step_eq_turn, hl]
        exact hf (p.turned t)

theorem run_pieces_of_benign (repo : Path) (h : l.Benign) (p : Progress) :
    p.run repo ((pieces l.written).map String.ofList) = (p.turned (markTurn l), none) := by
  obtain ⟨t, ts, hp, hf⟩ := exists_pieces_written repo l
  have hno := h.first
  have hl := h.later
  rw [hp] at hno hl ⊢
  have ht : List.Forall₂ (fun line u => turn repo line = .ok u) (t :: ts)
      (markTurn l :: ts.map fun _ => .pass) := by
    refine List.Forall₂.cons (hf (hno t rfl)) ?_
    rw [forall₂_map_right_iff, forall₂_same]
    exact fun u hu => (turn_eq_pass_iff u).2 (hl u hu)
  have hpa : ∀ (q : Progress), (ts.map fun _ => Turn.pass).foldl Progress.turned q = q := by
    intro q
    clear * -
    induction ts with
    | nil => rfl
    | cons u ts ih => exact ih
  rw [run_of_turns ht, foldl_cons, hpa]

theorem run_concat_nil (p : Progress) (ls : List (List Char)) :
    p.run repo ((ls ++ [[]]).map String.ofList) = p.run repo (ls.map String.ofList) := by
  rw [map_append, run_append_eq]
  split
  · next q heq => rw [heq, map_singleton, run_cons (step_passed (by simp) q), Progress.run]
  · next heq => exact heq.symm

theorem run_flatMap_pieces {ms : List (List Char)}
    (h : List.Forall₂ (fun t u => ∀ p : Progress, p.run repo ((pieces t).map String.ofList) =
      p.run repo ((pieces u).map String.ofList)) ls ms) (p : Progress) :
    p.run repo ((ls.flatMap pieces).map String.ofList) =
      p.run repo ((ms.flatMap pieces).map String.ofList) := by
  induction h generalizing p with
  | nil => rfl
  | cons hf _ ih =>
    rw [flatMap_cons, flatMap_cons, map_append, map_append, run_append_eq, run_append_eq, hf p]
    split
    · exact ih _
    · rfl

end RegionSet

namespace Patch

open RegionSet

variable {repo : Path}

theorem addDiff_text_eq (d : Patch) (s : RegionSet) : s.addDiff repo d.text =
      let r := (⟨s, none, 0⟩ : Progress).run repo ((d.lines.flatMap pieces).map String.ofList)
      (r.1.regions, r.2) := by
  have hl : ∀ p : Progress, p.run repo (Text.lines d.text) =
      p.run repo ((d.lines.flatMap pieces).map String.ofList) := by
    intro p
    rw [Text.lines, text, String.toList_ofList]
    cases d.finalNewline with
    | false =>
      rw [if_neg (by decide), append_nil]
      rcases linesOf_intercalate_eq d.lines with heq | heq
      · rw [heq]
      · rw [heq, run_concat_nil]
    | true =>
      have hend : (d.lines ++ [[]]).flatMap pieces = d.lines.flatMap pieces ++ [[]] := by
        rw [flatMap_append, flatMap_singleton]
        rfl
      have heq := linesOf_intercalate_eq (d.lines ++ [[]])
      rw [if_pos rfl, ← run_concat_nil p (d.lines.flatMap pieces), ← hend]
      rcases heq with heq | heq
      · rw [heq]
      · rw [heq, run_concat_nil]
  rw [addDiff, hl]

/-- Patches with benign lines record the same regions if they have the same shape. -/
theorem addDiff_text_eq_of_benign {d e : Patch} (h : d.SameShape e)
    (hd : ∀ l ∈ d.bodyLines, l.Benign) (he : ∀ l ∈ e.bodyLines, l.Benign) (s : RegionSet) :
    s.addDiff repo d.text = s.addDiff repo e.text := by
  have hli := h.forall₂_lines (R := fun t u => ∀ p : Progress,
    p.run repo ((pieces t).map String.ofList) = p.run repo ((pieces u).map String.ofList))
    (fun _ _ => rfl) (fun l hl m hm hma p => by
      rw [run_pieces_of_benign repo (hd l hl), run_pieces_of_benign repo (he m hm),
        markTurn_eq_of_mark hma])
  rw [addDiff_text_eq, addDiff_text_eq, run_flatMap_pieces hli]

end Patch

namespace RegionSet

variable {repo : Path}

/-! ## Lines that are not benign -/

/-- Where turns lead: into the file that is named last, and as many lines as are recorded behind
the last place, if files and places are given at all. -/
theorem exists_turned (ts : List Turn) : ∃ (g : Option Path) (v : Option Int) (k : Nat),
      (∀ s f n, ∃ s', ts.foldl Progress.turned ⟨s, some f, n⟩ = ⟨s', some (g.getD f), v.getD n + k⟩) ∧
      (g = none → v = none → k = ts.count .line ∧ ∀ t ∈ ts, t = .line ∨ t = .pass) := by
  induction ts with
  | nil => exact ⟨none, none, 0, fun s f n => ⟨s, by simp⟩, by simp⟩
  | cons t ts ih =>
    obtain ⟨g, v, k, hen, hs⟩ := ih
    cases t with
    | file f' => exact ⟨some (g.getD f'), v, k, fun s f n => hen s f' n, by simp⟩
    | place n' => exact ⟨g, some (v.getD n'), k, fun s f n => hen s f n', by simp⟩
    | pass =>
      refine ⟨g, v, k, fun s f n => hen s f n, fun hg hv => ?_⟩
      obtain ⟨hk, hall⟩ := hs hg hv
      exact ⟨by simp [hk], by simpa using hall⟩
    | line =>
      cases v with
      | some n' => exact ⟨g, some n', k, fun s f n => hen (s.add f n n) f (n + 1), by simp⟩
      | none =>
        refine ⟨g, none, k + 1, fun s f n => ?_, fun hg hv => ?_⟩
        · obtain ⟨s', hs'⟩ := hen (s.add f n n) f (n + 1)
          refine ⟨s', hs'.trans ?_⟩
          simp only [getD_none]
          push_cast
          rw [Int.add_assoc, Int.add_comm 1]
        · obtain ⟨hk, hall⟩ := hs hg hv
          exact ⟨by simp [hk], by simpa using hall⟩

theorem benign_of_turns {l : Line} {ts : List Turn}
    (h : List.Forall₂ (fun line t => turn repo line = .ok t) (pieces l.written) ts)
    (hall : ∀ t ∈ ts, t = .line ∨ t = .pass) (hc : ts.count .line = [markTurn l].count .line) :
    l.Benign := by
  obtain ⟨t, rest, hp, hf⟩ := exists_pieces_written repo l
  rw [hp] at h
  obtain ⟨u, us, hu, hus, rfl⟩ := forall₂_cons_left_iff.1 h
  have hn : ¬ "+++ b/".toList <+: t := by
    intro hpr
    rw [turn, if_pos hpr] at hu
    cases hu
    simpa using hall _ mem_cons_self
  obtain rfl : markTurn l = u := Except.ok.inj ((hf hn).symm.trans hu)
  have hno : ∀ u ∈ us, u = .pass := by
    intro u hu'
    have hz : us.count .line = 0 := by
      simp only [count_cons, count_nil] at hc
      omega
    refine (hall u (mem_cons_of_mem _ hu')).resolve_left ?_
    rintro rfl
    exact count_eq_zero.1 hz hu'
  have hpa : ∀ t' ∈ rest, turn repo t' = .ok .pass := by
    clear hp h hall hc
    induction hus with
    | nil => simp
    | cons ht _ ih =>
      obtain ⟨rfl, hr⟩ := forall_mem_cons.1 hno
      exact forall_mem_cons.2 ⟨ht, ih hr⟩
  refine ⟨fun t' ht' => ?_, fun t' ht' => ?_⟩
  · rw [hp] at ht'
    cases ht'
    exact hn
  · rw [hp] at ht'
    exact (turn_eq_pass_iff t').1 (hpa t' ht')

theorem exists_bound (s : RegionSet) (f : Path) : ∃ b, ∀ n, s.covers f n → n ≤ b := by
  unfold covers
  induction s.runs f with
  | nil => exact ⟨0, by simp⟩
  | cons r rs ih =>
    obtain ⟨b, hb⟩ := ih
    refine ⟨max r.last b, ?_⟩
    rintro n ⟨r', hr', hf, hl⟩
    rcases mem_cons.1 hr' with rfl | hr'
    · exact le_max_of_le_left hl
    · exact le_max_of_le_right (hb n ⟨r', hr', hf, hl⟩)

/-- Two places in which lines are recorded one after the other can be told apart, whatever one
of them has recorded before. -/
theorem exists_regions_ne {s : RegionSet} (hs : s.WellFormed) {f f' : Path} {n n' : Int} {c : Nat}
    (h : f' ≠ f ∨ n' ≠ n + c) :
    ∃ k, 1 ≤ k ∧ (s.addRun f' n' k).regions ≠ (empty.addRun f n (c + k)).regions := by
  have hd : ∀ {k : Nat} (g : Path) (m : Int),
      ¬ ((s.addRun f' n' k).covers g m ↔ (empty.addRun f n (c + k)).covers g m) →
      (s.addRun f' n' k).regions ≠ (empty.addRun f n (c + k)).regions := by
    intro k g m hne heq
    exact hne ((regions_eq_iff (hs.addRun f' n' k) (wellFormed_empty.addRun f n (c + k))).1 heq g m)
  by_cases ha : f' = f ∧ n + c < n'
  · -- the line `n'` is beyond those that the other place records
    obtain ⟨rfl, hlt⟩ := ha
    refine ⟨1, le_rfl, hd f' n' ?_⟩
    rw [covers_addRun hs, covers_addRun wellFormed_empty]
    simp [covers]
    omega
  · -- the last line is not recorded from the place `n'` on, and it is new to the set
    obtain ⟨b, hb⟩ := exists_bound s f
    refine ⟨(b - n - c).toNat + 2, by omega, hd f (n + c + ((b - n - c).toNat + 1)) ?_⟩
    rw [covers_addRun hs, covers_addRun wellFormed_empty]
    intro hiff
    rcases hiff.2 (.inr ⟨rfl, by omega, by push_cast; omega⟩) with hold | ⟨hf, hlow, hh⟩
    · have hle := hb _ hold
      omega
    · push_cast at hh
      rcases h with hne | hne
      · exact hne hf.symm
      · exact ha ⟨hf.symm, by omega⟩

theorem foldl_replicate_line (s : RegionSet) (f : Path) (n : Int) (k : Nat) :
    (List.replicate k Turn.line).foldl Progress.turned ⟨s, some f, n⟩ = ⟨s.addRun f n k, some f, n + k⟩ := by
  induction k generalizing s n with
  | zero => simp [addRun]
  | succ k ih =>
    refine (ih (s.add f n n) (n + 1)).trans ?_
    rw [addRun]
    push_cast
    rw [Int.add_assoc, Int.add_comm 1]

theorem turned_markTurn (l : Line) (s : RegionSet) (f : Path) (n : Int) :
    (⟨s, some f, n⟩ : Progress).turned (markTurn l) =
      ⟨s.addRun f n ([markTurn l].count .line), some f, n + ([markTurn l].count .line : Nat)⟩ := by
  cases l <;> simp [markTurn, Progress.turned, addRun]

theorem WellFormed.turned {p : Progress} (h : p.regions.WellFormed) (ts : List Turn) :
    (ts.foldl Progress.turned p).regions.WellFormed := by
  induction ts generalizing p with
  | nil => exact h
  | cons t ts ih =>
    refine ih ?_
    cases t with
    | line =>
      obtain ⟨s, file, n⟩ := p
      cases file with
      | none => exact h
      | some f => exact h.add f n n
    | _ => exact h

end RegionSet

namespace Patch

open RegionSet

variable {repo : Path} {k : Nat} {path : List Char} {l : Line}

/-- The hunk of the line `l` behind a gap and above `k` kept lines without text. -/
def hunkOf (gap : Nat) (l : Line) (k : Nat) : Block :=
  ⟨List.replicate gap [], l :: List.replicate k (.kept []), false, false, []⟩

def oneHunk (path : List Char) (gap : Nat) (l : Line) (k : Nat) : Patch :=
  ⟨[.shown [⟨.names, "a/".toList ++ path ++ " b/".toList ++ path⟩] (some path) path
    [hunkOf gap l k]], true⟩

/-- The lines of such a patch above `l`. -/
def front (path : List Char) (gap : Nat) (l : Line) (k : Nat) : List (List Char) :=
  [HeaderLine.written ⟨.names, "a/".toList ++ path ++ " b/".toList ++ path⟩,
    "--- a/".toList ++ path, "+++ b/".toList ++ path,
    (hunkOf gap l k).header
      (position (1 + (hunkOf gap l k).gap.length) (olds (hunkOf gap l k).body).length) (gap + 1)]

theorem isLineEnd_eq_false {c : Char} (h : isBlank c = false) : isLineEnd c = false := by
  simp [isBlank, isLineEnd] at h ⊢
  omega

theorem flatMap_pieces_of_no_end {ls : List (List Char)}
    (h : ∀ line ∈ ls, ∀ c ∈ line, isLineEnd c = false) : ls.flatMap pieces = ls := by
  induction ls with
  | nil => rfl
  | cons line ls ih =>
    obtain ⟨hl, hls⟩ := forall_mem_cons.1 h
    rw [flatMap_cons, pieces_of_no_end hl, ih hls, singleton_append]

theorem header_no_end (b : Block) (hb : ∀ c ∈ b.heading, isLineEnd c = false) (old new : Nat) :
    ∀ c ∈ b.header old new, isLineEnd c = false := by
  have hr : ∀ brief start count, ∀ c ∈ writtenRange brief start count, isLineEnd c = false :=
    fun brief start count c hc => isLineEnd_eq_false (isBlank_of_mem_writtenRange hc)
  have hs : ∀ line ∈ [['@', '@', ' ', '-'], [' ', '+'], [' ', '@', '@']], ∀ c ∈ line,
      isLineEnd c = false := no_end_of_all (by decide)
  intro c hc
  simp only [Block.header, mem_append] at hc
  rcases hc with (hc | hc) | (hc | hc) | hc | hc
  · exact hs _ mem_cons_self c hc
  · exact hr _ _ _ c hc
  · exact hs _ (by simp) c hc
  · exact hr _ _ _ c hc
  · exact hs _ (by simp) c hc
  · exact hb c hc

theorem position_hunkOf (gap : Nat) (l : Line) (hk : 1 ≤ k) :
    position (1 + (hunkOf gap l k).gap.length) (news (hunkOf gap l k).body).length = gap + 1 := by
  have hn : (news (hunkOf gap l k).body).length ≠ 0 := by
    rw [hunkOf, length_news_cons, ← map_replicate, news_map_kept, length_replicate]
    omega
  rw [position, if_neg hn, hunkOf, length_replicate, Nat.add_comm]

theorem lines_oneHunk (hs : ' ' ∉ path) (gap : Nat) (l : Line) (hk : 1 ≤ k) :
    (oneHunk path gap l k).lines = front path gap l k ++ l.written :: List.replicate k [' '] := by
  have hb : (List.replicate k (Line.kept [])).map Line.written = List.replicate k [' '] := map_replicate
  have hold : oldName (some path) = "--- a/".toList ++ path :=
    congrArg ("--- a/".toList ++ ·) (label_of_not_mem hs)
  rw [oneHunk, lines, flatMap_singleton, Section.lines, hold, label_of_not_mem hs,
    writtenHunks, writtenHunks, append_nil, position_hunkOf gap l hk, ← hb]
  rfl

theorem bodyLines_oneHunk (path : List Char) (gap : Nat) (l : Line) (k : Nat) :
    (oneHunk path gap l k).bodyLines = l :: List.replicate k (.kept []) := by
  simp [oneHunk, bodyLines, Section.bodyLines, hunkOf]

theorem sameShape_oneHunk (path : List Char) (gap : Nat) (l : Line) (k : Nat) :
    (oneHunk path gap l k).SameShape (oneHunk path gap l.bare k) := by
  refine ⟨List.Forall₂.cons (Section.SameShape.shown _ _ _ (List.Forall₂.cons ?_ .nil)) .nil, rfl⟩
  exact ⟨rfl, by simp [hunkOf], rfl, rfl, rfl⟩

theorem front_no_end (hen : ∀ c ∈ path, isLineEnd c = false) (gap : Nat) (l : Line) (k : Nat) :
    ∀ line ∈ front path gap l k, ∀ c ∈ line, isLineEnd c = false := by
  have hw : ∀ line ∈ ["diff --git ".toList, "a/".toList, " b/".toList, "--- a/".toList,
      "+++ b/".toList], ∀ c ∈ line, isLineEnd c = false := no_end_of_all (by decide)
  obtain ⟨hd, hr⟩ := forall_mem_cons.1 hw
  obtain ⟨ha, hr⟩ := forall_mem_cons.1 hr
  obtain ⟨hb, hr⟩ := forall_mem_cons.1 hr
  obtain ⟨hm, hr⟩ := forall_mem_cons.1 hr
  obtain ⟨hp, -⟩ := forall_mem_cons.1 hr
  refine forall_mem_cons.2 ⟨?_, forall_mem_cons.2 ⟨?_, forall_mem_cons.2 ⟨?_, forall_mem_singleton.2 ?_⟩⟩⟩
  · exact forall_mem_append.2 ⟨hd, forall_mem_append.2 ⟨forall_mem_append.2
      ⟨forall_mem_append.2 ⟨ha, hen⟩, hb⟩, hen⟩⟩
  · exact forall_mem_append.2 ⟨hm, hen⟩
  · exact forall_mem_append.2 ⟨hp, hen⟩
  · exact header_no_end (hunkOf gap l k) (by simp [hunkOf]) _ _

theorem no_newline_oneHunk (hen : ∀ c ∈ path, isLineEnd c = false) (hs : ' ' ∉ path)
    (gap : Nat) (hl : '\n' ∉ l.written) (hk : 1 ≤ k) :
    ∀ line ∈ (oneHunk path gap l k).lines, '\n' ∉ line := by
  rw [lines_oneHunk hs gap l hk]
  refine forall_mem_append.2 ⟨fun line hli hmem => ?_, forall_mem_cons.2 ⟨hl, ?_⟩⟩
  · exact absurd (front_no_end hen gap l k line hli _ hmem) (by decide)
  · intro line hli
    rw [eq_of_mem_replicate hli]
    decide

theorem run_front (path : List Char) (gap : Nat) (l : Line) (k : Nat) (s : RegionSet) :
    (⟨s, none, 0⟩ : Progress).run repo ((front path gap l k).map String.ofList) =
      (⟨s, some (repo.child (String.ofList path)), gap + 1⟩, none) := by
  have hn := header_passed [⟨.names, "a/".toList ++ path ++ " b/".toList ++ path⟩]
  have hold : ∀ c ∈ ("--- a/".toList ++ path).head?, c ≠ '+' ∧ c ≠ ' ' ∧ c ≠ '@' := by
    intro c hc
    cases hc
    decide
  rw [front, map_cons, run_cons (step_passed (hn _ (by simp)) _), map_cons, run_cons (step_passed hold _),
    map_cons, run_cons (step_name _ _), map_cons, run_cons (step_header _ _ _ _)]
  rfl

/-- Reading a patch of one hunk comes down to its line and the kept lines below it. -/
theorem run_oneHunk (hen : ∀ c ∈ path, isLineEnd c = false) (hs : ' ' ∉ path) (gap : Nat)
    (l : Line) (hk : 1 ≤ k) (s : RegionSet) : (⟨s, none, 0⟩ : Progress).run repo
        (((oneHunk path gap l k).lines.flatMap pieces).map String.ofList) =
      (⟨s, some (repo.child (String.ofList path)), gap + 1⟩ : Progress).run repo
        ((pieces l.written ++ List.replicate k [' ']).map String.ofList) := by
  have hcut : (List.replicate k [' ']).flatMap pieces = List.replicate k [' '] := by
    refine flatMap_pieces_of_no_end fun line hl => ?_
    rw [eq_of_mem_replicate hl]
    exact forall_mem_singleton.2 (by decide)
  rw [lines_oneHunk hs gap l hk, flatMap_append, flatMap_cons, hcut, flatMap_pieces_of_no_end
    (front_no_end hen gap l k), map_append, run_append (run_front path gap l k s)]

theorem addDiff_oneHunk (hen : ∀ c ∈ path, isLineEnd c = false) (hs : ' ' ∉ path) {gap : Nat}
    (hk : 1 ≤ k) {s s' : RegionSet} {f' : Path} {n' : Int}
    (hrun : (⟨s, some (repo.child (String.ofList path)), gap + 1⟩ : Progress).run repo
      ((pieces l.written).map String.ofList) = (⟨s', some f', n'⟩, none)) :
    s.addDiff repo (oneHunk path gap l k).text = (s'.addRun f' n' k, none) := by
  have hspaceTurn : turn repo [' '] = .ok .line := by
    rw [turn, if_neg (by decide), if_neg (by decide), if_pos (by decide)]
  have ht : List.Forall₂ (fun line t => turn repo line = .ok t) (List.replicate k [' '])
      (List.replicate k .line) := by
    clear * - hspaceTurn
    induction k with
    | zero => exact List.Forall₂.nil
    | succ k ih => exact List.Forall₂.cons hspaceTurn ih
  rw [addDiff_text_eq, run_oneHunk hen hs gap l hk, map_append, run_append hrun,
    run_of_turns ht, foldl_replicate_line]

theorem benign_of_no_end (h : ∀ c ∈ l.written, isLineEnd c = false)
    (hn : ¬ "+++ b/".toList <+: l.written) : l.Benign := by
  have hp := pieces_of_no_end h
  constructor
  · intro t ht
    rw [hp] at ht
    cases ht
    exact hn
  · rw [hp]
    simp

theorem benign_bare (l : Line) : l.bare.Benign := by
  refine benign_of_no_end ?_ fun hp => ?_
  · cases l <;> simp [Line.bare, Line.written, isLineEnd]
  · have hle := hp.length_le
    cases l <;> simp [Line.bare, Line.written] at hle

theorem benign_kept (k : Nat) : ∀ m ∈ List.replicate k (Line.kept []), m.Benign := by
  intro m hm
  rw [eq_of_mem_replicate hm]
  exact benign_bare (.kept [])

theorem addDiff_oneHunk_bare (hen : ∀ c ∈ path, isLineEnd c = false) (hs : ' ' ∉ path)
    (gap : Nat) (l : Line) (hk : 1 ≤ k) (s : RegionSet) : s.addDiff repo (oneHunk path gap l.bare k).text =
      (s.addRun (repo.child (String.ofList path)) (gap + 1) ([markTurn l].count .line + k), none) := by
  have hrun := run_pieces_of_benign repo (benign_bare l) ⟨s, some (repo.child (String.ofList path)), gap + 1⟩
  rw [markTurn_eq_of_mark l.mark_bare, turned_markTurn] at hrun
  rw [addDiff_oneHunk hen hs hk hrun, addRun_add]

/-- A file and a line can be chosen that turns do not lead back to, unless they go straight. -/
theorem exists_path_gap (repo : Path) {g : Option Path} {v : Option Int} {c : Nat}
    (h : ¬ (g = none ∧ v = none ∧ k = c)) : ∃ (path : List Char) (gap : Nat), (path = ['a'] ∨ path = ['b']) ∧
      (g.getD (repo.child (String.ofList path)) ≠ repo.child (String.ofList path) ∨
        v.getD ((gap : Int) + 1) + k ≠ (gap : Int) + 1 + c) := by
  cases g with
  | some f =>
    have hs : Path.Spelled ['a'] ∧ Path.Spelled ['b'] := by
      unfold Path.Spelled
      decide
    by_cases hf : f = repo.child (String.ofList ['a'])
    · refine ⟨['b'], 0, .inr rfl, .inl fun heq => ?_⟩
      have hsa := Path.child_injective hs.1 hs.2 (hf.symm.trans heq)
      exact absurd hsa (by decide)
    · exact ⟨['a'], 0, .inl rfl, .inl hf⟩
  | none =>
    cases v with
    | some n =>
      by_cases hn : n + k = 1 + c
      · exact ⟨['a'], 1, .inl rfl, .inr (by simp; omega)⟩
      · exact ⟨['a'], 0, .inl rfl, .inr (by simpa using hn)⟩
    | none => exact ⟨['a'], 0, .inl rfl, .inr (by simp at h ⊢; omega)⟩

theorem letter_no_end (h : path = ['a'] ∨ path = ['b']) : (∀ c ∈ path, isLineEnd c = false) ∧ ' ' ∉ path := by
  rcases h with rfl | rfl
  · exact ⟨forall_mem_singleton.2 (by decide), by decide⟩
  · exact ⟨forall_mem_singleton.2 (by decide), by decide⟩

/-- A line that is not benign makes a difference in some patch. -/
theorem exists_oneHunk_ne (repo : Path) (h : ¬ l.Benign) :
    ∃ (path : List Char) (gap k : Nat), (path = ['a'] ∨ path = ['b']) ∧ 1 ≤ k ∧
      ((empty.addDiff repo (oneHunk path gap l k).text).1.regions ≠
          (empty.addDiff repo (oneHunk path gap l.bare k).text).1.regions ∨
        (empty.addDiff repo (oneHunk path gap l k).text).2 ≠
          (empty.addDiff repo (oneHunk path gap l.bare k).text).2) := by
  rcases exists_turns_or_fails repo (pieces l.written) with ⟨ts, hts⟩ | hf
  · obtain ⟨g, v, j, hen, hst⟩ := exists_turned ts
    have hm : ¬ (g = none ∧ v = none ∧ j = [markTurn l].count .line) := by
      rintro ⟨rfl, rfl, hj⟩
      obtain ⟨hc, hall⟩ := hst rfl rfl
      exact h (benign_of_turns hts hall (hc.symm.trans hj))
    obtain ⟨path, gap, hp, hne⟩ := exists_path_gap repo hm
    obtain ⟨s, hs⟩ := hen empty (repo.child (String.ofList path)) (gap + 1)
    have hwf := WellFormed.turned (p := ⟨empty, some (repo.child (String.ofList path)), gap + 1⟩)
      wellFormed_empty ts
    rw [hs] at hwf
    obtain ⟨k, hk, hr⟩ := exists_regions_ne hwf hne
    obtain ⟨hend, hsp⟩ := letter_no_end hp
    have hrun := run_of_turns hts ⟨empty, some (repo.child (String.ofList path)), gap + 1⟩
    rw [hs] at hrun
    refine ⟨path, gap, k, hp, hk, .inl ?_⟩
    rw [addDiff_oneHunk hend hsp hk hrun, addDiff_oneHunk_bare hend hsp gap l hk]
    exact hr
  · obtain ⟨hend, hsp⟩ := letter_no_end (.inl rfl)
    obtain ⟨q, e, hrun⟩ := hf ⟨empty, some (repo.child (String.ofList ['a'])), (0 : Nat) + 1⟩
    refine ⟨['a'], 0, 1, .inl rfl, le_rfl, .inr ?_⟩
    rw [addDiff_oneHunk_bare hend hsp 0 l le_rfl, addDiff_text_eq,
      run_oneHunk hend hsp 0 l le_rfl, map_append, run_append_eq, hrun]
    simp

/-- The regions that a patch records do not depend on the texts behind the marks of its lines if
these are benign, and any other line records other regions in some patch, or cannot be read. -/
theorem regions_independent_of_benign_texts (repo : Path) :
    (∀ d e : Patch, d.SameShape e → (∀ l ∈ d.bodyLines ++ e.bodyLines, l.Benign) →
      ∀ s : RegionSet, s.addDiff repo d.text = s.addDiff repo e.text) ∧
    ∀ l : Line, '\n' ∉ l.written → ¬ l.Benign →
      ∃ d e : Patch, d.SameShape e ∧ (∀ line ∈ d.lines ++ e.lines, '\n' ∉ line) ∧
        l ∈ d.bodyLines ∧ (∀ m ∈ d.bodyLines, m = l ∨ m.Benign) ∧ (∀ m ∈ e.bodyLines, m.Benign) ∧
        ((empty.addDiff repo d.text).1.regions ≠ (empty.addDiff repo e.text).1.regions ∨
          (empty.addDiff repo d.text).2 ≠ (empty.addDiff repo e.text).2) := by
  refine ⟨fun d e h hbenign s => ?_, fun l hl h => ?_⟩
  · obtain ⟨hd, he⟩ := forall_mem_append.1 hbenign
    exact addDiff_text_eq_of_benign h hd he s
  · obtain ⟨path, gap, k, hpath, hk, hne⟩ := exists_oneHunk_ne repo h
    obtain ⟨hends, hspace⟩ := letter_no_end hpath
    have hbare : '\n' ∉ l.bare.written := by cases l <;> simp [Line.bare, Line.written]
    refine ⟨oneHunk path gap l k, oneHunk path gap l.bare k, sameShape_oneHunk path gap l k,
      forall_mem_append.2 ⟨no_newline_oneHunk hends hspace gap hl hk, no_newline_oneHunk hends hspace gap
      hbare hk⟩, ?_, ?_, ?_, hne⟩
    · rw [bodyLines_oneHunk]
      exact mem_cons_self
    · rw [bodyLines_oneHunk]
      exact forall_mem_cons.2 ⟨.inl rfl, fun m hm => .inr (benign_kept k m hm)⟩
    · rw [bodyLines_oneHunk]
      exact forall_mem_cons.2 ⟨benign_bare l, benign_kept k⟩

/-- A form feed in an added line cuts it in two. With a space behind it the line counts as two
lines, and with other texts it does not. -/
theorem regions_differ_behind_form_feed :
    (∀ s : RegionSet, s.addDiff ⟨["r"]⟩ (oneHunk ['a'] 0 (.added "b c".toList) 3).text =
      s.addDiff ⟨["r"]⟩ (oneHunk ['a'] 0 (.added []) 3).text) ∧
    ¬ (Line.added ['b', '\x0c', ' ', 'c']).Benign ∧
    ∃ d e : Patch, d.SameShape e ∧ Line.added ['b', '\x0c', ' ', 'c'] ∈ d.bodyLines ∧
      ((empty.addDiff ⟨["r"]⟩ d.text).1.regions ≠ (empty.addDiff ⟨["r"]⟩ e.text).1.regions ∨
        (empty.addDiff ⟨["r"]⟩ d.text).2 ≠ (empty.addDiff ⟨["r"]⟩ e.text).2) := by
  have hfeed : ¬ (Line.added ['b', '\x0c', ' ', 'c']).Benign := fun h =>
    (h.later [' ', 'c'] (by decide)).no_space rfl
  have hplain : ∀ l ∈ (oneHunk ['a'] 0 (.added "b c".toList) 3).bodyLines ++
      (oneHunk ['a'] 0 (.added []) 3).bodyLines, l.Benign := by
    have hwords : (Line.added "b c".toList).Benign :=
      benign_of_no_end (by simpa using (by decide :
        ((Line.added "b c".toList).written.all fun c => !isLineEnd c) = true)) (by decide)
    rw [bodyLines_oneHunk, bodyLines_oneHunk]
    exact forall_mem_append.2 ⟨forall_mem_cons.2 ⟨hwords, benign_kept 3⟩,
      forall_mem_cons.2 ⟨benign_bare (.added []), benign_kept 3⟩⟩
  obtain ⟨hsame, hdiffer⟩ := regions_independent_of_benign_texts ⟨["r"]⟩
  obtain ⟨d, e, hshape, -, hmem, -, -, hne⟩ := hdiffer _ (by decide) hfeed
  exact ⟨hsame _ _ (sameShape_oneHunk _ _ _ _) hplain, hfeed, d, e, hshape, hmem, hne⟩

end Patch

end Excerpt
