import Excerpt.Proofs.Diff.LineMap
import Excerpt.Proofs.Diff.Shape
import Excerpt.Proofs.Table

/-!
# Lines that are lost

A line of a diff that starts like one of the two lines that name a file is passed
over, also in a hunk. So an added line with two plus signs at the start of its
text and a removed line with two minus signs are lost, and the lines after them
in the hunk are entered where the reading stands by then.

The line map of a diff lists what the other lines of its hunks show, hunk after
hunk. Two diffs of one shape have the same line map exactly if as many lines are
lost in the same stretches between kept lines. A line that is lost behind the last
kept line of a hunk shows only if it was added.
-/

namespace Excerpt

open List

namespace Unified

variable {vs ws : List (Option Int)} {l m : Line} {ls ms : List Line} {new : Int}

/-- A line of a hunk that starts like a line that names a file. -/
def Line.isNamelike : Line → Bool
  | added t => ['+', '+'].isPrefixOf t
  | removed t => ['-', '-'].isPrefixOf t
  | _ => false

/-- The lines that are passed over. -/
def lost (ls : List Line) : List Line :=
  ls.filter Line.isNamelike

def taken (ls : List Line) : List Line :=
  ls.filter (!·.isNamelike)

/-- As many added lines are lost of `ls` as of `ms`, and above each kept line as many
added and as many removed ones. -/
structure SameLosses (ls ms : List Line) : Prop where
  news : (news (lost ls)).length = (news (lost ms)).length
  above : ∀ i l, ls[i]? = some l → l.isKept →
    (Unified.news (lost (ls.take i))).length = (Unified.news (lost (ms.take i))).length ∧
      (olds (lost (ls.take i))).length = (olds (lost (ms.take i))).length

theorem lost_cons (l : Line) (ls : List Line) :
    lost (l :: ls) = if l.isNamelike then l :: lost ls else lost ls :=
  filter_cons

theorem taken_cons (l : Line) (ls : List Line) :
    taken (l :: ls) = if l.isNamelike then taken ls else l :: taken ls := by
  rw [taken, filter_cons]
  cases l.isNamelike <;> rfl

theorem length_news_taken_le (ls : List Line) : (news (taken ls)).length ≤ (news ls).length :=
  (filter_sublist.filterMap Line.new?).length_le

theorem Line.clean_iff (l : Line) : l.Clean ↔ '\n' ∉ l.written ∧ l.isNamelike = false := by
  cases l <;> simp [Clean, written, isNamelike, ← Bool.not_eq_true]

theorem Line.isNamelike_of_isKept (h : l.isKept) : l.isNamelike = false := by
  cases l with
  | kept t => rfl
  | blank => rfl
  | _ => cases h

theorem Line.isKept_eq_of_mark (h : l.mark = m.mark) : l.isKept = m.isKept := by
  rw [Bool.eq_iff_iff, isKept_iff, isKept_iff, oldCount_eq_of_mark h, newCount_eq_of_mark h]

/-! ## What lines enter into a line map -/

/-- The old numbers that lines show, the first of which stands at `old`. -/
def values (old : Int) : List Line → List (Option Int)
  | [] => []
  | l :: ls =>
    (if l.newCount = 1 then [if l.isKept then some old else none] else []) ++
      values (old + l.oldCount) ls

/-- Old numbers under the new numbers from `new` on. -/
def entries (new : Int) : List (Option Int) → LineMap
  | [] => []
  | v :: vs => (new, v) :: entries (new + 1) vs

theorem length_values (old : Int) (ls : List Line) : (values old ls).length = (news ls).length := by
  induction ls generalizing old with
  | nil => rfl
  | cons l ls ih =>
    have hle := l.newCount_le_one
    rw [values, length_append, ih, length_news_cons]
    split
    · next hnew => rw [hnew, length_singleton]
    · rw [length_nil]
      omega

theorem entries_injective
    (h : entries new vs = entries new ws) : vs = ws := by
  induction vs generalizing new ws with
  | nil =>
    cases ws with
    | nil => rfl
    | cons w ws => cases h
  | cons v vs ih =>
    cases ws with
    | nil => cases h
    | cons w ws =>
      obtain ⟨hv, hvs⟩ := cons.inj h
      rw [(Prod.mk.inj hv).2, ih hvs]

theorem between_of_mem_entries {e : Int × Option Int} (h : e ∈ entries new vs) :
    new ≤ e.1 ∧ e.1 < new + vs.length := by
  induction vs generalizing new with
  | nil => cases h
  | cons v vs ih =>
    rw [length_cons]
    push_cast
    rcases mem_cons.1 h with rfl | h
    · exact ⟨le_rfl, by omega⟩
    · have hl := ih h
      omega

theorem pairwise_entries (new : Int) (vs : List (Option Int)) : (entries new vs).Pairwise (·.1 < ·.1) := by
  induction vs generalizing new with
  | nil => exact List.Pairwise.nil
  | cons v vs ih =>
    refine pairwise_cons.2 ⟨fun e he => ?_, ih (new + 1)⟩
    have hl := between_of_mem_entries he
    omega

/-! ## Two lists of lines with the same marks -/

theorem replicate_append_some_inj {a a' : Nat} {o o' : Int} :
    List.replicate a none ++ some o :: vs = List.replicate a' none ++ some o' :: ws ↔
      a = a' ∧ o = o' ∧ vs = ws := by
  induction a generalizing a' with
  | zero =>
    cases a' with
    | zero => simp
    | succ a' => simp [replicate_succ]
  | succ a ih =>
    cases a' with
    | zero => simp [replicate_succ]
    | succ a' => simp [replicate_succ, ih]

/-- The kept lines of a list are its first line, if that is one, and those of the rest. -/
theorem forall_kept_cons {P : List Line → List Line → Prop} :
    (∀ i x, (l :: ls)[i]? = some x → x.isKept → P ((l :: ls).take i) ((m :: ms).take i)) ↔
      (l.isKept → P [] []) ∧
        ∀ i x, ls[i]? = some x → x.isKept → P (l :: ls.take i) (m :: ms.take i) := by
  constructor
  · intro h
    exact ⟨fun hl => h 0 l rfl hl, fun i x hx hk => h (i + 1) x hx hk⟩
  · rintro ⟨hf, hr⟩ i x hx hk
    cases i with
    | zero =>
      cases hx
      exact hf hk
    | succ i => exact hr i x hx hk

/-- The new and the old lines that a line takes in, and those that are lost with it. -/
theorem Line.counts_lost (l : Line) : (∀ ls, (news (lost (l :: ls))).length =
      (if l.isNamelike then l.newCount else 0) + (news (lost ls)).length) ∧
    ∀ ls, (olds (lost (l :: ls))).length =
      (if l.isNamelike then l.oldCount else 0) + (olds (lost ls)).length := by
  constructor <;> intro ls <;> rw [lost_cons] <;> split <;>
    simp [length_news_cons, length_olds_cons]

theorem replicate_append_values (h : l.isKept = false) (a : Nat) (o : Int) (ls : List Line) :
    List.replicate a none ++ values o (taken (l :: ls)) =
      List.replicate (a + if l.isNamelike then 0 else l.newCount) none ++
        values (o + if l.isNamelike then 0 else l.oldCount) (taken ls) := by
  rw [taken_cons]
  split
  · simp
  · have hle := l.newCount_le_one
    rw [values, h]
    split
    · next hnew => simp [hnew, replicate_succ']
    · next hnew =>
        have hz : l.newCount = 0 := by omega
        simp [hz]

/-- What two lists with the same marks show, behind `a` and `a'` added lines and from the old
lines `o` and `o'` on, is the same exactly if the losses make up for the differences at the
end and at each kept line. -/
theorem values_eq_iff (h : ls.map Line.mark = ms.map Line.mark)
    (a a' : Nat) (o o' : Int) :
    List.replicate a none ++ values o (taken ls) = List.replicate a' none ++ values o' (taken ms) ↔
      a' + (news (lost ls)).length = a + (news (lost ms)).length ∧ ∀ i x, ls[i]? = some x → x.isKept →
          a' + (news (lost (ls.take i))).length = a + (news (lost (ms.take i))).length ∧
            o' + (olds (lost (ls.take i))).length = o + (olds (lost (ms.take i))).length := by
  induction ls generalizing ms a a' o o' with
  | nil =>
    cases ms with
    | nil =>
      simp only [taken, lost, values, news, filter_nil, filterMap_nil, append_nil, length_nil, Nat.add_zero]
      constructor
      · intro heq
        exact ⟨by simpa using (congrArg List.length heq).symm, by simp⟩
      · rintro ⟨rfl, -⟩
        rfl
    | cons m ms => cases h
  | cons l ls ih =>
    cases ms with
    | nil => cases h
    | cons m ms =>
      obtain ⟨hma, hmarks⟩ := cons.inj h
      obtain ⟨hne, ho⟩ := l.counts_lost
      obtain ⟨hnewm, hol⟩ := m.counts_lost
      have hk := Line.isKept_eq_of_mark hma
      rw [forall_kept_cons (P := fun above above' =>
        a' + (news (lost above)).length = a + (news (lost above')).length ∧
          o' + (olds (lost above)).length = o + (olds (lost above')).length)]
      simp only [hne, hnewm, ho, hol]
      by_cases hl : l.isKept
      · -- both show the line, so nothing is left over from the lines above it
        have hn := Line.isNamelike_of_isKept hl
        have hm := hk.symm.trans hl
        have hna := Line.isNamelike_of_isKept hm
        have hco := l.isKept_iff.1 hl
        have hc := m.isKept_iff.1 hm
        have hr := ih hmarks 0 0 (o + 1) (o' + 1)
        simp only [replicate_zero, nil_append, Nat.zero_add] at hr
        simp only [taken_cons, hn, hna, values, hco, hc, hl, hm, if_true,
          Bool.false_eq_true, if_false, singleton_append, replicate_append_some_inj,
          Nat.cast_one, hr, Nat.zero_add, forall_const, lost, filter_nil, news, olds,
          filterMap_nil, length_nil, Nat.add_zero, Nat.cast_zero, Int.add_zero]
        constructor
        · rintro ⟨rfl, rfl, hend, hr⟩
          refine ⟨by omega, ⟨rfl, rfl⟩, fun i x hx hxk => ?_⟩
          have hx := hr i x hx hxk
          omega
        · rintro ⟨hend, ⟨rfl, rfl⟩, hr⟩
          refine ⟨rfl, rfl, by omega, fun i x hx hxk => ?_⟩
          have hx := hr i x hx hxk
          omega
      · have hl' : l.isKept = false := by simpa using hl
        have hm' : m.isKept = false := hk.symm.trans hl'
        have hnew := Line.newCount_eq_of_mark hma
        have hold := Line.oldCount_eq_of_mark hma
        rw [replicate_append_values hl', replicate_append_values hm', ih hmarks]
        simp only [hl', Bool.false_eq_true, false_implies, true_and, hnew, hold]
        refine and_congr ?_ (forall_congr' fun i => forall_congr' fun x =>
          forall_congr' fun _ => forall_congr' fun _ => and_congr ?_ ?_)
        · split <;> split <;> omega
        · split <;> split <;> omega
        · split <;> split <;> push_cast <;> omega

/-- Lists with the same marks show the same exactly if their losses are the same. -/
theorem values_taken_eq_iff (h : ls.map Line.mark = ms.map Line.mark)
    (old : Int) : values old (taken ls) = values old (taken ms) ↔ SameLosses ls ms := by
  have hv := values_eq_iff h 0 0 old old
  simp only [replicate_zero, nil_append, Nat.zero_add, Int.add_right_inj, Nat.cast_inj] at hv
  rw [hv]
  exact ⟨fun hl => ⟨hl.1, hl.2⟩, fun hl => ⟨hl.news, hl.above⟩⟩

end Unified

namespace LineMap

open Unified Patch

variable {new old : Nat} {b c : Block} {e : Int × Option Int} {bs cs later : List Block} {final : Bool}

theorem step_namelike {l : Line} (hl : l.isNamelike) (p : Progress) : p.step l.written = p := by
  have hp : "+++".toList = ['+', '+', '+'] := by decide
  have hm : "---".toList = ['-', '-', '-'] := by decide
  unfold Progress.step
  rw [Hunk.header?_written l, hp, hm]
  cases hn : p.next with
  | none => rfl
  | some place =>
    refine if_pos ?_
    cases l with
    | added t => simpa [Line.written, Line.isNamelike] using hl
    | removed t => simpa [Line.written, Line.isNamelike] using hl
    | _ => cases hl

theorem readLines_taken {ls : List Line} (hls : ∀ l ∈ ls, '\n' ∉ l.written) {map : LineMap}
    {new : Int} (hmap : ∀ e ∈ map, e.1 < new) (old : Int) :
    (readLines ⟨map, some (old, new)⟩ (ls.map Line.written)).map =
      map ++ entries new (values old (taken ls)) := by
  induction ls generalizing map old new with
  | nil => simp [taken, values, entries]
  | cons l ls ih =>
    obtain ⟨hl, hr⟩ := forall_mem_cons.1 hls
    rw [map_cons, readLines, foldl_cons, ← readLines, taken_cons]
    by_cases hn : l.isNamelike
    · rw [step_namelike hn, if_pos hn, ih hr hmap]
    · have hc : l.Clean := l.clean_iff.2 ⟨hl, by simpa using hn⟩
      rw [step_written_eq hc, if_neg hn, values]
      by_cases hnew : l.newCount = 1
      · have hf : new ∉ Table.keys map := by
          intro hmem
          obtain ⟨e, he, heq⟩ := List.mem_map.1 hmem
          exact absurd heq (ne_of_lt (hmap e he))
        have hmap' : ∀ e ∈ map ++ [(new, if l.isKept then some old else none)],
            e.1 < new + l.newCount := by
          intro e he
          rcases mem_append.1 he with he | he
          · have hlt := hmap e he
            omega
          · rw [mem_singleton.1 he]
            simp [hnew]
        rw [if_pos hnew, if_pos hnew, Table.put_of_not_mem hf, ih hr hmap',
          append_assoc, singleton_append, singleton_append, entries, hnew]
        rfl
      · have hz : (l.newCount : Int) = 0 := by
          have hle := l.newCount_le_one
          omega
        rw [if_neg hnew, if_neg hnew, hz, Int.add_zero, nil_append]
        exact ih hr hmap (old + l.oldCount)

/-! ## Reading hunk after hunk -/

/-- The lines that are read for the hunk `b` before the hunks `later`. The empty line behind
the last line feed is read as one more line of the last hunk. -/
def bodyRead (final : Bool) (b : Block) (later : List Block) : List Line :=
  if final && later.isEmpty then b.body ++ [Line.blank] else b.body

def bodiesRead (final : Bool) : List Block → List (List Line)
  | [] => []
  | b :: bs => bodyRead final b bs :: bodiesRead final bs

/-- What a hunk enters that comes after the lines before `old` and `new`. -/
def entered (final : Bool) (old new : Nat) (b : Block) (later : List Block) : LineMap :=
  entries (position (new + b.gap.length) (news b.body).length)
    (values (position (old + b.gap.length) (olds b.body).length) (taken (bodyRead final b later)))

/-- What hunks enter. -/
def enteredBy (final : Bool) (old new : Nat) : List Block → LineMap
  | [] => []
  | b :: bs =>
    entered final old new b bs ++
      enteredBy final (old + (olds b.lines).length) (new + (news b.lines).length) bs

theorem entered_cons (final : Bool) (old new : Nat) (b c : Block) (later : List Block) :
    entered final old new b (c :: later) = entries (position (new + b.gap.length) (news b.body).length)
        (values (position (old + b.gap.length) (olds b.body).length) (taken b.body)) := by
  simp [entered, bodyRead]

theorem position_le (start count : Nat) : position start count ≤ start := by
  unfold position
  split <;> omega

/-- A hunk with new lines before or in it does not start before the hunk above it ends. -/
theorem le_position (h : news b.lines ≠ []) (new : Nat) :
    (new : Int) ≤ position (new + b.gap.length) (news b.body).length := by
  have hpos := length_pos_of_ne_nil h
  rw [length_news_lines] at hpos
  unfold position
  split <;> omega

theorem le_of_mem_entered (h : e ∈ entered final old new b later) :
    (position (new + b.gap.length) (news b.body).length : Int) ≤ e.1 :=
  (between_of_mem_entries h).1

/-- A hunk before another one enters only what lies in it. -/
theorem lt_of_mem_entered
    (h : e ∈ entered final old new b (c :: later)) : e.1 < (new + (news b.lines).length : Nat) := by
  rw [entered_cons] at h
  have hb := between_of_mem_entries h
  have hle := length_news_taken_le b.body
  have hs := position_le (new + b.gap.length) (news b.body).length
  rw [length_values] at hb
  rw [length_news_lines]
  omega

theorem le_of_mem_enteredBy (hbs : ∀ b ∈ bs, news b.lines ≠ [])
    (h : e ∈ enteredBy final old new bs) : (new : Int) ≤ e.1 := by
  induction bs generalizing old new with
  | nil => cases h
  | cons b bs ih =>
    obtain ⟨hb, hr⟩ := forall_mem_cons.1 hbs
    rcases mem_append.1 h with h | h
    · exact (le_position hb _).trans (le_of_mem_entered h)
    · have hle := ih hr h
      push_cast at hle
      omega

theorem pairwise_enteredBy (final : Bool) (old new : Nat) (hbs : ∀ b ∈ bs.tail, news b.lines ≠ []) :
    (enteredBy final old new bs).Pairwise (·.1 < ·.1) := by
  induction bs generalizing old new with
  | nil => exact List.Pairwise.nil
  | cons b bs ih =>
    have ht : ∀ c ∈ bs.tail, news c.lines ≠ [] := fun c hc => hbs c (mem_of_mem_tail hc)
    refine pairwise_append.2 ⟨pairwise_entries _ _, ih _ _ ht, fun e he e' he' => ?_⟩
    cases bs with
    | nil => cases he'
    | cons c bs => exact lt_of_lt_of_le (lt_of_mem_entered he) (le_of_mem_enteredBy hbs he')

/-- Reading hunks that do not overlap lists what they enter behind what was there. -/
theorem readLines_writtenHunks (final : Bool) (hg : ∀ c ∈ bs, news c.lines ≠ [])
    (hli : ∀ c ∈ b :: bs, ∀ l ∈ c.body, '\n' ∉ l.written) {p : Progress}
    (hmap : ∀ e ∈ p.map, e.1 < position (new + b.gap.length) (news b.body).length) :
    (readLines p (writtenHunks old new (b :: bs) ++ if final then [[]] else [])).map =
      p.map ++ enteredBy final old new (b :: bs) := by
  induction bs generalizing b p old new with
  | nil =>
    have hr : (b.body.map Line.written ++ if final then [[]] else []) =
        (bodyRead final b []).map Line.written := by
      cases final <;> simp [bodyRead, Line.written]
    have hbo : ∀ l ∈ bodyRead final b [], '\n' ∉ l.written := by
      have hb := (forall_mem_cons.1 hli).1
      cases final with
      | false => simpa [bodyRead] using hb
      | true =>
        intro l hl
        rcases mem_append.1 hl with hl | hl
        · exact hb l hl
        · rw [mem_singleton.1 hl]
          exact not_mem_nil
    rw [writtenHunks, writtenHunks, append_nil, cons_append, readLines,
      foldl_cons, ← readLines, Progress.step, Hunk.header?_header, hr,
      readLines_taken hbo hmap, enteredBy, enteredBy, append_nil, entered]
  | cons c bs ih =>
    obtain ⟨hc, hre⟩ := forall_mem_cons.1 hg
    obtain ⟨hb, hla⟩ := forall_mem_cons.1 hli
    have hen := readLines_taken hb hmap (position (old + b.gap.length) (olds b.body).length)
    rw [← entered_cons final old new b c bs] at hen
    rw [writtenHunks, cons_append, append_assoc, readLines, foldl_cons,
      ← readLines, Progress.step, Hunk.header?_header]
    simp only
    rw [readLines_append, ih hre hla, hen, append_assoc, enteredBy.eq_def _ old]
    intro e he
    rw [hen] at he
    refine lt_of_lt_of_le ?_ (le_position hc _)
    rcases mem_append.1 he with he | he
    · have hlt := hmap e he
      have hle := position_le (new + b.gap.length) (news b.body).length
      rw [length_news_lines]
      omega
    · exact lt_of_mem_entered he

/-! ## Two diffs of one shape -/

/-- Tables that are cut at one number are the same if their parts are. -/
theorem append_inj_of_lt {m m' r r' : LineMap} {k : Int} (hm : ∀ e ∈ m, e.1 < k)
    (hm' : ∀ e ∈ m', e.1 < k) (hr : ∀ e ∈ r, k ≤ e.1) (hr' : ∀ e ∈ r', k ≤ e.1)
    (h : m ++ r = m' ++ r') : m = m' ∧ r = r' := by
  have hcut : ∀ {a b : LineMap}, (∀ e ∈ a, e.1 < k) → (∀ e ∈ b, k ≤ e.1) →
      (a ++ b).filter (fun e => e.1 < k) = a := by
    intro a b ha hb
    rw [filter_append, filter_eq_self.2 (by simpa using ha),
      filter_eq_nil_iff.2 (by simpa using hb), append_nil]
  have hf : m = m' := by rw [← hcut hm hr, h, hcut hm' hr']
  exact ⟨hf, append_cancel_left (hf ▸ h)⟩

theorem entered_eq_iff (h : b.SameShape c)
    (hl : bs.length = cs.length) (final : Bool) (old new : Nat) :
    entered final old new b bs = entered final old new c cs ↔
      SameLosses (bodyRead final b bs) (bodyRead final c cs) := by
  have hm : (bodyRead final b bs).map Line.mark = (bodyRead final c cs).map Line.mark := by
    have hem : bs.isEmpty = cs.isEmpty := by
      rw [Bool.eq_iff_iff, isEmpty_iff_length_eq_zero, isEmpty_iff_length_eq_zero, hl]
    rw [bodyRead, bodyRead, hem]
    split
    · rw [map_append, map_append, h.marks]
    · exact h.marks
  obtain ⟨holds, hn⟩ := lengths_eq_of_marks h.marks
  rw [entered, entered, h.gap, holds, hn, ← values_taken_eq_iff hm]
  exact ⟨entries_injective, congrArg _⟩

theorem enteredBy_eq_iff (h : List.Forall₂ Block.SameShape bs cs)
    (hbs : ∀ b ∈ bs.tail, news b.lines ≠ []) (hcs : ∀ c ∈ cs.tail, news c.lines ≠ []) (final : Bool)
    (old new : Nat) : enteredBy final old new bs = enteredBy final old new cs ↔
      List.Forall₂ SameLosses (bodiesRead final bs) (bodiesRead final cs) := by
  induction h generalizing old new with
  | nil => simp [enteredBy, bodiesRead]
  | @cons b c bs cs hbc hr ih =>
    have hf := entered_eq_iff hbc hr.length_eq final old new
    have hl := ih (fun b hb => hbs b (mem_of_mem_tail hb)) (fun c hc => hcs c (mem_of_mem_tail hc)) (old +
      (olds b.lines).length) (new + (news b.lines).length)
    rw [enteredBy, enteredBy, bodiesRead, bodiesRead, forall₂_cons, ← hf, ← hl,
      ← hbc.length_olds_lines, ← hbc.length_news_lines]
    constructor
    · intro heq
      cases hr with
      | nil =>
        rw [enteredBy, append_nil, append_nil] at heq
        exact ⟨heq, rfl⟩
      | cons _ _ =>
        refine append_inj_of_lt (fun e he => lt_of_mem_entered he) (fun e he => ?_)
          (fun e he => le_of_mem_enteredBy hbs he) (fun e he => le_of_mem_enteredBy hcs he) heq
        rw [hbc.length_news_lines]
        exact lt_of_mem_entered he
    · rintro ⟨hb, hbs⟩
      rw [hb, hbs]

end LineMap

namespace Unified

open Patch LineMap

namespace Document

/-- The lines of a diff in which a side of a hunk without lines has the position of the line
before. -/
def patchLines (d : Document) : List (List Char) :=
  d.preamble ++ writtenHunks 1 1 d.blocks

/-- The text of such a diff. -/
def patchText (d : Document) : String :=
  String.ofList (List.intercalate ['\n'] (d.patchLines ++ if d.finalNewline then [[]] else []))

/-- A diff of lines with no line before the first hunk that could head one. Each later hunk
has new lines between it and the hunk above it, or in it. -/
structure Lined (d : Document) : Prop where
  preamble : ∀ t ∈ d.preamble, ¬ ['@', '@'] <+: t
  no_newline : ∀ t ∈ d.patchLines, '\n' ∉ t
  apart : ∀ b ∈ d.blocks.tail, news b.lines ≠ []

end Document

end Unified

namespace LineMap

open Unified Patch

variable {bs : List Block} {b : Block}

theorem mem_writtenHunks {old new : Nat} {l : Line} (hb : b ∈ bs)
    (hl : l ∈ b.body) : l.written ∈ writtenHunks old new bs := by
  induction bs generalizing old new with
  | nil => cases hb
  | cons c bs ih =>
    refine mem_cons_of_mem _ ?_
    rcases mem_cons.1 hb with rfl | hb
    · exact mem_append_left _ (List.mem_map_of_mem hl)
    · exact mem_append_right _ (ih hb)

theorem ofDiff_ofList_intercalate {lines : List (List Char)} (hne : lines ≠ []) (h : ∀ t ∈ lines, '\n' ∉ t) :
    ofDiff (String.ofList (List.intercalate ['\n'] lines)) = (readLines ⟨[], none⟩ lines).map := by
  rw [ofDiff, Text.split_ofList_intercalate hne h, foldl_map]
  simp only [String.toList_ofList]
  rfl

theorem ofDiff_patchText {d : Document} (hd : d.Lined) :
    ofDiff d.patchText = enteredBy d.finalNewline 1 1 d.blocks := by
  obtain ⟨preamble, blocks, tail, final⟩ := d
  have hp : ∀ t ∈ preamble, '\n' ∉ t ∧ ¬ ['@', '@'] <+: t := fun t ht =>
    ⟨hd.no_newline t (mem_append_left _ ht), hd.preamble t ht⟩
  have hex : ∀ t ∈ (if final then [[]] else [] : List (List Char)),
      '\n' ∉ t ∧ ¬ ['@', '@'] <+: t := by
    cases final <;> simp
  have hli : ∀ t ∈ (preamble ++ writtenHunks 1 1 blocks) ++ (if final then [[]] else []),
      '\n' ∉ t := by
    intro t ht
    rcases mem_append.1 ht with ht | ht
    · exact hd.no_newline t ht
    · exact (hex t ht).1
  cases blocks with
  | nil =>
    by_cases hnil : preamble ++ (if final then [[]] else []) = []
    · obtain ⟨rfl, hf⟩ := append_eq_nil_iff.1 hnil
      have hem : ofDiff (String.ofList (List.intercalate ['\n'] [])) = [] := by decide
      simp only [Document.patchText, Document.patchLines, writtenHunks, append_nil, hf]
      exact hem
    · rw [writtenHunks, append_nil] at hli
      have hall := forall_mem_append.2 ⟨hp, hex⟩
      simp only [Document.patchText, Document.patchLines, writtenHunks, append_nil]
      rw [ofDiff_ofList_intercalate hnil hli, readLines_preamble hall, enteredBy]
  | cons b bs =>
    have hne : (preamble ++ writtenHunks 1 1 (b :: bs)) ++ (if final then [[]] else []) ≠ [] := by
      simp [writtenHunks]
    have hg : ∀ c ∈ bs, news c.lines ≠ [] := hd.apart
    have hb : ∀ c ∈ b :: bs, ∀ l ∈ c.body, '\n' ∉ l.written := fun c hc l hl =>
      hd.no_newline _ (mem_append_right _ (mem_writtenHunks hc hl))
    rw [Document.patchText, Document.patchLines, ofDiff_ofList_intercalate hne hli,
      append_assoc, readLines_append, readLines_preamble hp,
      readLines_writtenHunks final hg hb (by simp), nil_append]

theorem sameLosses_of_lost_eq_nil {ls ms : List Line} (hls : lost ls = []) (hms : lost ms = []) :
    SameLosses ls ms := by
  have ht : ∀ {as : List Line} (i : Nat), lost as = [] → lost (as.take i) = [] := by
    intro as i has
    exact eq_nil_of_sublist_nil (has ▸ (take_sublist i as).filter Line.isNamelike)
  refine ⟨by rw [hls, hms], fun i l _ _ => ?_⟩
  rw [ht i hls, ht i hms]
  exact ⟨rfl, rfl⟩

theorem lost_bodyRead (h : ∀ l ∈ b.body, l.isNamelike = false) (final : Bool)
    (later : List Block) : lost (bodyRead final b later) = [] := by
  rw [lost, filter_eq_nil_iff]
  intro l hl
  unfold bodyRead at hl
  split at hl
  · rcases mem_append.1 hl with hl | hl
    · rw [h l hl]
      decide
    · rw [mem_singleton.1 hl]
      decide
  · rw [h l hl]
    decide

theorem sameLosses_of_forall {cs : List Block} (h : bs.length = cs.length)
    (hbs : ∀ b ∈ bs, ∀ l ∈ b.body, l.isNamelike = false)
    (hcs : ∀ c ∈ cs, ∀ l ∈ c.body, l.isNamelike = false) (final : Bool) :
    List.Forall₂ SameLosses (bodiesRead final bs) (bodiesRead final cs) := by
  induction bs generalizing cs with
  | nil =>
    obtain rfl := length_eq_zero_iff.1 h.symm
    exact List.Forall₂.nil
  | cons b bs ih =>
    cases cs with
    | nil => cases h
    | cons c cs =>
      obtain ⟨hb, hbs⟩ := forall_mem_cons.1 hbs
      obtain ⟨hc, hcs⟩ := forall_mem_cons.1 hcs
      exact List.Forall₂.cons (sameLosses_of_lost_eq_nil (lost_bodyRead hb final bs) (lost_bodyRead hc final
        cs)) (ih (Nat.succ.inj h) hbs hcs)

/-- The line maps of two diffs that differ only in the texts of their lines are the same exactly
if, hunk by hunk, as many lines are lost above each kept line and as many added ones in all. So
they are the same if no line starts like the name of a file. -/
theorem ofDiff_eq_iff_sameLosses {d e : Document} (hd : d.Lined) (he : e.Lined)
    (h : d.SameShape e) :
    (ofDiff d.patchText = ofDiff e.patchText ↔
      List.Forall₂ SameLosses (bodiesRead d.finalNewline d.blocks)
        (bodiesRead e.finalNewline e.blocks)) ∧
    ((∀ k, (ofDiff d.patchText).get? k = (ofDiff e.patchText).get? k) →
      ofDiff d.patchText = ofDiff e.patchText) ∧
    ((∀ b ∈ d.blocks ++ e.blocks, ∀ l ∈ b.body, l.isNamelike = false) →
      ofDiff d.patchText = ofDiff e.patchText) := by
  have hiff := enteredBy_eq_iff h.blocks hd.apart he.apart d.finalNewline 1 1
  rw [ofDiff_patchText hd, ofDiff_patchText he, ← h.finalNewline]
  refine ⟨hiff, fun hget => ?_, fun hnone => ?_⟩
  · exact Table.eq_of_get?_eq (pairwise_enteredBy _ 1 1 hd.apart) (pairwise_enteredBy _ 1 1 he.apart) hget
  · obtain ⟨hbs, hcs⟩ := forall_mem_append.1 hnone
    exact hiff.2 (sameLosses_of_forall h.blocks.length_eq hbs hcs d.finalNewline)

/-- The diff of a file of three lines that loses the second one. -/
def withoutSecond (text : List Char) : Document :=
  ⟨["--- a/q.sql".toList, "+++ b/q.sql".toList],
    [⟨[], [.kept ['a'], .removed text, .kept ['b']], false, false, []⟩], [], true⟩

/-- A removed comment with two dashes is lost, and the line below it is given the number that
the comment had. -/
theorem ofDiff_ne_of_removed_dashes :
    ((withoutSecond "-- gone".toList).Lined ∧ (withoutSecond "gone".toList).Lined ∧
      (withoutSecond "-- gone".toList).SameShape (withoutSecond "gone".toList)) ∧
    ofDiff (withoutSecond "-- gone".toList).patchText ≠
      ofDiff (withoutSecond "gone".toList).patchText := by
  have hdashed : (withoutSecond "-- gone".toList).Lined := ⟨by decide, by decide, by decide⟩
  have hplain : (withoutSecond "gone".toList).Lined := ⟨by decide, by decide, by decide⟩
  have hshape : (withoutSecond "-- gone".toList).SameShape (withoutSecond "gone".toList) :=
    ⟨rfl, List.Forall₂.cons ⟨rfl, rfl, rfl, rfl, rfl⟩ List.Forall₂.nil, rfl⟩
  refine ⟨⟨hdashed, hplain, hshape⟩, fun heq => ?_⟩
  have hlosses := (ofDiff_eq_iff_sameLosses hdashed hplain hshape).1.1 heq
  cases hlosses with
  | cons hfirst _ => exact absurd (hfirst.above 2 (.kept ['b']) rfl rfl).2 (by decide)

end LineMap

end Excerpt
