import Excerpt.Proofs.Diff.Header
import Excerpt.Proofs.Diff.Patch
import Excerpt.Proofs.Region.Lines
import Excerpt.Proofs.Text.Lines
import Excerpt.Proofs.Text.Trim
import Excerpt.Region.Changes

/-!
# Reading a patch

A patch is read line by line, and what a line means is told from its first
characters only. The reading of a whole section is described by `Section.read`:
the lines of a header leave everything as it is, the new name of a file makes it
the file being shown, and a hunk adds its lines of the new text. The name of the
null device is read as one more line of the file that was shown before.

The result is `addDiff_text`: reading the text of a patch reads its sections one
after the other.
-/

namespace Excerpt

open List Option

namespace Text

variable {c : Char}

/-! ## Words and numbers of a header -/

theorem wordsOf_cons_of_ne {d : Char} (hc : isBlank c = false) (hd : isBlank d = false)
    (cs : List Char) : wordsOf (c :: d :: cs) = consHead c (wordsOf (d :: cs)) := by
  rw [wordsOf.eq_def]
  simp only [hc, hd]
  rw [if_neg (by simp), if_neg (by simp)]
  cases wordsOf (d :: cs) <;> rfl

theorem wordsOf_space (cs : List Char) : wordsOf (' ' :: cs) = wordsOf cs := by
  rw [wordsOf.eq_def]
  exact if_pos (by decide)

theorem wordsOf_cons_space (hc : isBlank c = false) (cs : List Char) :
    wordsOf (c :: ' ' :: cs) = [c] :: wordsOf cs := by
  rw [← wordsOf_space cs, wordsOf.eq_def]
  simp only [hc]
  rw [if_neg (by simp)]
  exact if_pos (by decide)

theorem wordsOf_append_space {w : List Char} (hne : w ≠ []) (hw : ∀ c ∈ w, isBlank c = false)
    (cs : List Char) : wordsOf (w ++ ' ' :: cs) = w :: wordsOf cs := by
  induction w with
  | nil => exact absurd rfl hne
  | cons c w ih =>
    obtain ⟨hc, hr⟩ := forall_mem_cons.1 hw
    cases w with
    | nil => exact wordsOf_cons_space hc cs
    | cons d w =>
      rw [cons_append, cons_append, wordsOf_cons_of_ne hc (hr d mem_cons_self), ← cons_append, ih (by simp)
        hr, consHead]

theorem isBlank_of_isDigit (h : c.isDigit) : isBlank c = false := by
  have hc := toNat_of_isDigit h
  simp [isBlank]
  omega

theorem numeralFrom_of_isDigit {cs : List Char} (h : ∀ c ∈ cs, c.isDigit) (n : Nat) :
    numeralFrom n cs = some (Nat.ofDigitChars 10 cs n) := by
  induction cs generalizing n with
  | nil => rfl
  | cons c cs ih =>
    obtain ⟨hc, hcs⟩ := forall_mem_cons.1 h
    have hne : c ≠ '_' := by
      rintro rfl
      exact absurd hc (by decide)
    rw [numeralFrom, digit?_of_isDigit hc]
    · simp only
      rw [ih hcs, Nat.ofDigitChars_cons, Nat.mul_comm]
      rfl
    · rintro d ds rfl
      exact absurd rfl hne

theorem numeral?_toDigits (n : Nat) : numeral? (Nat.toDigits 10 n) = some n := by
  have hd : ∀ c ∈ Nat.toDigits 10 n, c.isDigit := fun c hc =>
    Nat.isDigit_of_mem_toDigits (by decide) (by decide) hc
  have hv : Nat.ofDigitChars 10 (Nat.toDigits 10 n) 0 = n := Nat.ofDigitChars_ten_toDigits
  cases hcs : Nat.toDigits 10 n with
  | nil => exact absurd hcs Nat.toDigits_ne_nil
  | cons c cs =>
    rw [hcs] at hd hv
    obtain ⟨hc, hcs'⟩ := forall_mem_cons.1 hd
    rw [numeral?, digit?_of_isDigit hc, bind_some, numeralFrom_of_isDigit hcs']
    rw [Nat.ofDigitChars_cons, Nat.mul_zero, Nat.zero_add] at hv
    exact congrArg some hv

theorem int?_toDigits (n : Nat) : int? (String.ofList (Nat.toDigits 10 n)) = some (n : Int) := by
  have hd : ∀ c ∈ Nat.toDigits 10 n, c.isDigit := fun c hc =>
    Nat.isDigit_of_mem_toDigits (by decide) (by decide) hc
  rw [int?, String.toList_ofList, trimBy_of_forall fun c hc => isBlank_of_isDigit (hd c hc)]
  split
  · next cs heq =>
    exact absurd (hd '-' (heq ▸ mem_cons_self)) (by decide)
  · next cs heq =>
    exact absurd (hd '+' (heq ▸ mem_cons_self)) (by decide)
  · rw [numeral?_toDigits]
    rfl

theorem startsWith_ofList (cs : List Char) (s : String) :
    startsWith (String.ofList cs) s = s.toList.isPrefixOf cs := by
  rw [startsWith, String.toList_ofList]

end Text

namespace RegionSet

open Unified Patch

variable {c : Char} {line : List Char} {s : RegionSet} {p q : Progress}

theorem isBlank_of_mem_writtenRange {brief : Bool} {start count : Nat}
    (h : c ∈ writtenRange brief start count) : Text.isBlank c = false := by
  have hd : ∀ n, c ∈ Nat.toDigits 10 n → Text.isBlank c = false := fun n hc =>
    Text.isBlank_of_isDigit (Nat.isDigit_of_mem_toDigits (by decide) (by decide) hc)
  unfold writtenRange at h
  split at h
  · exact hd _ h
  · rcases mem_append.1 h with h | h
    · exact hd _ h
    · rcases mem_cons.1 h with rfl | h
      · decide
      · exact hd _ h

theorem beforeFirst_writtenRange (brief : Bool) (start count : Nat) :
    Text.beforeFirst "," (String.ofList (writtenRange brief start count)) =
      String.ofList (Nat.toDigits 10 start) := by
  have hsep : ",".toList = [','] := by decide
  have hno : ',' ∉ Nat.toDigits 10 start := fun hmem =>
    absurd (Nat.isDigit_of_mem_toDigits (by decide) (by decide) hmem) (by decide)
  rw [Text.beforeFirst, Text.split, hsep, String.toList_ofList, writtenRange]
  split
  · rw [Text.partsFrom_of_not_mem hno]
    rfl
  · rw [Text.partsFrom_append hno]
    rfl

theorem headerLine?_header (b : Block) (old new : Nat) :
    headerLine? (String.ofList (b.header old new)) = .ok (some (new : Int)) := by
  have hp : "+".toList = ['+'] := by decide
  have hw : ∃ ws, Text.words (String.ofList (b.header old new)) =
      "@@" :: String.ofList ('-' :: writtenRange b.briefOld old (olds b.body).length) ::
        String.ofList ('+' :: writtenRange b.briefNew new (news b.body).length) :: ws := by
    have hs : ∀ (c : Char) (brief : Bool) (start count : Nat), Text.isBlank c = false →
        ∀ d ∈ c :: writtenRange brief start count, Text.isBlank d = false := by
      intro c brief start count hc d hd
      rcases mem_cons.1 hd with rfl | hd
      · exact hc
      · exact isBlank_of_mem_writtenRange hd
    refine ⟨(Text.wordsOf ('@' :: '@' :: b.heading)).map String.ofList, ?_⟩
    have hsh : b.header old new =
        ['@', '@'] ++ ' ' :: (('-' :: writtenRange b.briefOld old (olds b.body).length) ++
          ' ' :: (('+' :: writtenRange b.briefNew new (news b.body).length) ++
            ' ' :: ('@' :: '@' :: b.heading))) := by
      simp [Block.header]
    have hm : ∀ c ∈ ['@', '@'], Text.isBlank c = false :=
      forall_mem_cons.2 ⟨by decide, forall_mem_singleton.2 (by decide)⟩
    rw [Text.words, String.toList_ofList, hsh, Text.wordsOf_append_space (by simp) hm,
      Text.wordsOf_append_space (by simp) (hs _ _ _ _ (by decide)),
      Text.wordsOf_append_space (by simp) (hs _ _ _ _ (by decide))]
    rfl
  obtain ⟨ws, hws⟩ := hw
  have hdr : Text.drop 1 (String.ofList ('+' :: writtenRange b.briefNew new (news b.body).length)) =
      String.ofList (writtenRange b.briefNew new (news b.body).length) := by
    rw [Text.drop, String.toList_ofList, drop_succ_cons, drop_zero]
  rw [headerLine?, hws]
  simp only [getElem?_cons_succ, getElem?_cons_zero]
  rw [Text.startsWith_ofList, hp, if_pos (by simp), hdr, beforeFirst_writtenRange, number,
    Text.int?_toDigits]
  rfl

/-! ## Lines of a patch -/

variable {repo : Path}

theorem startsWith_eq_false {s : String}
    (hs : s.toList.head? = some c) (hl : line.head? ≠ some c) :
    Text.startsWith (String.ofList line) s = false := by
  obtain ⟨cs, hcs⟩ := head?_eq_some_iff.1 hs
  rw [Text.startsWith_ofList, hcs]
  cases line with
  | nil => rfl
  | cons d ds =>
    have hne : c ≠ d := fun heq => hl (by rw [heq]; rfl)
    simp [List.isPrefixOf, hne]

/-- A line that starts with neither a plus, a space nor an at sign says nothing. -/
theorem step_passed (h : ∀ c ∈ line.head?, c ≠ '+' ∧ c ≠ ' ' ∧ c ≠ '@') (p : Progress) :
    p.step repo (String.ofList line) = .ok p := by
  have hp : line.head? ≠ some '+' := fun heq => (h '+' heq).1 rfl
  have hs : line.head? ≠ some ' ' := fun heq => (h ' ' heq).2.1 rfl
  have hat : line.head? ≠ some '@' := fun heq => (h '@' heq).2.2 rfl
  rw [Progress.step, startsWith_eq_false (by decide) hp, startsWith_eq_false (by decide) hat,
    startsWith_eq_false (by decide) hp, startsWith_eq_false (by decide) hs]
  cases p.file <;> rfl

theorem step_name (name : List Char) (p : Progress) : p.step repo (String.ofList ("+++ b/".toList ++ name)) =
      .ok { p with file := some (repo.child (String.ofList name)) } := by
  have hd : Text.drop 6 (String.ofList ("+++ b/".toList ++ name)) = String.ofList name := by
    rw [Text.drop, String.toList_ofList, drop_left' (by decide)]
  rw [Progress.step, Text.startsWith_ofList, if_pos (by simp), hd]

theorem step_header (b : Block) (old new : Nat) (p : Progress) :
    p.step repo (String.ofList (b.header old new)) = .ok { p with next := new } := by
  have hat : "@@".toList = ['@', '@'] := by decide
  have hp : Text.startsWith (String.ofList (b.header old new)) "@@" := by
    rw [Text.startsWith_ofList, hat]
    rfl
  rw [Progress.step, startsWith_eq_false (c := '+') (by decide) (by simp [Block.header]),
    hp, headerLine?_header]
  rfl

/-- `k` lines of a file from number `n` on, added one by one. -/
def addRun (s : RegionSet) (f : Path) (n : Int) : Nat → RegionSet
  | 0 => s
  | k + 1 => (s.add f n n).addRun f (n + 1) k

theorem addRun_add (s : RegionSet) (f : Path) (n : Int) (j k : Nat) :
    s.addRun f n (j + k) = (s.addRun f n j).addRun f (n + j) k := by
  induction j generalizing s n with
  | zero => simp [addRun]
  | succ j ih =>
    rw [Nat.succ_add, addRun, ih, addRun]
    push_cast
    rw [Int.add_assoc, Int.add_comm 1 (j : Int)]

theorem WellFormed.addRun (h : s.WellFormed) (f : Path) (n : Int) (k : Nat) :
    (s.addRun f n k).WellFormed := by
  induction k generalizing s n with
  | zero => exact h
  | succ k ih => exact ih (h.add f n n) (n + 1)

theorem covers_addRun (h : s.WellFormed) (f : Path) (n : Int) (k : Nat) (g : Path) (m : Int) :
    (s.addRun f n k).covers g m ↔ s.covers g m ∨ (g = f ∧ n ≤ m ∧ m < n + k) := by
  induction k generalizing s n with
  | zero =>
    rw [RegionSet.addRun]
    constructor
    · exact Or.inl
    · rintro (hm | ⟨-, hlow, hh⟩)
      · exact hm
      · push_cast at hh
        omega
  | succ k ih =>
    rw [RegionSet.addRun, ih (h.add f n n), covers_add h, min_self, max_self]
    constructor
    · rintro ((⟨hg, hlow, hh⟩ | hm) | ⟨hg, hlow, hh⟩)
      · exact .inr ⟨hg, hlow, by push_cast; omega⟩
      · exact .inl hm
      · exact .inr ⟨hg, by omega, by push_cast; omega⟩
    · rintro (hm | ⟨hg, hlow, hh⟩)
      · exact .inl (.inr hm)
      · push_cast at hh
        by_cases hf : m = n
        · exact .inl (.inl ⟨hg, by omega, by omega⟩)
        · exact .inr ⟨hg, by omega, by omega⟩

theorem step_line {l : Line} (hl : l.Marked) (s : RegionSet) (f : Path) (n : Int) :
    (⟨s, some f, n⟩ : Progress).step repo (String.ofList l.written) =
      .ok ⟨s.addRun f n l.newCount, some f, n + l.newCount⟩ := by
  cases l with
  | blank => exact hl.elim
  | removed t =>
    rw [step_passed (by simp [Line.written])]
    simp [Line.newCount, Line.new?, addRun]
  | remark t =>
    rw [step_passed (by simp [Line.written])]
    simp [Line.newCount, Line.new?, addRun]
  | kept t =>
    rw [Progress.step, startsWith_eq_false (c := '+') (by decide) (by simp [Line.written]),
      startsWith_eq_false (c := '@') (by decide) (by simp [Line.written])]
    simp only [Text.startsWith_ofList, Line.written]
    rw [show " ".toList = [' '] by decide]
    simp [Line.newCount, Line.new?, addRun]
  | added t =>
    have hn : Text.startsWith (String.ofList ('+' :: t)) "+++ b/" = false := by
      rw [Text.startsWith_ofList, show "+++ b/".toList = '+' :: "++ b/".toList by decide,
        isPrefixOf_cons_cons_self, Bool.eq_false_iff, ne_eq, isPrefixOf_iff_prefix]
      exact hl
    rw [Line.written, Progress.step, hn,
      startsWith_eq_false (c := '@') (by decide) (by simp)]
    simp only [Text.startsWith_ofList]
    rw [show "+".toList = ['+'] by decide]
    simp [Line.newCount, Line.new?, addRun]

/-! ## Runs of lines -/

theorem run_append {ls : List String} (h : p.run repo ls = (q, none))
    (rest : List String) : p.run repo (ls ++ rest) = q.run repo rest := by
  induction ls generalizing p with
  | nil =>
    cases h
    rfl
  | cons l ls ih =>
    rw [Progress.run] at h
    rw [cons_append, Progress.run]
    cases hs : p.step repo l with
    | ok r =>
      rw [hs] at h
      exact ih h
    | error e =>
      rw [hs] at h
      cases h

theorem run_cons {l : String} (h : p.step repo l = .ok q) (rest : List String) :
    p.run repo (l :: rest) = q.run repo rest := by
  rw [Progress.run, h]

theorem run_passed {ls : List (List Char)}
    (h : ∀ line ∈ ls, ∀ c ∈ line.head?, c ≠ '+' ∧ c ≠ ' ' ∧ c ≠ '@') (p : Progress) :
    p.run repo (ls.map String.ofList) = (p, none) := by
  induction ls with
  | nil => rfl
  | cons line ls ih =>
    obtain ⟨hl, hls⟩ := forall_mem_cons.1 h
    rw [map_cons, run_cons (step_passed hl p), ih hls]

theorem run_body {body : List Line} (h : ∀ l ∈ body, l.Marked) (s : RegionSet) (f : Path) (n : Int) :
    (⟨s, some f, n⟩ : Progress).run repo ((body.map Line.written).map String.ofList) =
      (⟨s.addRun f n (news body).length, some f, n + (news body).length⟩, none) := by
  induction body generalizing s n with
  | nil => simp [Progress.run, news, addRun]
  | cons l body ih =>
    obtain ⟨hl, hb⟩ := forall_mem_cons.1 h
    rw [map_cons, map_cons, run_cons (step_line hl s f n), ih hb, length_news_cons, addRun_add]
    push_cast
    rw [Int.add_assoc]

end RegionSet

/-! ## Sections -/

namespace Patch

open Unified RegionSet

/-- The state after the hunks of a file `f`, the first of which comes after the lines
before `new`. -/
def readHunks (f : Path) (new : Nat) (p : Progress) : List Block → Progress
  | [] => p
  | b :: bs =>
    let start : Int := position (new + b.gap.length) (news b.body).length
    readHunks f (new + (news b.lines).length)
      ⟨p.regions.addRun f start (news b.body).length, some f, start + (news b.body).length⟩ bs

/-- The state after a section. The name of the null device adds a line to the file
that is being shown, and the empty hunk below it starts at line zero. -/
def Section.read (repo : Path) (p : Progress) : Section → Progress
  | silent _ => p
  | shown _ _ path blocks =>
    let f := repo.child (String.ofList (label path))
    readHunks f 1 { p with file := some f } blocks
  | deleted .. => ⟨p.file.elim p.regions fun f => p.regions.add f p.next p.next, p.file, 0⟩

variable {repo : Path} {bs : List Block} {sec : Section} {d : Patch}

theorem run_hunks (h : ∀ b ∈ bs, ∀ l ∈ b.body, l.Marked) (f : Path)
    (old new : Nat) (s : RegionSet) (n : Int) :
    (⟨s, some f, n⟩ : Progress).run repo ((writtenHunks old new bs).map String.ofList) =
      (readHunks f new ⟨s, some f, n⟩ bs, none) := by
  induction bs generalizing old new s n with
  | nil => rfl
  | cons b bs ih =>
    obtain ⟨hb, hbs⟩ := forall_mem_cons.1 h
    rw [writtenHunks, map_cons, run_cons (step_header b _ _ _), map_append,
      run_append (run_body hb s f _), ih hbs, readHunks]

theorem Keyword.written_eq_cons (k : Keyword) :
    ∃ d ds, k.written = d :: ds ∧ d ≠ '+' ∧ d ≠ ' ' ∧ d ≠ '@' := by
  cases k <;> exact ⟨_, _, rfl, by decide⟩

theorem header_passed (header : List HeaderLine) : ∀ line ∈ header.map HeaderLine.written,
      ∀ c ∈ line.head?, c ≠ '+' ∧ c ≠ ' ' ∧ c ≠ '@' := by
  intro line hl c hc
  obtain ⟨h, -, rfl⟩ := List.mem_map.1 hl
  obtain ⟨d, ds, hd, hne⟩ := h.keyword.written_eq_cons
  rw [HeaderLine.written, hd] at hc
  cases hc
  exact hne

theorem oldName_passed (old : Option (List Char)) :
    ∀ c ∈ (oldName old).head?, c ≠ '+' ∧ c ≠ ' ' ∧ c ≠ '@' := by
  intro c hc
  cases old <;> (cases hc; decide)

theorem deletion_passed (removed : List (List Char)) (brief : Bool) (remark : Option (List Char)) :
    ∀ line ∈ (deletion removed brief remark).body.map Line.written,
      ∀ c ∈ line.head?, c ≠ '+' ∧ c ≠ ' ' ∧ c ≠ '@' := by
  intro line hli c hc
  obtain ⟨l, hl, rfl⟩ := List.mem_map.1 hli
  rw [deletion] at hl
  rcases mem_append.1 hl with hl | hl
  · obtain ⟨t, -, rfl⟩ := List.mem_map.1 hl
    cases hc
    decide
  · obtain ⟨t, -, rfl⟩ := map_eq_some_iff.1 (mem_toList.1 hl)
    cases hc
    decide

theorem news_deletion (removed : List (List Char)) (brief : Bool) (remark : Option (List Char)) :
    news (deletion removed brief remark).body = [] := by
  refine filterMap_eq_nil_iff.2 ?_
  intro l hl
  rw [deletion] at hl
  rcases mem_append.1 hl with hl | hl
  · obtain ⟨t, -, rfl⟩ := List.mem_map.1 hl
    rfl
  · obtain ⟨t, -, rfl⟩ := map_eq_some_iff.1 (mem_toList.1 hl)
    rfl

theorem step_null (p : Progress) : p.step repo (String.ofList "+++ /dev/null".toList) =
      .ok ⟨p.file.elim p.regions fun f => p.regions.add f p.next p.next, p.file,
        p.file.elim p.next fun _ => p.next + 1⟩ := by
  obtain ⟨s, file, n⟩ := p
  rw [Progress.step, if_neg (by decide), if_neg (by decide)]
  cases file with
  | none => rfl
  | some f => exact if_pos (by decide)

theorem run_deleted (header : List HeaderLine) (path : List Char) (removed : List (List Char))
    (brief : Bool) (remark : Option (List Char)) (p : Progress) :
    p.run repo ((Section.deleted header path removed brief remark).lines.map String.ofList) =
      ((Section.deleted header path removed brief remark).read repo p, none) := by
  have hp : position (1 + (deletion removed brief remark).gap.length)
      (news (deletion removed brief remark).body).length = 0 := by
    rw [news_deletion]
    rfl
  rw [Section.lines, map_append, run_append (run_passed (header_passed header) p), map_cons, run_cons
    (step_passed (oldName_passed _) p), map_cons, run_cons (step_null p), writtenHunks, map_cons, run_cons
    (step_header _ _ _ _), hp, writtenHunks, append_nil, run_passed (deletion_passed removed brief
    remark), Section.read]
  rfl

theorem run_section (h : sec.WellFormed) (p : Progress) :
    p.run repo (sec.lines.map String.ofList) = (sec.read repo p, none) := by
  cases sec with
  | silent header => exact run_passed (header_passed header) p
  | shown header old path blocks =>
    rw [Section.lines, map_append, run_append (run_passed (header_passed header) p), map_cons, run_cons
      (step_passed (oldName_passed old) p), map_cons, run_cons (step_name _ p), run_hunks h.2]
    rfl
  | deleted header path removed brief remark => exact run_deleted header path removed brief remark p

theorem run_sections {secs : List Section} (h : ∀ sec ∈ secs, sec.WellFormed) (p : Progress) :
    p.run repo ((secs.flatMap Section.lines).map String.ofList) =
      (secs.foldl (Section.read repo) p, none) := by
  induction secs generalizing p with
  | nil => rfl
  | cons sec secs ih =>
    obtain ⟨hsec, hs⟩ := forall_mem_cons.1 h
    rw [flatMap_cons, map_append, run_append (run_section hsec p), ih hs, foldl_cons]

/-! ## The text of a patch -/

theorem written_ne_nil {l : Line} (hl : l.Marked) : l.written ≠ [] := by
  cases l with
  | blank => exact hl.elim
  | _ => simp [Line.written]

theorem writtenHunks_ne_nil (h : ∀ b ∈ bs, ∀ l ∈ b.body, l.Marked)
    (old new : Nat) : ∀ line ∈ writtenHunks old new bs, line ≠ [] := by
  induction bs generalizing old new with
  | nil => simp [writtenHunks]
  | cons b bs ih =>
    obtain ⟨hb, hbs⟩ := forall_mem_cons.1 h
    rw [writtenHunks, forall_mem_cons]
    refine ⟨by simp [Block.header], fun line hli => ?_⟩
    rcases mem_append.1 hli with hli | hli
    · obtain ⟨l, hl, rfl⟩ := List.mem_map.1 hli
      exact written_ne_nil (hb l hl)
    · exact ih hbs _ _ line hli

theorem Section.lines_ne_nil (h : sec.WellFormed) : ∀ line ∈ sec.lines, line ≠ [] := by
  have hh : ∀ (header : List HeaderLine), ∀ line ∈ header.map HeaderLine.written,
      line ≠ [] := by
    intro header line hli
    obtain ⟨h, -, rfl⟩ := List.mem_map.1 hli
    obtain ⟨d, ds, hd, -⟩ := h.keyword.written_eq_cons
    rw [HeaderLine.written, hd]
    exact cons_ne_nil _ _
  have hold : ∀ old : Option (List Char), oldName old ≠ [] := by
    intro old
    cases old with
    | none => decide
    | some path => exact append_ne_nil_of_left_ne_nil (by decide) _
  intro line hli
  cases sec with
  | silent header => exact hh header line hli
  | shown header old path blocks =>
    rcases mem_append.1 hli with hli | hli
    · exact hh header line hli
    · rcases mem_cons.1 hli with rfl | hli
      · exact hold old
      · rcases mem_cons.1 hli with rfl | hli
        · simp
        · exact writtenHunks_ne_nil h.2 1 1 line hli
  | deleted header path removed brief remark =>
    rcases mem_append.1 hli with hli | hli
    · exact hh header line hli
    · rcases mem_cons.1 hli with rfl | hli
      · exact hold (some path)
      · rcases mem_cons.1 hli with rfl | hli
        · decide
        · refine writtenHunks_ne_nil ?_ 1 1 line hli
          intro b hb l hl
          rw [mem_singleton.1 hb, deletion] at hl
          rcases mem_append.1 hl with hl | hl
          · obtain ⟨t, -, rfl⟩ := List.mem_map.1 hl
            trivial
          · obtain ⟨t, -, rfl⟩ := map_eq_some_iff.1 (mem_toList.1 hl)
            trivial

theorem lines_text (hd : d.WellFormed) : Text.lines d.text = d.lines.map String.ofList := by
  have hne : ∀ line ∈ d.lines, line ≠ [] := by
    intro line hl
    obtain ⟨sec, hsec, hl⟩ := mem_flatMap.1 hl
    exact Section.lines_ne_nil (hd.sections_wellFormed sec hsec) line hl
  have hend : ∀ line ∈ d.lines ++ (if d.finalNewline then [[]] else []),
      ∀ c ∈ line, Text.isLineEnd c = false := by
    intro line hl
    rcases mem_append.1 hl with hl | hl
    · exact hd.no_end line hl
    · split at hl
      · simp [mem_singleton.1 hl]
      · cases hl
  rw [Text.lines, text, String.toList_ofList, Text.linesOf_intercalate hend]
  cases d.finalNewline with
  | true => simp
  | false =>
    have hla : d.lines.getLast? ≠ some [] := fun hla =>
      hne [] (mem_of_getLast? hla) rfl
    simp [hla]

/-- Reading a patch reads its sections one after the other, and does not fail. -/
theorem addDiff_text (hd : d.WellFormed) (s : RegionSet) : s.addDiff repo d.text =
      ((d.sections.foldl (Section.read repo) ⟨s, none, 0⟩).regions, none) := by
  rw [addDiff, lines_text hd, lines, run_sections hd.sections_wellFormed]

end Patch

end Excerpt
