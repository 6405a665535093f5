import Excerpt.Proofs.Region.Edit
import Excerpt.Proofs.Region.ReadPatch

/-!
# The lines that a patch changes

Reading a patch records the lines of the new texts that its hunks show, each
under the name in the line of its file. A name with a space has a tab behind it
there, which is read as part of the name. A deleted file in turn records a line of
the file that was shown before it, as `strays` lists. Apart from these two the
recorded lines are those of the patch: the first part gives them for patches
without deleted files, the second compares a patch with what is left of it without
its deleted files.
-/

namespace Excerpt

open List

namespace Patch

open Unified RegionSet

variable {repo f : Path} {p : Progress} {secs before : List Section} {d : Patch}
  {path : List Char} {blocks : List Block} {file : Option Path} {next n : Int} {sec : Section}

/-- The line that is next after hunks, the first of which comes after the lines
before `new`. -/
def nextLine (next : Int) (new : Nat) : List Block → Int
  | [] => next
  | b :: bs =>
    nextLine (position (new + b.gap.length) (news b.body).length + (news b.body).length)
      (new + (news b.lines).length) bs

/-- The lines that the deleted files among sections add to the files shown before
them, if `file` and its line `next` are being shown before the first section. -/
def strays (repo : Path) (file : Option Path) (next : Int) : List Section → List (Path × Int)
  | [] => []
  | .silent _ :: secs => strays repo file next secs
  | .shown _ _ path blocks :: secs =>
    strays repo (some (repo.child (String.ofList (label path)))) (nextLine next 1 blocks) secs
  | .deleted .. :: secs => (file.map (·, next)).toList ++ strays repo file 0 secs

/-- A section shows the line `n` of a file in its hunks. -/
def Section.Records (repo : Path) (f : Path) (n : Int) : Section → Prop
  | shown _ _ path blocks =>
    f = repo.child (String.ofList (label path)) ∧ ∃ m : Nat, Shows blocks m ∧ n = m
  | _ => False

theorem Section.records_iff :
    sec.Records repo f n ↔ ∃ header old path blocks, ∃ m : Nat,
      sec = shown header old path blocks ∧ f = repo.child (String.ofList (label path)) ∧
        Shows blocks m ∧ n = m := by
  cases sec with
  | shown header old path blocks =>
    constructor
    · rintro ⟨hf, m, hm, hn⟩
      exact ⟨header, old, path, blocks, m, rfl, hf, hm, hn⟩
    · rintro ⟨_, _, _, _, m, hsec, hf, hm, hn⟩
      cases hsec
      exact ⟨hf, m, hm, hn⟩
  | _ => simp [Records]

/-! ## What reading records -/

theorem file_readHunks (new : Nat) (hp : p.file = some f) (bs : List Block) :
    (readHunks f new p bs).file = some f := by
  induction bs generalizing new p with
  | nil => exact hp
  | cons b bs ih => exact ih _ rfl

theorem next_readHunks (f : Path) (new : Nat) (p : Progress) (bs : List Block) :
    (readHunks f new p bs).next = nextLine p.next new bs := by
  induction bs generalizing new p with
  | nil => rfl
  | cons b bs ih => exact ih _ _

theorem wellFormed_readHunks (h : p.regions.WellFormed) (f : Path) (new : Nat) (bs : List Block) :
    (readHunks f new p bs).regions.WellFormed := by
  induction bs generalizing new p with
  | nil => exact h
  | cons b bs ih => exact ih (h.addRun f _ _) _

/-- Hunks that come after the lines before `new` record what they show, counted from
there. -/
theorem covers_readHunks (h : p.regions.WellFormed) (f : Path) (new : Nat) (bs : List Block)
    (g : Path) (n : Int) : (readHunks f new p bs).regions.covers g n ↔
      p.regions.covers g n ∨ (g = f ∧ ∃ m : Nat, Shows bs m ∧ n + 1 = new + m) := by
  induction bs generalizing new p with
  | nil => simp [readHunks, not_shows_nil]
  | cons b bs ih =>
    rw [readHunks, ih (h.addRun f _ _), covers_addRun h, or_assoc]
    refine or_congr_right ?_
    rw [← and_or_left]
    refine and_congr_right fun _ => ?_
    constructor
    · rintro (⟨hlow, hh⟩ | ⟨m, hm, hn⟩)
      · -- a run that is not empty starts right behind the gap
        have hs : position (new + b.gap.length) (news b.body).length =
            new + b.gap.length := if_neg (by omega)
        rw [hs] at hlow hh
        obtain ⟨m, hm⟩ : ∃ m : Nat, n + 1 = new + m := ⟨(n + 1 - new).toNat, by omega⟩
        exact ⟨m, (shows_cons b bs m).2 (.inl ⟨by omega, by omega⟩), hm⟩
      · refine ⟨_, (shows_cons b bs _).2 (.inr ⟨m, hm, rfl⟩), ?_⟩
        omega
    · rintro ⟨m, hm, hn⟩
      rcases (shows_cons b bs m).1 hm with ⟨hlow, hh⟩ | ⟨k, hk, rfl⟩
      · left
        have hs : position (new + b.gap.length) (news b.body).length =
            new + b.gap.length := if_neg (by omega)
        rw [hs]
        omega
      · refine .inr ⟨k, hk, ?_⟩
        omega

theorem wellFormed_read (h : p.regions.WellFormed) (sec : Section) :
    (sec.read repo p).regions.WellFormed := by
  cases sec with
  | silent header => exact h
  | shown header old path blocks =>
    refine wellFormed_readHunks ?_ _ 1 blocks
    exact h
  | deleted header path removed brief remark =>
    unfold Section.read
    cases p.file with
    | none => exact h
    | some f => exact h.add f _ _

theorem wellFormed_foldl_read (h : p.regions.WellFormed) (secs : List Section) :
    (secs.foldl (Section.read repo) p).regions.WellFormed := by
  induction secs generalizing p with
  | nil => exact h
  | cons sec secs ih => exact ih (wellFormed_read h sec)

/-- A section records what its hunks show, and the next line of the file being shown
if it is that of a deleted file. -/
theorem covers_read (h : p.regions.WellFormed) (sec : Section) (f : Path) (n : Int) :
    (sec.read repo p).regions.covers f n ↔ p.regions.covers f n ∨ sec.Records repo f n ∨
        (sec.isDeleted ∧ p.file = some f ∧ n = p.next) := by
  cases sec with
  | silent header => simp [Section.read, Section.Records, Section.isDeleted]
  | shown header old path blocks =>
    have hh : ((Section.shown header old path blocks).read repo p).regions.covers f n ↔ _ :=
      covers_readHunks (p := ⟨p.regions, some _, p.next⟩) h _ 1 blocks f n
    have hc : ∀ m : Nat, n + 1 = (1 : Nat) + m ↔ n = m := by
      intro m
      omega
    simp only [hc] at hh
    simpa [Section.Records, Section.isDeleted] using hh
  | deleted header path removed brief remark =>
    cases hf : p.file with
    | none => simp [Section.read, Section.Records, Section.isDeleted, hf]
    | some g =>
      have hl : min p.next p.next ≤ n ∧ n ≤ max p.next p.next ↔ n = p.next := by omega
      simp only [Section.read, Section.Records, Section.isDeleted, hf, Option.elim_some,
        covers_add h, hl, false_or, true_and, Option.some.injEq]
      rw [or_comm, eq_comm (a := f)]

theorem mem_strays_cons (p : Progress) (sec : Section) (secs : List Section) (f : Path) (n : Int) :
    (f, n) ∈ strays repo p.file p.next (sec :: secs) ↔ (sec.isDeleted ∧ p.file = some f ∧ n = p.next) ∨
        (f, n) ∈ strays repo (sec.read repo p).file (sec.read repo p).next secs := by
  cases sec with
  | silent header => simp [strays, Section.read, Section.isDeleted]
  | shown header old path blocks =>
    have hf : ((Section.shown header old path blocks).read repo p).file = some _ :=
      file_readHunks 1 rfl blocks
    have hn : ((Section.shown header old path blocks).read repo p).next = _ := next_readHunks _ 1 _ blocks
    rw [hf, hn]
    simp [strays, Section.isDeleted]
  | deleted header path removed brief remark =>
    cases hf : p.file with
    | none => simp [strays, Section.read, Section.isDeleted, hf]
    | some g => simp [strays, Section.read, Section.isDeleted, hf, eq_comm]

/-- The recorded lines after sections: those of before, those that hunks show, and
the strays. -/
theorem covers_foldl_read (h : p.regions.WellFormed) (secs : List Section) (f : Path) (n : Int) :
    (secs.foldl (Section.read repo) p).regions.covers f n ↔
      p.regions.covers f n ∨ (∃ sec ∈ secs, sec.Records repo f n) ∨
        (f, n) ∈ strays repo p.file p.next secs := by
  induction secs generalizing p with
  | nil => simp [strays]
  | cons sec secs ih =>
    rw [foldl_cons, ih (wellFormed_read h sec), covers_read h, mem_strays_cons]
    simp only [mem_cons, exists_eq_or_imp, or_assoc, or_left_comm]

theorem strays_of_not_deleted (h : ∀ sec ∈ secs, sec.isDeleted = false) (file : Option Path)
    (next : Int) : strays repo file next secs = [] := by
  induction secs generalizing file next with
  | nil => rfl
  | cons sec secs ih =>
    obtain ⟨hsec, hs⟩ := forall_mem_cons.1 h
    cases sec with
    | silent header => exact ih hs file next
    | shown header old path blocks => exact ih hs _ _
    | deleted header path removed brief remark => cases hsec

theorem wellFormed_addDiff_text (hd : d.WellFormed) : (empty.addDiff repo d.text).1.WellFormed := by
  rw [addDiff_text hd]
  exact wellFormed_foldl_read wellFormed_empty d.sections

theorem covers_addDiff_text (hd : d.WellFormed) (f : Path) (n : Int) :
    (empty.addDiff repo d.text).1.covers f n ↔
      (∃ sec ∈ d.sections, sec.Records repo f n) ∨ (f, n) ∈ strays repo none 0 d.sections := by
  have hem : ¬ empty.covers f n := by simp [covers]
  rw [addDiff_text hd, covers_foldl_read wellFormed_empty]
  simp only [hem, false_or]

/-! ## Patches without deleted files -/

theorem child_eq_child_label {q : List Char} (hp : Plain path) (hq : Plain q) :
    repo.child (String.ofList path) = repo.child (String.ofList (label q)) ↔ ' ' ∉ path ∧ q = path := by
  constructor
  · intro heq
    have hl := Path.child_injective hp.spelled hq.spelled_label heq
    by_cases hs : ' ' ∈ q
    · rw [label, if_pos hs] at hl
      exact absurd (hl ▸ by simp) hp.no_tab
    · rw [label_of_not_mem hs] at hl
      exact ⟨hl ▸ hs, hl.symm⟩
  · rintro ⟨hs, rfl⟩
    rw [label_of_not_mem hs]

/-- A patch of changed and added files is read without failure. It records the lines
of the new texts that its hunks show, each file under the name in its line. So the
lines of a file are recorded under its path if this holds no space, and no line
is recorded under its path if it does. -/
theorem addDiff_records_shown (d : Patch) (hd : d.WellFormed)
    (hkept : ∀ sec ∈ d.sections, sec.isDeleted = false) (repo : Path) :
    (empty.addDiff repo d.text).2 = none ∧
    (∀ f n, (empty.addDiff repo d.text).1.covers f n ↔
      ∃ header old path blocks, ∃ m : Nat, Section.shown header old path blocks ∈ d.sections ∧
        f = repo.child (String.ofList (label path)) ∧ Shows blocks m ∧ n = m) ∧
    (∀ path, Plain path → ∀ n,
      (empty.addDiff repo d.text).1.covers (repo.child (String.ofList path)) n ↔
        ' ' ∉ path ∧ ∃ header old blocks, ∃ m : Nat,
          Section.shown header old path blocks ∈ d.sections ∧ Shows blocks m ∧ n = m) := by
  have hlines : ∀ f n, (empty.addDiff repo d.text).1.covers f n ↔
      ∃ header old path blocks, ∃ m : Nat, Section.shown header old path blocks ∈ d.sections ∧
        f = repo.child (String.ofList (label path)) ∧ Shows blocks m ∧ n = m := by
    intro f n
    rw [covers_addDiff_text hd, strays_of_not_deleted hkept]
    constructor
    · rintro (⟨sec, hsec, hrecords⟩ | hstray)
      · obtain ⟨header, old, path, blocks, m, rfl, hrest⟩ := Section.records_iff.1 hrecords
        exact ⟨header, old, path, blocks, m, hsec, hrest⟩
      · cases hstray
    · rintro ⟨header, old, path, blocks, m, hsec, hrest⟩
      exact .inl ⟨_, hsec, Section.records_iff.2 ⟨header, old, path, blocks, m, rfl, hrest⟩⟩
  refine ⟨by rw [addDiff_text hd], hlines, ?_⟩
  intro path hpath n
  rw [hlines]
  constructor
  · rintro ⟨header, old, q, blocks, m, hsec, hchild, hm, hn⟩
    obtain ⟨hspace, rfl⟩ := (child_eq_child_label hpath (hd.sections_wellFormed _ hsec).1).1 hchild
    exact ⟨hspace, header, old, blocks, m, hsec, hm, hn⟩
  · rintro ⟨hspace, header, old, blocks, m, hsec, hm, hn⟩
    exact ⟨header, old, path, blocks, m, hsec, (child_eq_child_label hpath hpath).2 ⟨hspace, rfl⟩, hm, hn⟩

/-- A change of mode, a change in a file with a space in its name, and a new file:
the change is recorded under a name that ends with a tab. -/
theorem addDiff_records_shown_space :
    let d : Patch :=
      { sections :=
          [.silent [⟨.names, "a/run b/run".toList⟩, ⟨.oldMode, "100644".toList⟩,
              ⟨.newMode, "100755".toList⟩],
            .shown [⟨.names, "a/my f.h b/my f.h".toList⟩, ⟨.index, "7898192..6178079".toList⟩]
              (some "my f.h".toList) "my f.h".toList
              [⟨[], [.removed ['a'], .added ['b']], true, true, []⟩],
            .shown [⟨.names, "a/n.h b/n.h".toList⟩, ⟨.newFile, "100644".toList⟩] none "n.h".toList
              [⟨[], [.added ['x']], true, true, []⟩]]
        finalNewline := true }
    d.lines.map String.ofList =
      ["diff --git a/run b/run", "old mode 100644", "new mode 100755",
        "diff --git a/my f.h b/my f.h", "index 7898192..6178079", "--- a/my f.h\t",
        "+++ b/my f.h\t", "@@ -1 +1 @@", "-a", "+b", "diff --git a/n.h b/n.h",
        "new file mode 100644", "--- /dev/null", "+++ b/n.h", "@@ -0,0 +1 @@", "+x"] ∧
    d.WellFormed ∧ (∀ sec ∈ d.sections, sec.isDeleted = false) ∧
    (empty.addDiff ⟨["r"]⟩ d.text).1.covers ⟨["r", "my f.h\t"]⟩ 1 ∧
    ¬ (empty.addDiff ⟨["r"]⟩ d.text).1.covers ⟨["r", "my f.h"]⟩ 1 ∧
    (empty.addDiff ⟨["r"]⟩ d.text).1.covers ⟨["r", "n.h"]⟩ 1 := by
  intro d
  have hspaced : Plain "my f.h".toList := ⟨by decide, by unfold Path.Spelled; decide⟩
  have hplain : Plain "n.h".toList := ⟨by decide, by unfold Path.Spelled; decide⟩
  have hd : d.WellFormed := by
    refine ⟨?_, no_end_of_all (by decide)⟩
    simp only [d, forall_mem_cons]
    exact ⟨trivial, ⟨hspaced, by simp [Line.Marked]⟩, ⟨hplain, by simp [Line.Marked]⟩, by simp⟩
  have hkept : ∀ sec ∈ d.sections, sec.isDeleted = false := by decide
  obtain ⟨-, hlines, hpaths⟩ := addDiff_records_shown d hd hkept ⟨["r"]⟩
  refine ⟨by decide, hd, hkept, ?_, ?_, ?_⟩
  · exact (hlines _ 1).2 ⟨_, _, _, _, 1, mem_cons_of_mem _ mem_cons_self, by decide,
      ⟨[], _, [], [.removed ['a']], .added ['b'], [], rfl, rfl, rfl, rfl⟩, rfl⟩
  · intro hcovers
    exact ((hpaths _ hspaced 1).1 hcovers).1 (by decide)
  · exact (hpaths _ hplain 1).2 ⟨by decide, _, _, _, 1,
      mem_cons_of_mem _ (mem_cons_of_mem _ mem_cons_self),
      ⟨[], _, [], [], .added ['x'], [], rfl, rfl, rfl, rfl⟩, rfl⟩

/-! ## Patches with deleted files -/

/-- Files have one section with a new text each, and a hunk shows a line of the new
text unless that is empty. -/
structure Regular (d : Patch) : Prop where
  distinct : (d.sections.filterMap Section.path?).Nodup
  shows : ∀ header old path blocks, Section.shown header old path blocks ∈ d.sections →
    (∀ b ∈ blocks, news b.body ≠ []) ∨ ∀ b ∈ blocks, news b.body = []

theorem Shows.exists_block {n : Nat} (h : Shows blocks n) : ∃ b ∈ blocks, news b.body ≠ [] := by
  obtain ⟨before, b, after, above, l, below, rfl, hb, hl, -⟩ := h
  have hlt := lt_length_news_iff.2 ⟨above, l, below, hb, hl, rfl⟩
  exact ⟨b, mem_append_right _ mem_cons_self, ne_nil_of_length_pos (by omega)⟩

theorem Shows.le {n : Nat} (h : Shows blocks n) : n ≤ (news (blocks.flatMap Block.lines)).length := by
  induction blocks generalizing n with
  | nil => exact absurd h (not_shows_nil n)
  | cons b bs ih =>
    rw [flatMap_cons, news_append, length_append]
    have hl := length_news_lines b
    rcases (shows_cons b bs n).1 h with ⟨-, hn⟩ | ⟨m, hm, rfl⟩
    · omega
    · have hle := ih hm
      omega

theorem nextLine_eq {bs : List Block} (hne : bs ≠ []) (h : ∀ b ∈ bs, news b.body ≠ [])
    (next : Int) (new : Nat) : nextLine next new bs = new + (news (bs.flatMap Block.lines)).length := by
  induction bs generalizing next new with
  | nil => exact absurd rfl hne
  | cons b bs ih =>
    obtain ⟨hb, hbs⟩ := forall_mem_cons.1 h
    have hpos := length_pos_iff.2 hb
    have hs : position (new + b.gap.length) (news b.body).length = new + b.gap.length := if_neg (by omega)
    have hl := length_news_lines b
    rw [nextLine, hs, flatMap_cons, news_append, length_append]
    by_cases hnil : bs = []
    · subst hnil
      rw [nextLine, flatMap_nil, hl]
      simp [news]
      omega
    · rw [ih hnil hbs]
      omega

/-- The line after the hunks of a file is none that they show. -/
theorem ne_nextLine_of_shows {m : Nat} (hm : Shows blocks m)
    (h : (∀ b ∈ blocks, news b.body ≠ []) ∨ ∀ b ∈ blocks, news b.body = []) (next : Int) :
    (m : Int) ≠ nextLine next 1 blocks := by
  rcases h with hf | hem
  · have hne : blocks ≠ [] := fun hnil => not_shows_nil m (hnil ▸ hm)
    have hle := hm.le
    rw [nextLine_eq hne hf]
    omega
  · obtain ⟨b, hb, hbo⟩ := hm.exists_block
    exact absurd (hem b hb) hbo

/-- The reading stands at a line of a shown file that the file does not show. -/
def Astray (repo : Path) (before : List Section) (file : Option Path) (next : Int) : Prop :=
  ∀ f, file = some f →
    (∃ path ∈ before.filterMap Section.path?, f = repo.child (String.ofList (label path))) ∧
      ∀ sec ∈ before, ¬ sec.Records repo f next

theorem not_records_of_path_ne (hsec : sec.WellFormed) (hp : Plain path)
    (hne : ∀ q ∈ sec.path?, q ≠ path) (n : Int) :
    ¬ sec.Records repo (repo.child (String.ofList (label path))) n := by
  intro hr
  obtain ⟨header, old, q, blocks, m, rfl, hc, -⟩ := Section.records_iff.1 hr
  have hl := Path.child_injective hp.spelled_label hsec.1.spelled_label hc
  exact hne q rfl (label_injective hp hsec.1 hl).symm

theorem plain_of_mem_paths (h : ∀ sec ∈ secs, sec.WellFormed)
    (hp : path ∈ secs.filterMap Section.path?) : Plain path := by
  obtain ⟨sec, hsec, hs⟩ := mem_filterMap.1 hp
  cases sec with
  | shown header old q blocks =>
    cases hs
    exact (h _ hsec).1
  | _ => cases hs

theorem Astray.not_records (h : Astray repo before (some f) n)
    (hwf : ∀ sec ∈ before ++ secs, sec.WellFormed)
    (hd : ((before ++ secs).filterMap Section.path?).Nodup) :
    ∀ sec ∈ before ++ secs, ¬ sec.Records repo f n := by
  obtain ⟨⟨path, hp, rfl⟩, hb⟩ := h f rfl
  intro sec hsec
  rcases mem_append.1 hsec with hmem | hmem
  · exact hb sec hmem
  · have hpl := plain_of_mem_paths (fun s hs => hwf s (mem_append_left _ hs)) hp
    rw [filterMap_append, nodup_append] at hd
    refine not_records_of_path_ne (hwf sec hsec) hpl ?_ n
    intro q hq heq
    exact hd.2.2 path hp q (mem_filterMap.2 ⟨sec, hmem, hq⟩) heq.symm

/-- After the hunks of a file the reading stands behind all that they show. -/
theorem astray_shown {header : List HeaderLine} {old : Option (List Char)}
    (hwf : ∀ sec ∈ before ++ [.shown header old path blocks], sec.WellFormed) (hd :
      ((before ++ [Section.shown header old path blocks]).filterMap Section.path?).Nodup)
    (hs : (∀ b ∈ blocks, news b.body ≠ []) ∨ ∀ b ∈ blocks, news b.body = []) (next : Int) :
    Astray repo (before ++ [.shown header old path blocks])
      (some (repo.child (String.ofList (label path)))) (nextLine next 1 blocks) := by
  rintro f hf
  cases hf
  have hp : Plain path := (hwf _ (mem_append_right _ mem_cons_self)).1
  refine ⟨⟨path, by simp [Section.path?], rfl⟩, fun sec hsec => ?_⟩
  rcases mem_append.1 hsec with hmem | hmem
  · rw [filterMap_append, nodup_append] at hd
    refine not_records_of_path_ne (hwf sec hsec) hp ?_ _
    intro q hq
    exact hd.2.2 q (mem_filterMap.2 ⟨sec, hmem, hq⟩) path (by simp [Section.path?])
  · rw [mem_singleton.1 hmem]
    rintro ⟨-, m, hm, hn⟩
    exact ne_nextLine_of_shows hm hs next hn.symm

/-- After a deleted file the reading stands at line zero, which no file shows. -/
theorem Astray.deleted (h : Astray repo before file next) (header : List HeaderLine)
    (path : List Char) (removed : List (List Char)) (brief : Bool) (remark : Option (List Char)) :
    Astray repo (before ++ [.deleted header path removed brief remark]) file 0 := by
  intro f hf
  obtain ⟨⟨q, hq, hc⟩, -⟩ := h f hf
  refine ⟨⟨q, by rw [filterMap_append]; exact mem_append_left _ hq, hc⟩, ?_⟩
  intro sec _ hr
  obtain ⟨_, _, _, _, m, _, _, hm, hz⟩ := Section.records_iff.1 hr
  have hpos := hm.pos
  omega

theorem Astray.silent (h : Astray repo before file next) (header : List HeaderLine) :
    Astray repo (before ++ [.silent header]) file next := by
  intro f hf
  obtain ⟨⟨q, hq, hc⟩, hb⟩ := h f hf
  refine ⟨⟨q, by rw [filterMap_append]; exact mem_append_left _ hq, hc⟩, ?_⟩
  intro sec hsec
  rcases mem_append.1 hsec with hmem | hmem
  · exact hb sec hmem
  · rw [mem_singleton.1 hmem]
    exact id

/-- A stray line is shown nowhere. The induction goes through the sections and
carries that the reading stands where no section so far shows anything. -/
theorem not_records_of_mem_strays (ha : Astray repo before file next)
    (hwf : ∀ sec ∈ before ++ secs, sec.WellFormed)
    (hd : ((before ++ secs).filterMap Section.path?).Nodup)
    (hsh : ∀ header old path blocks, Section.shown header old path blocks ∈ secs →
      (∀ b ∈ blocks, news b.body ≠ []) ∨ ∀ b ∈ blocks, news b.body = [])
    (hst : (f, n) ∈ strays repo file next secs) : ∀ sec ∈ before ++ secs, ¬ sec.Records repo f n := by
  induction secs generalizing before file next with
  | nil => cases hst
  | cons sec secs ih =>
    have hm : before ++ sec :: secs = (before ++ [sec]) ++ secs := by simp
    have hl := fun header old path blocks hmem =>
      hsh header old path blocks (mem_cons_of_mem _ hmem)
    cases sec with
    | silent header =>
      rw [hm] at hwf hd ⊢
      exact ih (ha.silent header) hwf hd hl hst
    | shown header old path blocks =>
      rw [hm] at hwf hd ⊢
      refine ih ?_ hwf hd hl hst
      refine astray_shown (fun s hs => hwf s (mem_append_left _ hs)) ?_
        (hsh header old path blocks mem_cons_self) next
      rw [filterMap_append] at hd
      exact (nodup_append.1 hd).1
    | deleted header path removed brief remark =>
      rcases mem_append.1 hst with hh | hla
      · obtain ⟨g, rfl, hg⟩ := Option.map_eq_some_iff.1 (Option.mem_toList.1 hh)
        cases hg
        exact ha.not_records hwf hd
      · rw [hm] at hwf hd ⊢
        exact ih (ha.deleted header path removed brief remark) hwf hd hl hla

/-- There are no strays exactly if no deleted file comes after one that is shown. -/
theorem strays_eq_nil_iff (file : Option Path) (next : Int) (secs : List Section) :
    strays repo file next secs = [] ↔ (file.isSome → ∀ sec ∈ secs, sec.isDeleted = false) ∧
        secs.Pairwise fun a b => a.path?.isSome = true → b.isDeleted = false := by
  induction secs generalizing file next with
  | nil => simp [strays]
  | cons sec secs ih =>
    rw [pairwise_cons, forall_mem_cons]
    cases sec with
    | silent header => simp [strays, ih, Section.isDeleted, Section.path?]
    | shown header old path blocks =>
      simp only [strays, ih, Section.isDeleted, Section.path?, Option.isSome_some, forall_const, true_and]
      exact ⟨fun h => ⟨fun _ => h.1, h⟩, fun h => h.2⟩
    | deleted header path removed brief remark =>
      cases file with
      | none => simp [strays, ih, Section.path?]
      | some f => simp [strays, Section.isDeleted]

theorem WellFormed.withoutDeleted (hd : d.WellFormed) : d.withoutDeleted.WellFormed := by
  refine ⟨fun sec hsec => hd.sections_wellFormed sec (mem_of_mem_filter hsec), ?_⟩
  intro line hl
  obtain ⟨sec, hsec, hl⟩ := mem_flatMap.1 hl
  exact hd.no_end line (mem_flatMap.2 ⟨sec, mem_of_mem_filter hsec, hl⟩)

theorem covers_withoutDeleted (hd : d.WellFormed) (f : Path) (n : Int) :
    (empty.addDiff repo d.withoutDeleted.text).1.covers f n ↔ ∃ sec ∈ d.sections, sec.Records repo f n := by
  have hk : ∀ sec ∈ d.withoutDeleted.sections, sec.isDeleted = false := by
    intro sec hsec
    simpa using (mem_filter.1 hsec).2
  rw [covers_addDiff_text hd.withoutDeleted, strays_of_not_deleted hk]
  constructor
  · rintro (⟨sec, hsec, hr⟩ | hs)
    · exact ⟨sec, mem_of_mem_filter hsec, hr⟩
    · cases hs
  · rintro ⟨sec, hsec, hr⟩
    obtain ⟨header, old, path, blocks, m, rfl, -⟩ := Section.records_iff.1 hr
    exact .inl ⟨_, mem_filter.2 ⟨hsec, rfl⟩, hr⟩

/-- What deleted files do to the reading of a patch. From any state on, the section of
one adds the next line of the file being shown, if there is one, and goes on at line
zero. So the patch records the lines of the patch without its deleted files, and the
strays. The two give the same regions exactly if no deleted file comes after a file
that is shown. -/
theorem addDiff_deleted_strays (d : Patch) (hd : d.WellFormed) (repo : Path) :
    (∀ header path removed brief remark (p : Progress) (rest : List String),
      p.run repo ((Section.deleted header path removed brief remark).lines.map String.ofList ++
          rest) =
        Progress.run repo
          ⟨p.file.elim p.regions fun f => p.regions.add f p.next p.next, p.file, 0⟩ rest) ∧
    (empty.addDiff repo d.text).2 = none ∧
    (empty.addDiff repo d.withoutDeleted.text).2 = none ∧
    (∀ f n, (empty.addDiff repo d.text).1.covers f n ↔
      (empty.addDiff repo d.withoutDeleted.text).1.covers f n ∨
        (f, n) ∈ strays repo none 0 d.sections) ∧
    (d.Regular →
      ((empty.addDiff repo d.text).1.regions =
          (empty.addDiff repo d.withoutDeleted.text).1.regions ↔
        d.sections.Pairwise fun a b => a.path?.isSome = true → b.isDeleted = false)) := by
  have hlines : ∀ f n, (empty.addDiff repo d.text).1.covers f n ↔
      (empty.addDiff repo d.withoutDeleted.text).1.covers f n ∨
        (f, n) ∈ strays repo none 0 d.sections := by
    intro f n
    rw [covers_addDiff_text hd, covers_withoutDeleted hd]
  refine ⟨?_, by rw [addDiff_text hd], by rw [addDiff_text hd.withoutDeleted], hlines, ?_⟩
  · intro header path removed brief remark p rest
    rw [run_append (run_deleted header path removed brief remark p), Section.read]
  · intro hregular
    have hnil : strays repo none 0 d.sections = [] ↔ _ := strays_eq_nil_iff none 0 d.sections
    have hwf : (empty.addDiff repo d.text).1.WellFormed := wellFormed_addDiff_text hd
    have hwf' : (empty.addDiff repo d.withoutDeleted.text).1.WellFormed :=
      wellFormed_addDiff_text hd.withoutDeleted
    have hstart : Astray repo [] none 0 := by
      rintro f hf
      cases hf
    constructor
    · intro hsame
      refine (hnil.1 (eq_nil_iff_forall_not_mem.2 ?_)).2
      rintro ⟨f, n⟩ hstray
      have hcovers := ((regions_eq_iff hwf hwf').1 hsame f n).1 ((hlines f n).2 (.inr hstray))
      obtain ⟨sec, hsec, hrecords⟩ := (covers_withoutDeleted hd f n).1 hcovers
      exact not_records_of_mem_strays hstart hd.sections_wellFormed hregular.distinct
        hregular.shows hstray sec hsec hrecords
    · intro hfirst
      refine (regions_eq_iff hwf hwf').2 fun f n => ?_
      rw [hlines, hnil.2 ⟨by simp, hfirst⟩]
      simp

/-- A deleted file before the first shown one records nothing; the next one records
the line behind the hunk of `a.h`, and the one after it line zero of that file. -/
theorem addDiff_deleted_strays_twice :
    let gone (name : List Char) : Section :=
      .deleted [⟨.names, "a/".toList ++ name ++ " b/".toList ++ name⟩,
        ⟨.deletedFile, "100644".toList⟩] name [['q']] true none
    let d : Patch :=
      { sections :=
          [gone "0.h".toList,
            .shown [⟨.names, "a/a.h b/a.h".toList⟩] (some "a.h".toList) "a.h".toList
              [⟨[], [.removed ['a'], .added ['b']], true, true, []⟩],
            gone "b.h".toList, gone "c.h".toList]
        finalNewline := true }
    d.WellFormed ∧ d.Regular ∧
    d.withoutDeleted.text =
      "diff --git a/a.h b/a.h\n--- a/a.h\n+++ b/a.h\n@@ -1 +1 @@\n-a\n+b\n" ∧
    (empty.addDiff ⟨["r"]⟩ d.text).1.covers ⟨["r", "a.h"]⟩ 2 ∧
    (empty.addDiff ⟨["r"]⟩ d.text).1.covers ⟨["r", "a.h"]⟩ 0 ∧
    (empty.addDiff ⟨["r"]⟩ d.text).1.regions ≠
      (empty.addDiff ⟨["r"]⟩ d.withoutDeleted.text).1.regions := by
  intro gone d
  have hd : d.WellFormed := by
    refine ⟨?_, no_end_of_all (by decide)⟩
    simp only [d, forall_mem_cons]
    exact ⟨trivial, ⟨⟨by decide, by unfold Path.Spelled; decide⟩, by simp [Line.Marked]⟩, trivial,
      trivial, by simp⟩
  have hregular : d.Regular := by
    refine ⟨by decide, ?_⟩
    intro header old path blocks hmem
    have hblocks : blocks = [⟨[], [.removed ['a'], .added ['b']], true, true, []⟩] := by
      simp only [d, gone, mem_cons, not_mem_nil, reduceCtorEq, Section.shown.injEq,
        false_or, or_false] at hmem
      exact hmem.2.2.2
    rw [hblocks]
    exact .inl (by decide)
  obtain ⟨-, -, -, hlines, hsame⟩ := addDiff_deleted_strays d hd ⟨["r"]⟩
  have hstrays : strays ⟨["r"]⟩ none 0 d.sections = [(⟨["r", "a.h"]⟩, 2), (⟨["r", "a.h"]⟩, 0)] := by
    decide
  refine ⟨hd, hregular, by decide, ?_, ?_, ?_⟩
  · exact (hlines _ 2).2 (.inr (by rw [hstrays]; exact mem_cons_self))
  · exact (hlines _ 0).2 (.inr (by rw [hstrays]; simp))
  · intro heq
    have hfirst := (hsame hregular).1 heq
    simp [d, gone, Section.path?, Section.isDeleted] at hfirst

end Patch

end Excerpt
