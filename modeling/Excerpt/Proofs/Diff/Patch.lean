import Excerpt.Proofs.Diff.Shown
import Excerpt.Proofs.File.Path
import Excerpt.Text.Line

/-!
# Patches

A patch is the diff of several files, as git writes it. Each file has a section:
a header in words and then, unless the change is one of mode or name only or the
file is binary or empty, two lines with the old and the new name and the hunks.
The file that was not there before has the null device for its old name, and the
deleted file has it for its new name.

A name that holds a space is followed by a tab. Hunks are those of `Unified`,
with one addition to their headers: where a side of a hunk has no lines, its
position is that of the line before.
-/

namespace Excerpt

open Unified List Text

/-- A line of a hunk that keeps its leading space and cannot be read as the new
name of a file. -/
def Unified.Line.Marked : Line → Prop
  | blank => False
  | added text => ¬ "++ b/".toList <+: text
  | _ => True

namespace Patch

/-- What a line of a header speaks of. -/
inductive Keyword where
  | names
  | oldMode
  | newMode
  | newFile
  | deletedFile
  | copyFrom
  | copyTo
  | renameFrom
  | renameTo
  | similarity
  | dissimilarity
  | index
  | binary
deriving Repr, DecidableEq

def Keyword.written : Keyword → List Char
  | names => "diff --git ".toList
  | oldMode => "old mode ".toList
  | newMode => "new mode ".toList
  | newFile => "new file mode ".toList
  | deletedFile => "deleted file mode ".toList
  | copyFrom => "copy from ".toList
  | copyTo => "copy to ".toList
  | renameFrom => "rename from ".toList
  | renameTo => "rename to ".toList
  | similarity => "similarity index ".toList
  | dissimilarity => "dissimilarity index ".toList
  | index => "index ".toList
  | binary => "Binary files ".toList

/-- A line of the header of a section. -/
structure HeaderLine where
  keyword : Keyword
  rest : List Char
deriving Repr, DecidableEq

def HeaderLine.written (h : HeaderLine) : List Char :=
  h.keyword.written ++ h.rest

/-- The section of a file. -/
inductive Section where
  /-- A change without text: of mode or name only, or of a binary or empty file. -/
  | silent (header : List HeaderLine)
  /-- A file with a new text; it has no old name if it was added. -/
  | shown (header : List HeaderLine) (old : Option (List Char)) (path : List Char)
      (blocks : List Block)
  /-- A deleted file with text; its last line may lack a line feed. -/
  | deleted (header : List HeaderLine) (path : List Char) (removed : List (List Char))
      (brief : Bool) (remark : Option (List Char))
deriving Repr, DecidableEq

/-- A name as it stands in the line of a file. -/
def label (path : List Char) : List Char :=
  if ' ' ∈ path then path ++ ['\t'] else path

/-- Where a hunk with `count` lines of a text starts. -/
def position (start count : Nat) : Nat :=
  if count = 0 then start - 1 else start

/-- The written hunks, the first of which comes after the lines before `old` and
`new`. -/
def writtenHunks (old new : Nat) : List Block → List (List Char)
  | [] => []
  | b :: bs =>
    b.header (position (old + b.gap.length) (olds b.body).length)
        (position (new + b.gap.length) (news b.body).length) ::
      (b.body.map Line.written ++
        writtenHunks (old + (olds b.lines).length) (new + (news b.lines).length) bs)

/-- The hunk of a deleted file. -/
def deletion (removed : List (List Char)) (brief : Bool) (remark : Option (List Char)) : Block :=
  ⟨[], removed.map Line.removed ++ (remark.map Line.remark).toList, brief, false, []⟩

def oldName : Option (List Char) → List Char
  | some path => "--- a/".toList ++ label path
  | none => "--- /dev/null".toList

namespace Section

def lines : Section → List (List Char)
  | silent header => header.map HeaderLine.written
  | shown header old path blocks =>
    header.map HeaderLine.written ++
      oldName old :: ("+++ b/".toList ++ label path) :: writtenHunks 1 1 blocks
  | deleted header path removed brief remark =>
    header.map HeaderLine.written ++
      oldName (some path) :: "+++ /dev/null".toList ::
        writtenHunks 1 1 [deletion removed brief remark]

/-- The path of the new text, if there is one. -/
def path? : Section → Option (List Char)
  | shown _ _ path _ => some path
  | _ => none

def isDeleted : Section → Bool
  | deleted .. => true
  | _ => false

end Section

/-- A path that git does not put in quotes, without empty parts and dots. -/
structure Plain (path : List Char) : Prop where
  no_tab : '\t' ∉ path
  spelled : Path.Spelled path

/-- The line `n` of the new text stands in a hunk. -/
def Shows (blocks : List Block) (n : Nat) : Prop :=
  ∃ (before : List Block) (b : Block) (after : List Block)
      (above : List Line) (l : Line) (below : List Line),
    blocks = before ++ b :: after ∧ b.body = above ++ l :: below ∧ l.new?.isSome ∧
    n = (news (before.flatMap Block.lines ++ b.gap.map Line.kept ++ above)).length + 1

def Section.WellFormed : Section → Prop
  | .shown _ _ path blocks => Plain path ∧ ∀ b ∈ blocks, ∀ l ∈ b.body, l.Marked
  | _ => True

end Patch

/-- The diff of several files. -/
structure Patch where
  sections : List Patch.Section
  finalNewline : Bool
deriving Repr, DecidableEq

namespace Patch

def lines (d : Patch) : List (List Char) :=
  d.sections.flatMap Section.lines

/-- The text of a patch, with or without a line feed at its end. -/
def text (d : Patch) : String :=
  String.ofList (List.intercalate ['\n'] (d.lines ++ if d.finalNewline then [[]] else []))

/-- Every section is well-formed, and no line holds a character that ends lines. -/
structure WellFormed (d : Patch) : Prop where
  sections_wellFormed : ∀ sec ∈ d.sections, sec.WellFormed
  no_end : ∀ line ∈ d.lines, ∀ c ∈ line, isLineEnd c = false

theorem no_end_of_all {lines : List (List Char)}
    (h : (lines.all fun line => line.all fun c => !isLineEnd c)) :
    ∀ line ∈ lines, ∀ c ∈ line, isLineEnd c = false := by
  simpa using h

/-- The patch less its deleted files. -/
def withoutDeleted (d : Patch) : Patch :=
  { d with sections := d.sections.filter (!·.isDeleted) }

/-! ## Names -/

theorem label_of_not_mem {path : List Char} (h : ' ' ∉ path) : label path = path :=
  if_neg h

/-- The tab behind a name is part of the last name below the directories. -/
theorem Plain.spelled_label {path : List Char} (h : Plain path) : Path.Spelled (label path) := by
  by_cases hs : ' ' ∈ path
  · rw [label, if_pos hs]
    have hne := partsFrom_ne_nil '/' path
    obtain ⟨ps, p, hps⟩ : ∃ ps p, partsFrom ['/'] 0 path = ps ++ [p] :=
      ⟨_, _, (dropLast_append_getLast hne).symm⟩
    intro part hp
    rw [partsFrom_concat (by decide) hps] at hp
    rcases mem_append.1 hp with hp | hp
    · exact h.spelled part (hps ▸ mem_append_left _ hp)
    · rw [mem_singleton.1 hp]
      constructor
      · simp
      · intro hdot
        rw [← nil_append ['.'], append_singleton_inj] at hdot
        exact absurd hdot.2 (by decide)
  · rw [label_of_not_mem hs]
    exact h.spelled

theorem label_injective {p q : List Char} (hp : Plain p) (hq : Plain q) (h : label p = label q) : p = q := by
  unfold label at h
  split at h <;> split at h
  · exact append_cancel_right h
  · exact absurd (h ▸ by simp) hq.no_tab
  · exact absurd (h ▸ by simp) hp.no_tab
  · exact h

/-! ## Lines that hunks show -/

theorem not_shows_nil (n : Nat) : ¬ Shows [] n := by
  rintro ⟨before, b, after, above, l, below, hb, -⟩
  simp at hb

theorem Shows.pos {blocks : List Block} {n : Nat} (h : Shows blocks n) : 1 ≤ n := by
  obtain ⟨before, b, after, above, l, below, -, -, -, rfl⟩ := h
  omega

/-- The new lines of a hunk are counted through. -/
theorem lt_length_news_iff {body : List Line} {k : Nat} : k < (news body).length ↔
      ∃ (above : List Line) (l : Line) (below : List Line),
        body = above ++ l :: below ∧ l.new?.isSome ∧ k = (news above).length := by
  induction body generalizing k with
  | nil => simp [news]
  | cons m body ih =>
    constructor
    · intro hk
      rw [length_news_cons] at hk
      by_cases hh : k < m.newCount
      · have hnew : m.new?.isSome := by
          by_contra hn
          rw [Line.newCount, if_neg hn] at hh
          omega
        have hle := m.newCount_le_one
        obtain rfl : k = 0 := by omega
        exact ⟨[], m, body, rfl, hnew, rfl⟩
      · obtain ⟨above, l, below, rfl, hl, heq⟩ := ih.1 (show k - m.newCount < (news body).length by omega)
        exact ⟨m :: above, l, below, rfl, hl, by rw [length_news_cons]; omega⟩
    · rintro ⟨above, l, below, hs, hl, rfl⟩
      rw [hs, news_append, length_append, length_news_cons, Line.newCount, if_pos hl]
      omega

/-- The first hunk shows its own lines behind the gap, and the others show theirs
behind its lines. -/
theorem shows_cons (b : Block) (bs : List Block) (n : Nat) : Shows (b :: bs) n ↔
      (b.gap.length < n ∧ n ≤ b.gap.length + (news b.body).length) ∨
        ∃ m, Shows bs m ∧ n = (news b.lines).length + m := by
  constructor
  · rintro ⟨before, c, after, above, l, below, hbl, hb, hl, rfl⟩
    cases before with
    | nil =>
      obtain ⟨rfl, rfl⟩ := cons.inj hbl
      have hlt := lt_length_news_iff.2 ⟨above, l, below, hb, hl, rfl⟩
      left
      simp only [flatMap_nil, nil_append, news_append, news_map_kept, length_append]
      omega
    | cons c' before =>
      obtain ⟨rfl, rfl⟩ := cons.inj hbl
      right
      refine ⟨_, ⟨before, c, after, above, l, below, rfl, hb, hl, rfl⟩, ?_⟩
      simp only [flatMap_cons, news_append, length_append]
      omega
  · rintro (⟨hlow, hh⟩ | ⟨m, ⟨before, c, after, above, l, below, rfl, hb, hl, rfl⟩, rfl⟩)
    · obtain ⟨k, rfl⟩ := Nat.exists_eq_add_of_lt hlow
      obtain ⟨above, l, below, hb, hl, rfl⟩ := lt_length_news_iff.1
        (show k < (news b.body).length by omega)
      refine ⟨[], b, bs, above, l, below, rfl, hb, hl, ?_⟩
      simp only [flatMap_nil, nil_append, news_append, news_map_kept, length_append]
    · refine ⟨b :: before, c, after, above, l, below, rfl, hb, hl, ?_⟩
      simp only [flatMap_cons, news_append, length_append]
      omega

end Patch

end Excerpt
