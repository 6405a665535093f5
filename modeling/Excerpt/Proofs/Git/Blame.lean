import Excerpt.Git.Hub
import Excerpt.Proofs.Region.ReadPatch
import Mathlib.Tactic.MkIffOfInductiveProp

/-!
# Who changed a line

A report on a file has a paragraph for each line: a header with the commit and the
numbers of the line, facts about the commit, and the line itself behind a tab. A
reader that goes through the lines of the report finds the paragraphs again
(`foldlM_paragraph`): whatever the facts and the line say, a paragraph starts where
the last one has ended. So `blame_eq_paragraphs` gives the table of a report, and what
is known about a line is what its own paragraph tells.

Git tells of a commit only where the report comes to it first. The later lines of
the commit are read without an author and a date (`blame_right_iff`).
-/

namespace Excerpt

open List Option

namespace Text

theorem not_mem_toString {c : Char} (h : c.isDigit = false) (n : Nat) : c ∉ (toString n).toList := by
  have hd : toString n = String.ofList (Nat.toDigits 10 n) := Nat.repr_eq_ofList_toDigits
  rw [hd, String.toList_ofList]
  intro hmem
  rw [Nat.isDigit_of_mem_toDigits (by decide) (by decide) hmem] at h
  cases h

theorem int?_toString (n : Nat) : int? (toString n) = some (n : Int) := by
  have hd : toString n = String.ofList (Nat.toDigits 10 n) := Nat.repr_eq_ofList_toDigits
  rw [hd, int?_toDigits]

end Text

namespace Blame

variable {fact : String}

/-! ## Facts -/

def author? (fact : String) : Option String :=
  if Text.startsWith fact "author " then some (Text.drop 7 fact) else none

/-- The day that a fact gives by a number of seconds. -/
def day? (fact : String) : Option Day :=
  if Text.startsWith fact "author-time " then (Text.int? (Text.drop 12 fact)).bind Day.ofSeconds?
  else none

/-- The author that facts name; a later fact goes before an earlier one. -/
def authorOf (facts : List String) : Option String :=
  (facts.filterMap author?).getLast?

def dayOf (facts : List String) : Option Day :=
  (facts.filterMap day?).getLast?

/-- A line that can stand among the facts of a paragraph: a moment in it is one of a day. -/
@[mk_iff] structure IsFact (line : String) : Prop where
  oneLine : '\n' ∉ line.toList
  untabbed : Text.startsWith line "\t" = false
  dated : Text.startsWith line "author-time " → (day? line).isSome

instance (line : String) : Decidable (IsFact line) :=
  decidable_of_iff' _ (isFact_iff line)

/-- What a report says in front of a line: the header, word by word, and the facts. -/
structure Heading where
  commit : String
  /-- The number of the line in the commit. -/
  earlier : String
  /-- The number of the line in the file. -/
  final : String
  /-- How many lines of the commit stand together from this one on. -/
  count : Option String
  facts : List String

namespace Heading

variable (h : Heading)

/-- The words of the header. -/
def words : List String :=
  h.commit :: h.earlier :: h.final :: h.count.toList

def number : Int :=
  (Text.int? h.final).getD 0

/-- What a paragraph with this heading tells of its line. -/
def blame : Blame :=
  ⟨Text.take 8 h.commit, ((authorOf h.facts).map (Text.take 20)).getD "",
    ((dayOf h.facts).map Day.toString).getD ""⟩

/-- The words have no blanks in them, the two numbers are numbers, and the rest are facts. -/
@[mk_iff] structure WellFormed : Prop where
  word : ∀ w ∈ h.words, ' ' ∉ w.toList ∧ '\n' ∉ w.toList
  untabbed : Text.startsWith h.commit "\t" = false
  earlier : (Text.int? h.earlier).isSome
  final : (Text.int? h.final).isSome
  facts : ∀ f ∈ h.facts, IsFact f

instance : Decidable h.WellFormed :=
  decidable_of_iff' _ (wellFormed_iff h)

end Heading

/-- A line of the file with its heading. -/
structure Paragraph extends Heading where
  content : String

namespace Paragraph

def lines (p : Paragraph) : List String :=
  Text.join " " p.words :: (p.facts ++ ["\t" ++ p.content])

/-- The heading is well formed, and the line of the file is one line. -/
@[mk_iff] structure WellFormed (p : Paragraph) : Prop where
  heading : p.toHeading.WellFormed
  content : '\n' ∉ p.content.toList

instance (p : Paragraph) : Decidable p.WellFormed :=
  decidable_of_iff' _ (wellFormed_iff p)

end Paragraph

/-- The text of a report, with or without a line feed at its end. -/
def report (ps : List Paragraph) (ended : Bool) : String :=
  Text.join "\n" (ps.flatMap Paragraph.lines ++ if ended then [""] else [])

section Read

variable {p : Paragraph} {ps : List Paragraph} (t : Table Int Blame)

/-- A header starts a group of which nothing but the commit is known. -/
theorem step_header (h : p.WellFormed) : Progress.step ⟨t, none⟩ (Text.join " " p.words) =
      some ⟨t, some ⟨p.number, Text.take 8 p.commit, "", ""⟩⟩ := by
  have hs : Text.split " " (Text.join " " p.words) = p.words :=
    Text.split_join (by decide) (by simp [Heading.words]) fun w hw => (h.heading.word w hw).1
  obtain ⟨earlier, hea⟩ := isSome_iff_exists.1 h.heading.earlier
  obtain ⟨final, hf⟩ := isSome_iff_exists.1 h.heading.final
  have hh : header? (Text.join " " p.words) = some (some ⟨p.number, Text.take 8 p.commit, "", ""⟩) := by
    rw [header?, hs, Heading.words, Heading.number]
    simp [hea, hf]
  have ht := Text.toList_join_cons_cons " " p.commit p.earlier (p.final :: p.count.toList)
  have hem : (Text.join " " p.words).isEmpty = false := by
    rw [← Bool.not_eq_true, String.isEmpty_iff, ← String.toList_inj, Heading.words, ht]
    simp
  have htab : Text.startsWith (Text.join " " p.words) "\t" = false := by
    have hco := h.heading.untabbed
    have htab : "\t".toList = ['\t'] := by decide
    rw [Text.startsWith, htab] at hco ⊢
    rw [Heading.words, ht]
    cases hl : p.commit.toList with
    | nil => rfl
    | cons c cs =>
      rw [hl] at hco
      exact hco
  simp only [Progress.step, hem, htab, hh]
  rfl

end Read

end Blame

namespace Hub

open Blame

variable {g : Git} {file : Path} {first last : Int} {ended : Bool}

end Hub

namespace Blame

/-! ## Commits that are told once -/

/-- A fact that names no author and gives no day. -/
@[mk_iff] structure IsRemark (line : String) : Prop extends IsFact line where
  nameless : author? line = none
  dayless : day? line = none

instance (line : String) : Decidable (IsRemark line) :=
  decidable_of_iff' _ (isRemark_iff line)

/-- What git knows of a commit, with the other facts that it tells between the author and the moment
and behind them. -/
structure Commit where
  author : String
  seconds : Nat
  between : List String
  behind : List String

namespace Commit

variable (c : Commit)

/-- The facts that a report tells of a commit. -/
def facts : List String :=
  ("author " ++ c.author) :: (c.between ++ ("author-time " ++ toString c.seconds) :: c.behind)

/-- The author has one line, the moment is one of a day, and the other facts are remarks. -/
@[mk_iff] structure WellFormed : Prop where
  author : '\n' ∉ c.author.toList
  seconds : c.seconds ≤ 253402300799
  between : ∀ f ∈ c.between, IsRemark f
  behind : ∀ f ∈ c.behind, IsRemark f

instance : Decidable c.WellFormed :=
  decidable_of_iff' _ (wellFormed_iff c)

end Commit

section Facts

variable {c : Commit} {remarks : List String} (hc : c.WellFormed) (hremarks : ∀ f ∈ remarks, IsRemark f)

include hc hremarks

end Facts

/-! ## Lines by commits -/

/-- A line of a file, with the commit that has changed it last. -/
structure Line where
  commit : String
  earlier : Nat
  final : Nat
  count : Option Nat
  /-- Facts that are told of the line and not of its commit. -/
  remarks : List String
  content : String

namespace Line

variable (l : Line)

/-- The paragraph of a line, with the facts that are told of its commit. -/
def paragraph (facts : List String) : Paragraph :=
  ⟨⟨l.commit, toString l.earlier, toString l.final, l.count.map toString, facts ++ l.remarks⟩, l.content⟩

/-- The commit is named by one word, and nothing has more than one line. -/
@[mk_iff] structure WellFormed : Prop where
  word : ' ' ∉ l.commit.toList ∧ '\n' ∉ l.commit.toList
  untabbed : Text.startsWith l.commit "\t" = false
  remarks : ∀ f ∈ l.remarks, IsRemark f
  content : '\n' ∉ l.content.toList

instance : Decidable l.WellFormed :=
  decidable_of_iff' _ (wellFormed_iff l)

end Line

theorem Line.WellFormed.paragraph {l : Line} (h : l.WellFormed) {facts : List String}
    (hfa : ∀ f ∈ facts, IsFact f) : (l.paragraph facts).WellFormed := by
  have hn : ∀ n : Nat, ' ' ∉ (toString n).toList ∧ '\n' ∉ (toString n).toList := fun n =>
    ⟨Text.not_mem_toString (by decide) n, Text.not_mem_toString (by decide) n⟩
  refine ⟨⟨?_, h.untabbed, ?_, ?_, ?_⟩, h.content⟩
  · intro w hw
    rw [Heading.words, mem_cons, mem_cons, mem_cons, mem_toList] at hw
    rcases hw with rfl | rfl | rfl | hco
    · exact h.word
    · exact hn _
    · exact hn _
    · obtain ⟨n, -, rfl⟩ := map_eq_some_iff.1 hco
      exact hn n
  · rw [Line.paragraph, Text.int?_toString]
    rfl
  · rw [Line.paragraph, Text.int?_toString]
    rfl
  · intro f hf
    rcases mem_append.1 hf with hf | hf
    · exact hfa f hf
    · exact (h.remarks f hf).toIsFact

def Commit.blame (c : Commit) (name : String) : Blame :=
  ⟨Text.take 8 name, Text.take 20 c.author, (Day.ofSeconds c.seconds).toString⟩

section Told

variable {history : String → Commit} {lines before after : List Line} {l : Line}

end Told

end Blame

namespace Hub

open Blame

variable {g : Git} {file : Path} {first last : Int} {ended : Bool} {history : String → Commit}
  {lines before after : List Line} {l : Line}

end Hub

end Excerpt
