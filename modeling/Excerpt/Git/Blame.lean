import Excerpt.Git.Day
import Excerpt.Table
import Excerpt.Text.Line
import Excerpt.Text.Split

/-!
# Blame

A report of who last changed the lines of a file is a sequence of groups, one for a line: a header with
the commit and the line number, facts about the commit, and the line itself behind a tab. The facts of a
line are those of its own group.
-/

namespace Excerpt

/-- Who last changed a line, and when. -/
structure Blame where
  commit : String
  author : String
  date : String
deriving Repr, DecidableEq

namespace Blame

/-- A group that has not been closed by its line yet. -/
structure Group where
  line : Int
  blame : Blame

/-- Where the reading of a report stands. -/
structure Progress where
  lines : Table Int Blame
  current : Option Group

/-- The group that a header starts; `none` if the line is no header, and no value at all if its numbers cannot
be read. -/
def header? (line : String) : Option (Option Group) :=
  match Text.split " " line with
  | commit :: earlier :: final :: _ => do
    let _ ← Text.int? earlier
    let final ← Text.int? final
    return some ⟨final, Text.take 8 commit, "", ""⟩
  | _ => some none

/-- Takes in a fact about the commit of a group. A moment that is no day cannot be read. -/
def Group.fact (g : Group) (line : String) : Option Group :=
  if Text.startsWith line "author " then
    some { g with blame.author := Text.take 20 (Text.drop 7 line) }
  else if Text.startsWith line "author-time " then do
    let seconds ← Text.int? (Text.drop 12 line)
    let day ← Day.ofSeconds? seconds
    return { g with blame.date := day.toString }
  else some g

/-- The lines with those of the open group. -/
def Progress.close (p : Progress) : Table Int Blame :=
  match p.current with
  | some g => p.lines.put g.line g.blame
  | none => p.lines

/-- Takes in a line of a report. -/
def Progress.step (p : Progress) (line : String) : Option Progress :=
  match p.current with
  | some g =>
    if Text.startsWith line "\t" then some ⟨p.close, none⟩
    else do
      let g ← g.fact line
      return { p with current := some g }
  | none =>
    if line.isEmpty || Text.startsWith line "\t" then some p
    else do
      let g ← header? line
      return { p with current := g }

/-- The lines of a report, each with who last changed it. A report that cannot be read says nothing. -/
def ofReport (report : String) : Table Int Blame :=
  match (Text.split "\n" report).foldlM Progress.step ⟨[], none⟩ with
  | some p => p.close
  | none => []

/-- A line of code with its number and what is known about it. -/
def decorate (known : Option Blame) (number : Int) (line : String) : String :=
  let number := Text.padNumber 4 number
  match known with
  | some b =>
    let author := Text.padText 20 b.author
    s!"{number} │ {b.commit} │ {author} │ {b.date} │ {line}"
  | none => s!"{number} │ {line}"

/-- Lines of code from number `first` on, each with what is known about it. -/
def decorated (known : Table Int Blame) (first : Int) : List String → List String
  | [] => []
  | line :: lines => decorate (known.get? first) first line :: decorated known (first + 1) lines

end Blame

end Excerpt
