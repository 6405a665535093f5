import Excerpt.Failure
import Excerpt.Git.Basic
import Excerpt.Region.Basic
import Excerpt.Text.Line
import Excerpt.Text.Numeral

/-!
# Changed regions

The changed regions of a repository are read off a diff: every line of the new text that a hunk shows is
changed, whether it was added or stands beside a change. The diff is that of a range of commits.
-/

namespace Excerpt

namespace RegionSet

/-- Where the reading of a diff stands: the regions so far, the file that is being shown, and the next line
of its new text. -/
structure Progress where
  regions : RegionSet
  file : Option Path
  next : Int

/-- The number that a text spells. -/
def number (s : String) : Except Failure Int :=
  match Text.int? s with
  | some n => .ok n
  | none => .error (.notANumber s)

/-- The first new line that the header of a hunk speaks of, if it does. -/
def headerLine? (line : String) : Except Failure (Option Int) :=
  match (Text.words line)[2]? with
  | some part =>
    if Text.startsWith part "+" then
      (number (Text.beforeFirst "," (Text.drop 1 part))).map some
    else .ok none
  | none => .ok none

/-- Takes in a line of a diff of the files below `repo`. -/
def Progress.step (repo : Path) (p : Progress) (line : String) : Except Failure Progress :=
  if Text.startsWith line "+++ b/" then
    .ok { p with file := some (repo.child (Text.drop 6 line)) }
  else if Text.startsWith line "@@" then do
    return { p with next := (← headerLine? line).getD p.next }
  else
    match p.file with
    | some file =>
      if Text.startsWith line "+" || Text.startsWith line " " then
        .ok ⟨p.regions.add file p.next p.next, p.file, p.next + 1⟩
      else .ok p
    | none => .ok p

/-- Takes in the lines of a diff, up to one that cannot be read. -/
def Progress.run (repo : Path) (p : Progress) : List String → Progress × Option Failure
  | [] => (p, none)
  | line :: lines =>
    match p.step repo line with
    | .ok p => p.run repo lines
    | .error e => (p, some e)

/-- Adds the regions that a diff shows, up to a line that cannot be read. -/
def addDiff (s : RegionSet) (repo : Path) (diff : String) : RegionSet × Option Failure :=
  let (p, e) := Progress.run repo ⟨s, none, 0⟩ (Text.lines diff)
  (p.regions, e)

def gitFailure : GitError → Failure
  | .noProgram => .missingFile "git"
  | .refused complaint => .noComparison complaint

/-- The commit that changes are counted from: the one at which the main branch parts, or the parent of the
last commit. -/
def detectBase (g : Git) : Except Failure String :=
  match g.mergeBase "main" with
  | .ok base => .ok (Text.trim base)
  | .error .noProgram => .error (.missingFile "git")
  | .error (.refused _) =>
    match g.mergeBase "master" with
    | .ok base => .ok (Text.trim base)
    | .error .noProgram => .error (.missingFile "git")
    | .error (.refused _) => .ok "HEAD~1"

/-- The range of commits that a base stands for: itself if it is a range, and else up to the last commit. -/
def rangeOf (base : String) : String :=
  if Text.contains base ".." then base else base ++ "..HEAD"

/-- The regions changed since a base, which is detected if none is given. -/
def ofGit (g : Git) (base : Option String) (repo : Path) : Except Failure RegionSet := do
  let base ←
    match base with
    | some base => if base.isEmpty then detectBase g else pure base
    | none => detectBase g
  let diff ← (g.compare (rangeOf base)).mapError gitFailure
  match empty.addDiff repo diff with
  | (s, none) => return s
  | (_, some e) => .error e

end RegionSet

end Excerpt
