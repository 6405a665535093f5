import Excerpt.File.Path
import Excerpt.Table
import Excerpt.Text.Bytes

/-!
# What git knows

Everything that is asked of git is answered from a record of its answers. There may be no git to ask, or
no repository for it to look at.
-/

namespace Excerpt

/-- A recorded answer of `git blame` on some lines of a file. -/
structure BlameRecord where
  path : String
  first : Int
  last : Int
  output : String
deriving Repr

/-- The answers of git about a repository. -/
structure Answers where
  origin : Option String
  head : Option String
  /-- The changes of a file since the last commit; a file without a value cannot be compared. -/
  changes : Table String (Option String)
  /-- The diff of a range of commits. -/
  ranges : Table String String
  /-- The names of the files that a range of commits changes, one a line. -/
  names : Table String String
  /-- The commit at which a branch and the last commit part. -/
  mergeBases : Table String String
  blames : List BlameRecord
  /-- The files of a commit, by their paths below the repository. -/
  commits : Table String (Table String Bytes)

/-- Where git is asked. -/
inductive Git where
  /-- There is no git. -/
  | absent
  /-- There is no repository. -/
  | outside
  | repository (answers : Answers)

/-- Why git gives no answer. -/
inductive GitError where
  | noProgram
  | refused (complaint : String)
deriving Repr, DecidableEq

namespace Git

def ask {α : Type} (g : Git) (f : Answers → Except GitError α) : Except GitError α :=
  match g with
  | absent => .error .noProgram
  | outside => .error (.refused "fatal: not a git repository\n")
  | repository a => f a

/-- An answer that may be missing. -/
def known {α : Type} (complaint : String) (a : Option α) : Except GitError α :=
  match a with
  | some a => .ok a
  | none => .error (.refused complaint)

/-- The address of the repository that this one was copied from. -/
def origin (g : Git) : Except GitError String :=
  g.ask fun a => known "" a.origin

/-- The last commit. -/
def head (g : Git) : Except GitError String :=
  g.ask fun a => known "" a.head

/-- The changes of a file since the last commit. -/
def changes (g : Git) (path : String) : Except GitError String :=
  g.ask fun a => known "" ((a.changes.get? path).getD (some ""))

/-- What git says of a revision that it does not know. -/
def badRevision (range : String) : String :=
  s!"fatal: bad revision '{range}'\n"

/-- The diff of a range of commits. -/
def compare (g : Git) (range : String) : Except GitError String :=
  g.ask fun a => known (badRevision range) (a.ranges.get? range)

/-- The names of the files that a range of commits changes. -/
def changedNames (g : Git) (range : String) : Except GitError String :=
  g.ask fun a => known (badRevision range) (a.names.get? range)

/-- The commit at which a branch and the last commit part. -/
def mergeBase (g : Git) (branch : String) : Except GitError String :=
  g.ask fun a => known "" (a.mergeBases.get? branch)

/-- Who last changed the lines of a file, as git reports it. -/
def blame (g : Git) (path : String) (first last : Int) : Except GitError String :=
  g.ask fun a =>
    known "" ((a.blames.find? fun b => b.path == path && b.first == first && b.last == last).map
      (·.output))

def filesAt (g : Git) (commit : String) : Except GitError (Table String Bytes) :=
  g.ask fun a => known s!"fatal: invalid reference: {commit}\n" (a.commits.get? commit)

end Git

end Excerpt
