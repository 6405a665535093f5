import Excerpt.Command.Markup
import Excerpt.Fixture.Manifest
import Excerpt.Template.Render

/-!
# The shell

A command works on files and writes lines. It ends with an exit code, or by an error that it does not
handle.
-/

namespace Excerpt

/-- What a command works with, and what it has written. -/
structure Shell where
  folder : Folder
  git : Git
  /-- The text on standard input. -/
  input : String
  readTags : Bytes → TagFile
  /-- The directory of the program itself. -/
  program : Path
  /-- The directory in which the files of a commit are looked at. -/
  checkout : Path
  /-- The time of day. -/
  time : String
  collector : Option Collector
  output : String

namespace Shell

/-- How a command ends early. -/
inductive Stop where
  | exit (code : Nat)
  | failed (cause : RenderError)
  /-- A new working copy cannot be made. -/
  | noCheckout (complaint : String)
  /-- A line has a tag that closes nothing. -/
  | markup (cause : String)
  /-- The arguments do not make a command. -/
  | usage (cause : String)

/-- Work of a command; what was done before it stops stays done. -/
abbrev Task (α : Type) := ExceptT Stop (StateM Shell) α

/-- Writes a text as it is, and a line feed. -/
def echo (text : String) : Task Unit :=
  modify fun s => { s with output := s.output ++ text ++ "\n" }

/-- Writes a line without its tags. -/
def say (line : String) : Task Unit :=
  match Markup.plain line with
  | .ok text => echo text
  | .error e => throw (.markup e)

/-- Ends with a line and a code for failure. -/
def giveUp {α : Type} (line : String) : Task α := do
  say line
  throw (.exit 1)

/-- Does work on documents that may fail. -/
def attempt {α : Type} (session : Session) (w : Session.Work RenderError α) :
    Task (Except RenderError α × Session) := do
  let s ← get
  let (r, session) := (w.run).run { session with folder := s.folder, collector := s.collector }
  set { s with folder := session.folder, collector := session.collector }
  return (r, session)

/-- The work on the documents of a repository. -/
def session (repo : Path) (remap : Bool) (regions : Option RegionSet) : Task Session := do
  let s ← get
  return .start repo s.folder s.git s.readTags remap regions

/-- The words for how a command ended. -/
def Stop.message : Stop → String
  | .exit _ => ""
  | .failed e => e.message
  | .noCheckout complaint => "Failed to create worktree: " ++ complaint
  | .markup e => e
  | .usage e => e

end Shell

end Excerpt
