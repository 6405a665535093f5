import Excerpt.Extract
import Excerpt.Fixture.Collector
import Excerpt.Git.Hub
import Excerpt.Region.Changes
import Excerpt.Tag.Basic

/-!
# Sessions

A session is the work on documents of one repository: the files, what git says, the regions that are still
to be shown, and the notes made so far. Showing code takes its lines out of the regions.
-/

namespace Excerpt

/-- The state of the work on documents. -/
structure Session where
  repo : Path
  /-- Whether lines are counted as they stood in the last commit. -/
  remap : Bool
  git : Git
  folder : Folder
  hub : Hub
  regions : Option RegionSet
  collector : Option Collector
  /-- How the file of a project is understood. -/
  readTags : Bytes → TagFile
  tags : Table String Tag
  /-- The filters to capitals. -/
  filters : List String
  notes : List Note

namespace Session

/-- The start of the work on a repository. -/
def start (repo : Path) (folder : Folder) (git : Git) (readTags : Bytes → TagFile) (remap : Bool)
    (regions : Option RegionSet) : Session where
  repo := repo
  remap := remap
  git := git
  folder := folder
  hub := .start repo folder.cwd
  regions := regions
  collector := none
  readTags := readTags
  tags := []
  filters := []
  notes := []

/-- Work that may fail; what was done before a failure stays done. -/
abbrev Work (ε α : Type) := ExceptT ε (StateM Session) α

def note {ε : Type} (level : Level) (text : String) : Work ε Unit :=
  modify fun s => { s with notes := s.notes ++ [⟨level, text⟩] }

def take {α : Type} (r : Report α) : Work Failure α := do
  modify fun s => { s with notes := s.notes ++ r.notes }
  r.outcome

/-- Asks about the repository. -/
def askHub {ε α : Type} (m : StateM Hub α) : Work ε α := do
  let s ← get
  let (a, hub) := m.run s.hub
  set { s with hub := hub }
  return a

/-- The path of a file that a document names. -/
def locate (s : Session) (path : String) : Path :=
  s.repo.join (.ofString path)

/-- The passage of the file at `p` that is asked for. -/
def passage (p : Path) (request : Except Failure Request) : Work Failure Passage := do
  let language ← Language.ofPath p
  let request ← request
  take ((Source.ofFolder (← get).folder p).extract language request)

/-- Takes lines of a file out of the regions. -/
def cover {ε : Type} (p : Path) (first last : Int) : Work ε Unit :=
  modify fun s => { s with regions := s.regions.map (·.subtract p first last) }

def shownLine {ε : Type} (p : Path) (line : Int) : Work ε Int := do
  let s ← get
  if s.remap then askHub (Hub.committedLine s.git p line) else return line

/-- Notes that the repository is published elsewhere, when that is first seen. -/
def noteSite {ε : Type} : Work ε Unit := do
  let s ← get
  match s.hub.site, s.git.origin, s.git.head with
  | none, .ok origin, .ok _ =>
    if (Site.addressOf (Text.trim origin)).isNone then
      note .warning ("Non-GitHub repository: " ++ Text.trim origin)
  | _, _, _ => return ()

/-- The header of the lines `first` to `last` of a file, shown as `a` to `b`. -/
def header (link : Bool) (p : Path) (first last a b : Int) : Work Failure String := do
  let s ← get
  if link then
    noteSite
    askHub (Hub.reference s.git p (some first) (some last) s.remap)
  else
    match Hub.relative? s.repo p with
    | none => throw (.notBelow p.toString s.repo.toString)
    | some file =>
      let shown := Hub.label file.toString (some a) (if a = b then none else some b)
      return s!"📍 `{shown}`"

/-- Notes that git does not say who changed lines. -/
def noteBlame {ε : Type} (p : Path) (first last : Int) : Work ε Unit := do
  match (← get).git.blame p.toString first last with
  | .ok _ => return ()
  | .error .noProgram =>
    note .error ("Error getting blame info: " ++ (Failure.missingFile "git").message)
  | .error (.refused _) =>
    let words := ["git", "blame", "-L", s!"{first},{last}", "--porcelain", p.toString]
    note .warning
      s!"Git blame failed: Command '{Text.quotedList words}' returned non-zero exit status 128."

/-- Code as a citation shows it, from line number `first` on. -/
def decorated {ε : Type} (c : Citation) (p : Path) (code : String) (first : Int) : Work ε String := do
  if c.blame then
    noteBlame p first (first + (Text.lines code).length - 1)
    return Hub.blamed (← get).git p code first
  else if c.numbered then return Citation.withNumbers code first
  else return code

/-- The code that a citation shows. -/
def shown (c : Citation) : Work Failure String := do
  let p := (← get).locate c.path
  let found ← passage p (c.selection.request c.path)
  cover p found.first found.last
  let a ← shownLine p found.first
  let b ← shownLine p found.last
  let header ← header c.link p found.first found.last a b
  let code ← decorated c p found.text a
  return Citation.block header (c.languageName p) code

/-- Whether a failure only says that a citation cannot be meant. -/
def isRefusal : Failure → Bool
  | .noSelection _ => true
  | .notInLanguage _ => true
  | _ => false

/-- Collects the file that a failure is about, if files are collected. -/
def collect (p : Path) (f : Failure) : Work Failure Unit := do
  let s ← get
  match s.collector with
  | none => return ()
  | some c =>
    match c.collect s.folder p f.message none with
    | (folder, c, e) =>
      set { s with folder := folder, collector := some c }
      match e with
      | some e => throw e
      | none => return ()

/-- The code that a citation shows, or the words for why there is none. -/
def cite (c : Citation) : Work Failure String :=
  tryCatch (shown c) fun f => do
    if !isRefusal f then
      note .error ("Code extraction failed: " ++ f.message)
      collect ((← get).locate c.path) f
    return Citation.complaint f

def lastLine : Int := 999999

/-- Takes what is selected of a file out of the regions, without showing it. -/
def omitted (path : String) (selection : Selection) : Work Failure Unit := do
  let p := (← get).locate path
  match selection.omission with
  | .ok none => cover p 1 lastLine
  | .ok (some (.lines first last)) => do
    let _ ← Language.ofPath p
    cover p first last
  | .ok (some request) => do
    let found ← passage p (.ok request)
    cover p found.first found.last
  | .error e => do
    let _ ← Language.ofPath p
    throw e

/-- Leaves out what is selected of a file. What cannot be found is noted. -/
def leaveOut {ε : Type} (path : String) (selection : Selection) : Work ε String := do
  if (← get).regions.isSome then
    let s ← get
    match ((omitted path selection).run).run s with
    | (.ok _, s) => set s
    | (.error f, s) => do
      set s
      note .warning ("Failed to extract region for ignore_changes: " ++ f.message)
  return ""

end Session

end Excerpt
