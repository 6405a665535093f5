import Excerpt.Failure
import Excerpt.File.Path

/-!
# Files

The files that can be seen are given as data: their absolute paths and their bytes. A directory exists if
it was made, or if a file lies somewhere below it.
-/

namespace Excerpt

/-- The visible files, the directories made without a file in them, and the working directory. -/
structure Folder where
  files : Table Path Bytes
  made : List Path
  cwd : Path

namespace Folder

/-- What stands at a path. -/
inductive Entry where
  | file (content : Bytes)
  | directory
  | missing
  /-- A part of the path that should be a directory is a file. -/
  | blocked
deriving Repr, DecidableEq

def hasDirectory (f : Folder) (p : Path) : Bool :=
  p.parts == [Path.slash] || (f.cwd :: f.made).any (p.parts.isPrefixOf ·.parts) ||
    f.files.any fun (q, _) => p.parts.isPrefixOf q.parts && p != q

/-- What stands at an absolute path. -/
def entryAt (f : Folder) (p : Path) : Entry :=
  match f.files.get? p with
  | some content => .file content
  | none => if f.hasDirectory p then .directory else .missing

/-- Follows names down from the directory `here`. Every name but the last has to lead to a directory. -/
def follow (f : Folder) (here : Path) : List String → Entry
  | [] => f.entryAt here
  | name :: names =>
    match f.entryAt here with
    | .directory => f.follow (if name == ".." then here.parent else ⟨here.parts ++ [name]⟩) names
    | .file _ => .blocked
    | e => e

def entry (f : Folder) (p : Path) : Entry :=
  f.follow ⟨[Path.slash]⟩ (f.cwd.join p).names

/-- Whether anything stands at a path. -/
def «exists» (f : Folder) (p : Path) : Bool :=
  match f.entry p with
  | .file _ => true
  | .directory => true
  | _ => false

def isFile (f : Folder) (p : Path) : Bool :=
  match f.entry p with
  | .file _ => true
  | _ => false

def isDirectory (f : Folder) (p : Path) : Bool :=
  f.entry p == .directory

def read (f : Folder) (p : Path) : Except Failure Bytes :=
  match f.entry p with
  | .file content => .ok content
  | .directory => .error (.isDirectory p.toString)
  | .missing => .error (.missingFile p.toString)
  | .blocked => .error (.notDirectory p.toString)

/-- Makes a directory and those above it that are missing; `names` is the way down to it from `here`. -/
def makeBelow (f : Folder) (here : Path) : List String → Except Failure Folder
  | [] => .ok f
  | name :: names =>
    let next := if name == ".." then here.parent else ⟨here.parts ++ [name]⟩
    match f.entryAt next with
    | .directory => f.makeBelow next names
    | .missing => makeBelow { f with made := f.made ++ [next] } next names
    | _ =>
      .error (if names.isEmpty then .fileExists next.toString
        else .notDirectory (Path.mk (next.parts ++ names)).toString)

/-- Makes a directory and those above it that are missing. -/
def make (f : Folder) (p : Path) : Except Failure Folder :=
  f.makeBelow ⟨[Path.slash]⟩ (f.cwd.join p).names

/-- Puts a file at a path, in place of a file that was there. -/
def write (f : Folder) (p : Path) (content : Bytes) : Except Failure Folder :=
  match f.entry p with
  | .directory => .error (.isDirectory p.toString)
  | .blocked => .error (.notDirectory p.toString)
  | _ =>
    if f.isDirectory p.parent then .ok { f with files := f.files.put (p.resolve f.cwd) content }
    else .error (.missingFile p.toString)

/-- Puts a file at a path, in a directory that is made if it is missing. -/
def save (f : Folder) (p : Path) (content : Bytes) : Except Failure Folder := do
  (← f.make p.parent).write p content

/-- Takes a directory and all below it away. -/
def discard (f : Folder) (d : Path) : Folder :=
  { f with
    files := f.files.filter fun (p, _) => !d.parts.isPrefixOf p.parts
    made := f.made.filter fun p => !d.parts.isPrefixOf p.parts }

end Folder

end Excerpt
