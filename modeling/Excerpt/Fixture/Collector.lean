import Excerpt.File.Folder

/-!
# Collected files

Files that code could not be taken from can be collected, each with what went wrong. A file is copied once,
under its own name or, if that is taken, under its name with a number.
-/

namespace Excerpt

/-- What went wrong with a file. -/
structure Mishap where
  source : Path
  /-- The name of the copy. -/
  copy : String
  cause : String
  context : Option String
deriving Repr, DecidableEq

/-- Where files are collected, and what has been collected. -/
structure Collector where
  directory : Path
  mishaps : List Mishap
  copied : List Path
deriving Repr

namespace Collector

def start (directory : Path) : Collector :=
  ⟨directory, [], []⟩

/-- The name of a file with the number `n`. -/
def numberedName (source : Path) (n : Nat) : String :=
  s!"{source.stem}_{n}{source.suffix}"

/-- The first free name among those with numbers from `n` on, of `tries` that are looked at. -/
def freeName (f : Folder) (directory source : Path) (n : Nat) : Nat → String
  | 0 => numberedName source n
  | tries + 1 =>
    if f.exists (directory.child (numberedName source n)) then freeName f directory source (n + 1) tries
    else numberedName source n

/-- The name for the copy of a file. One that has been copied already is named for itself. -/
def copyName (f : Folder) (c : Collector) (source : Path) : String :=
  if f.exists (c.directory.child source.name) && !c.copied.contains source then
    freeName f c.directory source 1 (f.files.length + f.made.length + 1)
  else source.name

def record (c : Collector) (m : Mishap) : Collector :=
  { c with mishaps := c.mishaps ++ [m] }

/-- Collects a file that something went wrong with. What cannot be copied is a failure; the directory has been
made by then. -/
def collect (f : Folder) (c : Collector) (source : Path) (cause : String) (context : Option String) :
    Folder × Collector × Option Failure :=
  if !f.exists source then (f, c, none)
  else
    let name := copyName f c source
    let mishap : Mishap := ⟨source, name, cause, context⟩
    if c.copied.contains source then (f, c.record mishap, none)
    else
      match f.make c.directory with
      | .error e => (f, c, some e)
      | .ok f =>
        match (f.read source).bind (f.write (c.directory.child name)) with
        | .error e => (f, c, some e)
        | .ok f => (f, { c with copied := c.copied ++ [source] }.record mishap, none)

end Collector

end Excerpt
