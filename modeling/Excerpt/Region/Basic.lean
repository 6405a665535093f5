import Excerpt.File.Path
import Excerpt.Table

/-!
# Regions of files

A region is a run of lines of a file. A region set keeps, for each file, its regions in increasing order
with at least one line between two of them, so that a set of lines has one form. Adding a region merges it
with those it meets; subtracting one cuts it out of those it overlaps. A file without regions is not kept.
-/

namespace Excerpt

/-- A run of lines, both ends included. -/
structure LineRange where
  first : Int
  last : Int
deriving Repr, DecidableEq

namespace LineRange

/-- The run between two lines, given in either order. -/
def between (a b : Int) : LineRange :=
  if b < a then ⟨b, a⟩ else ⟨a, b⟩

/-- Whether `r` comes before `s`, by the first and then by the last line. -/
def le (r s : LineRange) : Bool :=
  r.first < s.first || (r.first == s.first && r.last ≤ s.last)

/-- Puts a run in its place among ordered runs. -/
def insert (r : LineRange) : List LineRange → List LineRange
  | [] => [r]
  | s :: rs => if s.le r then s :: insert r rs else r :: s :: rs

/-- Merges ordered runs that overlap or touch, the first of which is `r`. -/
def mergeFrom (r : LineRange) : List LineRange → List LineRange
  | [] => [r]
  | s :: rs =>
    if s.first ≤ r.last + 1 then mergeFrom ⟨r.first, max r.last s.last⟩ rs
    else r :: mergeFrom s rs

/-- Merges ordered runs that overlap or touch. -/
def merge : List LineRange → List LineRange
  | [] => []
  | r :: rs => mergeFrom r rs

/-- What is left of the run `r` when the lines of `cut` are taken out. -/
def minus (r cut : LineRange) : List LineRange :=
  if cut.last < r.first || r.last < cut.first then [r]
  else
    (if r.first < cut.first then [⟨r.first, cut.first - 1⟩] else []) ++
      (if cut.last < r.last then [⟨cut.last + 1, r.last⟩] else [])

end LineRange

/-- A run of lines of a file. -/
structure Region where
  path : Path
  lines : LineRange
deriving Repr, DecidableEq

namespace Region

def toString (r : Region) : String :=
  s!"{r.path}:{r.lines.first}-{r.lines.last}"

end Region

/-- The regions of files, in the order in which the files came in. -/
structure RegionSet where
  files : Table Path (List LineRange)
deriving Repr

namespace RegionSet

def empty : RegionSet := ⟨[]⟩

def runs (s : RegionSet) (p : Path) : List LineRange :=
  (s.files.get? p).getD []

/-- Adds the lines between `a` and `b` of a file. -/
def add (s : RegionSet) (p : Path) (a b : Int) : RegionSet :=
  ⟨s.files.put p (LineRange.merge (LineRange.insert (.between a b) (s.runs p)))⟩

/-- Takes the lines between `a` and `b` of a file out. -/
def subtract (s : RegionSet) (p : Path) (a b : Int) : RegionSet :=
  match s.files.get? p with
  | none => s
  | some runs =>
    match runs.flatMap (·.minus (.between a b)) with
    | [] => ⟨s.files.remove p⟩
    | runs => ⟨s.files.put p runs⟩

/-- The files in order of their paths. -/
def sorted (s : RegionSet) : Table Path (List LineRange) :=
  s.files.mergeSort fun a b => !b.1.before a.1

/-- The regions, by path and line. -/
def regions (s : RegionSet) : List Region :=
  s.sorted.flatMap fun (p, runs) => runs.map fun r => ⟨p, r⟩

def isComplete (s : RegionSet) : Bool :=
  s.files.isEmpty

def count (s : RegionSet) : Nat :=
  (s.files.flatMap fun (_, runs) => runs).length

def summary (s : RegionSet) : String :=
  s!"ChangesSet({s.count} regions in {s.files.length} files)"

end RegionSet

end Excerpt
