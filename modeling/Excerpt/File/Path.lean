import Excerpt.Text.Lower
import Excerpt.Text.Split

/-!
# Paths

A path is a list of parts; the first part of an absolute path is the slash. Single dots and empty parts
are dropped when a path is read, double dots are kept. Paths are ordered by their parts.
-/

namespace Excerpt

/-- A path by its parts. -/
structure Path where
  parts : List String
deriving Repr, DecidableEq, BEq, Inhabited

namespace Path

/-- The part that makes a path absolute. -/
def slash : String := "/"

/-- The path that a text spells. -/
def ofString (s : String) : Path :=
  let names := (Text.split slash s).filter fun p => !(p.isEmpty || p == ".")
  ⟨if Text.startsWith s slash then slash :: names else names⟩

/-- Whether the path starts at the root. -/
def isAbsolute (p : Path) : Bool :=
  p.parts.head? == some slash

/-- The parts below the root. -/
def names (p : Path) : List String :=
  if p.isAbsolute then p.parts.drop 1 else p.parts

/-- The text of a path; the empty path is a dot. -/
def toString (p : Path) : String :=
  if p.isAbsolute then slash ++ Text.join slash p.names
  else if p.parts.isEmpty then "."
  else Text.join slash p.parts

instance : ToString Path := ⟨toString⟩

/-- The path `q` as seen from `p`: an absolute path is seen as itself. -/
def join (p q : Path) : Path :=
  if q.isAbsolute then q else ⟨p.parts ++ q.parts⟩

/-- The path of a name below `p`. -/
def child (p : Path) (name : String) : Path :=
  p.join (ofString name)

/-- The path one part up; the root and the empty path stay. -/
def parent (p : Path) : Path :=
  if p.parts.length ≤ 1 && p.isAbsolute then p else ⟨p.parts.dropLast⟩

/-- The last part below the root. -/
def name (p : Path) : String :=
  p.names.getLastD ""

/-- The place of the last dot in a name, if it is neither its first nor its last character. -/
def innerDot? (cs : List Char) : Option Nat :=
  let after := (cs.reverse.takeWhile (· != '.')).length
  if 0 < after && after + 1 < cs.length then some (cs.length - after - 1) else none

/-- The end of the name from its last inner dot on. -/
def suffix (p : Path) : String :=
  match innerDot? p.name.toList with
  | some i => Text.drop i p.name
  | none => ""

/-- The name without its suffix. -/
def stem (p : Path) : String :=
  match innerDot? p.name.toList with
  | some i => Text.take i p.name
  | none => p.name

/-- The suffix in small letters. -/
def kind (p : Path) : String :=
  Text.lower p.suffix

def withoutSuffix (p : Path) : Path :=
  ⟨p.parts.dropLast ++ [p.stem]⟩

/-- Whether the order of parts puts `p` before `q`. -/
def before (p q : Path) : Bool :=
  go p.parts q.parts
where
  /-- Lexicographic order; a list comes before its extensions. -/
  go : List String → List String → Bool
    | [], [] => false
    | [], _ :: _ => true
    | _ :: _, [] => false
    | a :: as, b :: bs => if a = b then go as bs else decide (a < b)

/-- The path from `root` to `p`, if `p` lies at or below `root`. -/
def relativeTo? (p root : Path) : Option Path :=
  if root.parts.isEmpty && p.isAbsolute then none
  else if root.parts.isPrefixOf p.parts then some ⟨p.parts.drop root.parts.length⟩
  else none

/-- Takes double dots out, from the root on. -/
def collapse (done : List String) : List String → List String
  | [] => done.reverse
  | name :: names => if name == ".." then collapse (done.drop 1) names else collapse (name :: done) names

/-- The absolute path without double dots, seen from the directory `cwd`. -/
def resolve (p cwd : Path) : Path :=
  ⟨slash :: collapse [] (cwd.join p).names⟩

end Path

end Excerpt
