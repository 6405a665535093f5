import Excerpt.Diff.LineMap
import Excerpt.Git.Blame
import Excerpt.Git.Site

/-!
# References to code

A reference names a file of a repository and lines of it, with a link to the page of the file if the
repository is published. Links speak of the last commit, so lines of a file with changes are counted as
they stood there. What git answers once about the site and about a file is not asked again.
-/

namespace Excerpt

/-- A repository, and what has been learnt about it. -/
structure Hub where
  repo : Path
  cwd : Path
  site : Option Site
  diffs : Table Path String

namespace Hub

/-- A repository about which nothing is known yet. -/
def start (repo cwd : Path) : Hub :=
  ⟨repo, cwd, none, []⟩

/-- A path as seen from the repository; a relative one is taken to be so already. -/
def relative? (repo p : Path) : Option Path :=
  if p.isAbsolute then p.relativeTo? repo else some p

/-- Whether a file has changes since the last commit. A file that git cannot compare counts as changed, one
that git cannot be asked about does not. -/
def isDirty (g : Git) (h : Hub) (p : Path) : Bool :=
  match relative? h.repo p with
  | none => false
  | some r =>
    match g.changes r.toString with
    | .ok diff => !diff.isEmpty
    | .error .noProgram => false
    | .error (.refused _) => true

def askSite (g : Git) : StateM Hub Site := do
  match (← get).site with
  | some s => return s
  | none =>
    let s := Site.ofGit g
    modify fun h => { h with site := some s }
    return s

/-- The changes of a file since the last commit; none if git does not answer. -/
def askDiff (g : Git) (p : Path) : StateM Hub String := do
  let h ← get
  let key := p.resolve h.cwd
  match h.diffs.get? key with
  | some diff => return diff
  | none =>
    match (relative? h.repo p).map fun r => g.changes r.toString with
    | some (.ok diff) =>
      set { h with diffs := h.diffs.put key diff }
      return diff
    | _ => return ""

/-- The line of the last commit that a line of a file stands for. -/
def committedLine (g : Git) (p : Path) (line : Int) : StateM Hub Int := do
  if isDirty g (← get) p then
    let diff ← askDiff g p
    return if diff.isEmpty then line else LineMap.oldLine diff line
  else return line

/-- The text of a reference to a file and perhaps to a line, or to lines up to a second one. -/
def label (file : String) (first last : Option Int) : String :=
  match first with
  | none => file
  | some a =>
    match last with
    | some b => s!"{file}:{a}-{b}"
    | none => s!"{file}:{a}"

/-- The second line of a reference, if it is a line other than the first one. -/
def secondLine (first : Int) (last : Option Int) : Option Int :=
  last.filter fun b => b != 0 && b != first

/-- A reference without a link. -/
def plain (file : String) (first last : Option Int) : String :=
  let shown := label file first (first.bind fun a => secondLine a last)
  s!"📍 `{shown}`"

/-- The part of a link that speaks of lines. -/
def anchor : Option Int → Option Int → String
  | none, _ => ""
  | some a, none => s!"#L{a}"
  | some a, some b => s!"#L{a}-L{b}"

/-- A reference to lines `first` to `last` with a link to the lines `oldFirst` to `oldLast` of the page. The
lines of the link are shown too, if `showOld` says so or the first line is the same. -/
def linked (file page : String) (showOld : Bool) (first last oldFirst oldLast : Option Int) : String :=
  let second := oldFirst.bind fun a => secondLine a oldLast
  let old := showOld || oldFirst == first
  let shownFirst := if old then oldFirst else first
  let shownLast := if old then oldLast else last
  let shown := label file shownFirst (if second.isSome then shownLast else none)
  s!"📍 [`{shown}`]({page}/{file}{anchor oldFirst second})"

/-- The line of the last commit for a line that may be missing. -/
def committedLine? (g : Git) (p : Path) : Option Int → StateM Hub (Option Int)
  | none => return none
  | some line => return some (← committedLine g p line)

/-- A reference to a file, a line of it, or lines of it. -/
def reference (g : Git) (p : Path) (first last : Option Int) (showOld : Bool) : StateM Hub String := do
  let file := ((relative? (← get).repo p).getD p).toString
  match (← askSite g).blob? with
  | none => return plain file first last
  | some page =>
    let oldFirst ← committedLine? g p first
    let oldLast ← committedLine? g p (if first.isSome then last else none)
    return linked file page showOld first last oldFirst oldLast

/-- Who last changed some lines of a file. -/
def blame (g : Git) (p : Path) (first last : Int) : Table Int Blame :=
  match g.blame p.toString first last with
  | .ok report => Blame.ofReport report
  | .error _ => []

/-- Code whose first line has number `first`, with who last changed each line. -/
def blamed (g : Git) (p : Path) (code : String) (first : Int) : String :=
  let lines := Text.lines code
  Text.join "\n" (Blame.decorated (blame g p first (first + lines.length - 1)) first lines)

end Hub

end Excerpt
