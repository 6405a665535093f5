import Excerpt.Command.Shell

/-!
# Markers in changed files

The directives that stand on lines of their own in the changed files of a repository are listed, and can be
taken out.
-/

namespace Excerpt.Shell

/-- What to look for. -/
structure MarkerOptions where
  since : String
  remove : Bool
  repo : Path

/-- A directive on a line of its own. -/
structure MarkerLine where
  number : Nat
  isStart : Bool
  name : String
deriving Repr, DecidableEq

namespace MarkerLine

def ofLine? (number : Nat) (line : String) : Option MarkerLine :=
  match Proto.directiveName? Directive.opening line with
  | some name => some ⟨number, true, name⟩
  | none => (Proto.directiveName? Directive.closing line).map fun name => ⟨number, false, name⟩

/-- The directives among lines, the first of which has number `number`. -/
def among (number : Nat) : List String → List MarkerLine
  | [] => []
  | line :: lines => (ofLine? number line).toList ++ among (number + 1) lines

/-- The lines without those that have one of the numbers; the first line has number `number`. -/
def without (numbers : List Nat) (number : Nat) : List String → List String
  | [] => []
  | line :: lines =>
    if numbers.contains number then without numbers (number + 1) lines
    else line :: without numbers (number + 1) lines

/-- A directive as it is listed. -/
def shown (m : MarkerLine) : String :=
  let word := if m.isStart then Directive.opening else Directive.closing
  let number := Text.padNumber 4 m.number
  s!"  {number}: {word} {m.name}"

end MarkerLine

/-- The suffixes of files that are looked at. -/
def markedSuffixes : List String :=
  [".h", ".hpp", ".cpp", ".cc", ".cxx", ".c", ".hxx", ".ipp"]

/-- The files to look at among those that git names. -/
def markedFiles (repo : Path) (names : String) : List Path :=
  (((Text.split "\n" (Text.trim names)).filter (!·.isEmpty)).map Path.ofString).filterMap fun p =>
    if markedSuffixes.contains p.kind then some (repo.join p) else none

/-- The lines of a file as a text. -/
def linesAt (f : Folder) (p : Path) : Except Failure (List String) :=
  (Source.ofFolder f p).lines

/-- The directives of files, and files that cannot be read with the reason. Files that are gone are passed over. -/
def scanFiles (f : Folder) : List Path → List (Path × Except Failure (List MarkerLine))
  | [] => []
  | p :: ps =>
    if f.exists p then (p, (linesAt f p).map (MarkerLine.among 1)) :: scanFiles f ps
    else scanFiles f ps

/-- The directives by file, in the order in which files came in. -/
def grouped (found : Table Path (List MarkerLine)) :
    List (Path × Except Failure (List MarkerLine)) → Table Path (List MarkerLine)
  | [] => found
  | (p, .ok (m :: ms)) :: rest => grouped (found.put p ((found.get? p).getD [] ++ (m :: ms))) rest
  | _ :: rest => grouped found rest

/-- The files that cannot be read are named. -/
def sayUnreadable : List (Path × Except Failure (List MarkerLine)) → Task Unit
  | [] => return ()
  | (p, .error e) :: rest => do
    say s!"[red]Could not read {p}: {e.message}[/red]"
    sayUnreadable rest
  | _ :: rest => sayUnreadable rest

/-- A path as seen from the repository, if it lies there. -/
def shownPath (repo p : Path) : String :=
  ((p.relativeTo? repo).getD p).toString

def sayAll : List String → Task Unit
  | [] => return ()
  | line :: lines => do
    say line
    sayAll lines

/-- Lists the directives of files. -/
def listMarkers (repo : Path) : Table Path (List MarkerLine) → Task Unit
  | [] => return ()
  | (p, ms) :: rest => do
    say s!"[cyan]{shownPath repo p}:[/cyan]"
    sayAll (ms.map MarkerLine.shown)
    say ""
    listMarkers repo rest

/-- The text of a file without the lines that have one of the numbers, and how many lines that takes away. -/
def withoutMarkers (lines : List String) (ms : List MarkerLine) : String × Nat :=
  let rest := MarkerLine.without (ms.map (·.number)) 1 lines
  (Text.join "\n" rest ++ "\n", lines.length - rest.length)

/-- Takes directives out of a file. -/
def removeFrom (f : Folder) (p : Path) (ms : List MarkerLine) : Except Failure (Folder × Nat) := do
  let (text, count) := withoutMarkers (← linesAt f p) ms
  if count == 0 then return (f, 0)
  else return (← f.write p (Bytes.ofString text), count)

/-- Takes directives out of files, and says how many. -/
def removeMarkers (repo : Path) (total : Nat) : Table Path (List MarkerLine) → Task Nat
  | [] => return total
  | (p, ms) :: rest => do
    let s ← get
    match removeFrom s.folder p ms with
    | .ok (folder, count) =>
      set { s with folder := folder }
      if 0 < count then say s!"  [green]✓[/green] {shownPath repo p}: removed {count} marker(s)"
      removeMarkers repo (total + count) rest
    | .error e =>
      say s!"  [red]✗[/red] {p}: {e.message}"
      removeMarkers repo total rest

/-- Lists the directives in changed files, and takes them out if asked to. -/
def findMarkers (o : MarkerOptions) : Task Unit := do
  let s ← get
  match s.git.changedNames (RegionSet.rangeOf o.since) with
  | .error .noProgram => throw (.failed (.failed (.missingFile "git")))
  | .error (.refused complaint) => giveUp s!"[red]✗ git diff failed: {complaint}[/red]"
  | .ok names =>
    let files := markedFiles o.repo names
    if files.isEmpty then
      say s!"[yellow]No C/C++ files changed since {o.since}[/yellow]"
    else
      say s!"[cyan]Scanning {files.length} file(s) for markers...[/cyan]\n"
      let scanned := scanFiles s.folder files
      sayUnreadable scanned
      let found := grouped [] scanned
      let count := (found.flatMap fun (_, ms) => ms).length
      if count == 0 then say "[green]No markers found in changed files[/green]"
      else
        say s!"[bold]Found {count} marker(s):[/bold]\n"
        listMarkers o.repo (found.mergeSort fun a b => !b.1.before a.1)
        if o.remove then
          say "[bold]Removing markers...[/bold]\n"
          let total ← removeMarkers o.repo 0 found
          say s!"\n[bold green]Removed {total} marker(s) total[/bold green]"

end Excerpt.Shell
