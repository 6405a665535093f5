import Excerpt.Command.Shell

/-!
# Rendering documents

A template, a directory of templates, or the text on standard input is rendered, against the files as they
are or against those of a commit. Afterwards it can be checked that the documents show all changes.
-/

namespace Excerpt.Shell

/-- What to render, and how. -/
structure RenderOptions where
  input : Path
  output : Option Path
  repo : Path
  /-- Whether files that code cannot be taken from are collected. -/
  collect : Bool
  remap : Bool
  /-- What changes are counted from, if they are to be shown. -/
  validate : Option String
  strict : Bool
  commit : Option String

/-- Where a rendered text goes. -/
inductive Target where
  | console
  | file (p : Path)
  | directory (p : Path)
deriving Repr, DecidableEq

/-- The path that stands for standard input and output. -/
def dash : Path := .ofString "-"

/-- Where the rendered text goes. A document goes beside its template, without the suffix of templates. -/
def target (o : RenderOptions) (isDirectory : Bool) : Task Target :=
  match o.output with
  | none =>
    if o.input == dash then return .console
    else if isDirectory then return .directory o.input
    else if o.input.suffix == ".j2" then return .file o.input.withoutSuffix
    else giveUp "[red]✗ Input file must have .j2 extension for in-place rendering[/red]"
  | some p =>
    if p == dash then
      if isDirectory then giveUp "[red]✗ Cannot output directory to stdout[/red]" else return .console
    else return if isDirectory then .directory p else .file p

def renderInput (session : Session) (target : Target) : Task Session := do
  let s ← get
  let work : Session.Work RenderError String := do
    let text ← Template.render [] s.input
    if let .file p := target then Template.save p text
    return text
  match ← attempt session work with
  | (.error e, _) => throw (.failed e)
  | (.ok text, session) =>
    match target with
    | .file p => say s!"[green]✓[/green] stdin → {p}"
    | _ => echo text
    return session

def renderTemplate (session : Session) (input : Path) (target : Target) : Task Session := do
  let work : Session.Work RenderError String := do
    let text ← Template.renderNamed input.parent input.name []
    if let .file p := target then Template.save p text
    return text
  match ← attempt session work with
  | (.error e, _) => giveUp s!"[red]✗ Failed to render {input}:[/red] {e.message}"
  | (.ok text, session) =>
    match target with
    | .file p => say s!"[green]✓[/green] {input} → {p}"
    | _ => echo text
    return session

/-- What lies directly in a directory, by name. -/
def entriesIn (f : Folder) (d : Path) : List String :=
  let names := (f.files.keys ++ f.made).filterMap fun p =>
    if d.parts.isPrefixOf p.parts then p.parts[d.parts.length]? else none
  (names.foldl (fun (found : List String) n => if found.contains n then found else found ++ [n]) []).mergeSort
    (· ≤ ·)

/-- The templates in and below a directory, those of a directory before those below it; `depth` bounds how far
the search goes down. -/
def templatesBelow (f : Folder) (d : Path) : Nat → List Path
  | 0 => []
  | depth + 1 =>
    let entries := entriesIn f d
    let here := (entries.filter (Text.endsWith · ".j2")).map fun n => Path.mk (d.parts ++ [n])
    let below := entries.flatMap fun n =>
      let p : Path := ⟨d.parts ++ [n]⟩
      if f.hasDirectory p then templatesBelow f p depth else []
    here ++ below

/-- The templates below a directory, as seen from it. -/
def templates (f : Folder) (directory : Path) : List Path :=
  let d := directory.resolve f.cwd
  let depth := ((f.files.keys ++ f.made).map fun p => p.parts.length).foldl max 0
  (templatesBelow f d (depth + 1)).filterMap (·.relativeTo? d)

/-- The document of a template, as seen from the same directory. -/
def documentOf (template : Path) : Path :=
  if template.suffix == ".j2" then template.withoutSuffix else template

/-- Renders templates one after the other; one that fails does not keep the others. -/
def renderEach (input output : Path) (session : Session) (failed : List (Path × String)) :
    List Path → Task (Session × List (Path × String))
  | [] => return (session, failed)
  | template :: rest => do
    let document := documentOf template
    let work : Session.Work RenderError Unit := do
      let text ← Template.renderNamed input template.toString []
      Template.save (output.join document) text
    match ← attempt session work with
    | (.ok _, session) =>
      say s!"  [green]✓[/green] {template} → {document}"
      renderEach input output session failed rest
    | (.error e, session) =>
      say s!"  [red]✗[/red] {template}: {e.message}"
      renderEach input output session (failed ++ [(template, e.message)]) rest

def sayFailed : List (Path × String) → Task Unit
  | [] => return ()
  | (template, cause) :: rest => do
    say s!"    • {template}: {cause}"
    sayFailed rest

def renderDirectory (session : Session) (input output : Path) : Task Session := do
  match templates (← get).folder input with
  | [] =>
    say s!"[yellow]No .j2 templates found in {input}[/yellow]"
    return session
  | found =>
    say s!"[bold]Processing {found.length} templates from {input}[/bold]"
    let (session, failed) ← renderEach input output session [] found
    say "\n[bold]Summary:[/bold]"
    say s!"  [green]{found.length - failed.length} templates rendered successfully[/green]"
    if failed.isEmpty then return session
    else
      say s!"  [red]{failed.length} templates failed:[/red]"
      sayFailed failed
      throw (.exit 1)

/-- The regions that documents have to show, if that is to be checked. -/
def changes (o : RenderOptions) (repo : Path) : Task (Option RegionSet) := do
  match o.validate.filter (!·.isEmpty) with
  | none => return none
  | some base =>
    let g := (← get).git
    let given := if base == "auto" then none else some base
    match RegionSet.ofGit g given repo with
    | .error (.noComparison complaint) =>
      giveUp s!"[red]✗ Failed to get diff: {(Failure.noComparison complaint).message}[/red]"
    | .error e => throw (.failed (.failed e))
    | .ok regions =>
      let shown ←
        if Text.contains base ".." && given.isSome then pure base
        else
          match given with
          | some base => pure (Text.take 12 base ++ "..HEAD")
          | none =>
            match RegionSet.detectBase g with
            | .ok base => pure (Text.take 12 base ++ "..HEAD")
            | .error e => throw (.failed (.failed e))
      say s!"[cyan]Validating changes: {shown}[/cyan]"
      return some regions

/-- Renders against the files of `repo`, and gives the regions that are left. -/
def renderAgainst (o : RenderOptions) (target : Target) (repo : Path) :
    Task (Option RegionSet) := do
  let regions ← changes o repo
  let session ← session repo o.remap regions
  let done ←
    if o.input == dash then renderInput session target
    else
      match target with
      | .directory p => renderDirectory session o.input p
      | target => renderTemplate session o.input target
  return done.regions

/-- Takes a directory and all below it away. -/
def discard (d : Path) : Task Unit :=
  modify fun s => { s with folder := s.folder.discard d }

/-- Does work with the files of a commit in a directory of their own, which is taken away afterwards. -/
def withCommit {α : Type} (commit : String) (work : Path → Task α) : Task α := do
  let s ← get
  match s.git.filesAt commit with
  | .error .noProgram => throw (.failed (.failed (.missingFile "git")))
  | .error (.refused complaint) => throw (.noCheckout complaint)
  | .ok files =>
    let placed := files.foldl (fun t (name, content) => Table.put t (s.checkout.child name) content)
      s.folder.files
    set { s with folder := { s.folder with files := placed, made := s.folder.made ++ [s.checkout] } }
    tryFinally (do say s!"[cyan]Using commit: {commit}[/cyan]"; work s.checkout) (discard s.checkout)

/-- The line at a place; places below zero count from the end. -/
def lineAt (lines : List String) (place : Int) : Except Failure String :=
  let i := if place < 0 then lines.length + place else place
  match if i < 0 then none else lines[i.toNat]? with
  | some line => .ok line
  | none => .error .noSuchPlace

/-- Shows `count` lines from a place on. -/
def sayLines (lines : List String) (place : Int) : Nat → Task (Except Failure Unit)
  | 0 => return .ok ()
  | count + 1 => do
    match lineAt lines place with
    | .error e => return .error e
    | .ok line =>
      let number := Text.padNumber 4 (place + 1)
      say s!"  [dim]{number}[/dim] {line}"
      sayLines lines (place + 1) count

/-- Shows regions of a file. -/
def sayRegions (lines : List String) : List LineRange → Task (Except Failure Unit)
  | [] => return .ok ()
  | r :: rs => do
    say s!"[dim]{r.first}-{r.last}:[/dim]"
    let count := (min r.last lines.length - (r.first - 1)).toNat
    match ← sayLines lines (r.first - 1) count with
    | .error e => return .error e
    | .ok _ => sayRegions lines rs

/-- Says why a file cannot be shown. -/
def sayUnshown (cause : String) : Task Unit :=
  say s!"  [red]Could not read file: {cause}[/red]"

/-- Shows the regions that are left of each file. -/
def sayLeft (repo : Path) : Table Path (List LineRange) → Task Unit
  | [] => return ()
  | (p, runs) :: rest => do
    let file := (p.relativeTo? repo).getD p
    say s!"\n[cyan]━━━ {file} ━━━[/cyan]"
    match (Source.ofFolder (← get).folder p).lines with
    | .error e => sayUnshown e.message
    | .ok lines =>
      let shown ← tryCatch (sayRegions lines runs) fun
        | .markup e => do
          sayUnshown e
          return .ok ()
        | e => throw e
      match shown with
      | .ok _ => pure ()
      | .error e => sayUnshown e.message
    sayLeft repo rest

/-- Says what documents do not show. -/
def report (o : RenderOptions) (regions : RegionSet) : Task Unit := do
  if regions.isComplete then say "[green]✓ All changes documented[/green]"
  else
    say s!"\n[yellow]⚠ {regions.count} uncovered regions:[/yellow]"
    sayLeft o.repo regions.sorted
    if o.strict then giveUp "\n[red]✗ Validation failed (--strict mode)[/red]"

/-- Says what has been collected. -/
def reportCollected : Task Unit := do
  let s ← get
  match s.collector with
  | none => return ()
  | some c =>
    match c.writeManifest s.folder s.time with
    | .error e => throw (.failed (.failed e))
    | .ok (_, none) => say "[green]No errors to collect[/green]"
    | .ok (folder, some p) =>
      set { s with folder := folder }
      say (s!"\n[yellow]Collected {c.mishaps.length} errors " ++
        s!"({c.copied.length} files) → {p}[/yellow]")

/-- Starts to collect files that code cannot be taken from. -/
def startCollecting : Task Unit := do
  let directory := ((((← get).program.child "tests").child "fixtures").child "collected")
  modify fun s => { s with collector := some (.start directory) }
  say s!"[yellow]Fixture collection enabled → {directory}[/yellow]"

def render (o : RenderOptions) : Task Unit := do
  if o.collect then startCollecting
  let isDirectory := o.input != dash && (← get).folder.isDirectory o.input
  let target ← target o isDirectory
  let left ←
    match o.commit.filter (!·.isEmpty) with
    | some commit => withCommit commit (renderAgainst o target)
    | none => renderAgainst o target o.repo
  if let some regions := left then report o regions
  reportCollected

end Excerpt.Shell
