import Excerpt.Command.Run

/-!
# The command line

Files are read from the disk before a command runs and written back after it. Only the working directory and
the places that the command line names are looked at. No other program is started, so nothing is known of
the history of the files, and tag files are not run.
-/

namespace Excerpt.Shell

partial def filesBelow (place : String) : IO (Table Path Bytes) := do
  let real ← IO.FS.realPath place
  if ← real.isDir then
    let mut files := []
    for entry in ← real.readDir do
      if entry.fileName != ".git" then
        files := files ++ (← filesBelow entry.path.toString)
    return files
  else if ← real.pathExists then
    return [(.ofString real.toString, (← IO.FS.readBinFile real).toList)]
  else return []

/-- Adds the files of further places. -/
def filesOf (files : Table Path Bytes) : List String → IO (Table Path Bytes)
  | [] => return files
  | place :: places => do
    let more ← try filesBelow place catch _ => pure []
    filesOf (more.foldl (fun files (p, content) => Table.put files p content) files) places

/-- Writes the files that are new or changed, and the directories they lie in. -/
def writeBack (before after : Folder) : IO Unit := do
  for (p, content) in after.files do
    if before.files.get? p != some content then
      IO.FS.createDirAll p.parent.toString
      IO.FS.writeBinFile p.toString ⟨content.toArray⟩

/-- The shell in a directory, before a command. -/
def start (cwd : String) (words : List String) (input : String) : IO Shell := do
  let files ← filesOf [] (cwd :: words)
  return {
    folder := ⟨files, [], .ofString cwd⟩
    git := .absent
    input := input
    readTags := fun _ => .noSetup
    program := .ofString cwd
    checkout := (Path.ofString cwd).child ".checkout"
    time := ""
    collector := none
    output := "" }

end Excerpt.Shell

/-- Runs the command that the words make, and ends with its exit code. -/
def main (words : List String) : IO UInt32 := do
  let cwd ← IO.currentDir
  let input ← if words.contains "-" then (← IO.getStdin).readToEnd else pure ""
  let shell ← Excerpt.Shell.start cwd.toString words input
  let outcome := shell.run words
  Excerpt.Shell.writeBack shell.folder outcome.shell.folder
  IO.print outcome.shell.output
  match outcome.stopped with
  | some stop => IO.eprintln stop.message
  | none => pure ()
  return outcome.code.toUInt32
