import Excerpt.Command.Render
import Excerpt.Proofs.Command.FindMarkers

/-!
# What a report shows of uncovered regions

For each file with lines that no document shows, a report says the path of the file and, region by region,
every line of the region that the file has, with its number. The lines are read from the files as they are
when the report is made. After work with the files of a commit, the directory with these files is gone, so
that none of their lines is shown.
-/

namespace Excerpt

open List Excerpt.Path Source

namespace Folder

variable {f : Folder} {d p : Path} {names : List String}

end Folder

namespace Shell

variable {s t : Shell} {o : RenderOptions} {repo p : Path} {lines : List String} {runs : List LineRange}
  {α : Type}

/-- What is said of lines, the first of which has a number. -/
def numbered (number : Int) : List String → List String
  | [] => []
  | line :: lines => s!"  [dim]{Text.padNumber 4 number}[/dim] {line}" :: numbered (number + 1) lines

def heading (repo p : Path) : String :=
  s!"\n[cyan]━━━ {(p.relativeTo? repo).getD p} ━━━[/cyan]"

/-- The region is one of lines that a file can have. -/
def Proper (r : LineRange) : Prop :=
  1 ≤ r.first ∧ r.first ≤ r.last

theorem run_tryCatch {m : Task α} {a : α} (h : m.run.run s = (.ok a, t))
    (handle : Stop → Task α) : (tryCatch m handle).run.run s = (.ok a, t) := by
  rw [ExceptT.run_tryCatch, StateT.run_bind, h]
  rfl

end Shell

end Excerpt
