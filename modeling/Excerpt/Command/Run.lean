import Excerpt.Command.Guide
import Excerpt.Command.Listing
import Excerpt.Command.Options

/-!
# Running commands

A run of a command line ends with an exit code: zero if all went well, one for failure, two if the command
line makes no command.
-/

namespace Excerpt.Shell

/-- How a run ended, and what it left behind. -/
structure Outcome where
  code : Nat
  shell : Shell
  /-- What stopped the run, if it did not end by itself. -/
  stopped : Option Stop

/-- Does what a command says. -/
def perform : Command → Task Unit
  | .render o => render o
  | .findMarkers o => findMarkers o
  | .listFunctions => sayRows Listing.functions.lines
  | .guide => echo guide
where
  /-- Writes lines as they are. -/
  sayRows : List String → Task Unit
    | [] => return ()
    | line :: lines => do
      echo line
      sayRows lines

/-- Runs a command line. -/
def run (s : Shell) (words : List String) : Outcome :=
  match Command.ofWords s.folder.cwd words with
  | .error e => ⟨2, { s with output := s.output ++ "Error: " ++ e ++ "\n" }, some (.usage e)⟩
  | .ok command =>
    match ((perform command).run).run s with
    | (.ok _, s) => ⟨0, s, none⟩
    | (.error (.exit code), s) => ⟨code, s, none⟩
    | (.error e, s) => ⟨1, s, some e⟩

end Excerpt.Shell
