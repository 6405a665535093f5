import Excerpt.Citation.Call
import Excerpt.File.Folder

/-!
# Tags of a project

A project can add tags of its own to its documents. They are defined by a file that lies in the directory of
a document or above it, within the repository; the nearest one counts.
-/

namespace Excerpt

/-- What a tag writes. -/
inductive TagAction where
  /-- Its argument in capitals, and a text after it. -/
  | capitals (tail : String)
  /-- A text, and its argument after it. -/
  | lead (head : String)
  /-- The function of a file that its argument names. -/
  | function (path : String)
  /-- The use of a macro in a file whose argument under a key is its own argument. -/
  | macroUse (path name key : String)
  /-- The uses of a macro in a file whose arguments under a key are given, with blank lines between. -/
  | macroUses (path name key : String) (values : List String)
deriving Repr, DecidableEq

/-- A tag. -/
structure Tag where
  signature : Signature
  action : TagAction

/-- What the file of a project says about tags. -/
inductive TagFile where
  /-- It defines none. -/
  | noSetup
  /-- It cannot be loaded. -/
  | broken (cause : String)
  /-- It defines tags and filters to capitals, and may fail after that. -/
  | setup (tags : Table String Tag) (filters : List String) (cause : Option String)

namespace TagFile

def name : String := ".projected-source.py"

/-- The directories from one up to the root; `parts` are those of the path. -/
def ancestorsOf : List String → List Path
  | [] => [⟨[]⟩]
  | part :: parts => (ancestorsOf parts).map (fun p => ⟨part :: p.parts⟩) ++ [⟨[]⟩]

/-- The directories from an absolute one up to the root. -/
def ancestors (p : Path) : List Path :=
  (ancestorsOf p.parts).filter (!·.parts.isEmpty)

/-- The file of a project for a document in the directory `start`. The search goes up as long as the directory
does not come before the repository. -/
def locate (f : Folder) (repo start : Path) : Option Path :=
  let directories := (ancestors (start.resolve f.cwd)).takeWhile fun d => !d.before repo
  (directories.map (·.child name)).find? f.exists

end TagFile

end Excerpt
