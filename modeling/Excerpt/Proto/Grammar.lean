import Excerpt.File.Folder

/-!
# The grammar of the message language

The grammar of the message language is a file of its own. It is needed before any message can be read.
-/

namespace Excerpt.Proto

/-- The content of the grammar file. -/
def grammar (f : Folder) (p : Path) : Except Failure Bytes :=
  if f.exists p then f.read p else .error (.noGrammar p.toString)

end Excerpt.Proto
