import Excerpt.Passage

/-!
# Demonstrations

A demonstration looks for things in a sample source and writes what it finds.
-/

namespace Excerpt

/-- What a demonstration writes. One whose last step fails is not finished. -/
structure Demo where
  output : String
  finished : Bool
deriving Repr, DecidableEq

namespace Demo

/-- A text of whole lines. -/
def paragraph (lines : List String) : String :=
  String.join (lines.map (· ++ "\n"))

def source (lines : List String) : Bytes :=
  Bytes.ofString (Text.join "\n" lines)

def tree (src : Bytes) : Except Failure Node :=
  (Node.parse src).mapError .noTree

end Demo

end Excerpt
