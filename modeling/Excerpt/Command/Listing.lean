import Excerpt.Text.Numeral
import Excerpt.Text.Split

/-!
# Listings

A listing is a table of two columns in a frame, with a title above it and a heavier line below its heads.
-/

namespace Excerpt.Shell

/-- A table of two columns. -/
structure Listing where
  title : String
  heads : String × String
  rows : List (String × String)

namespace Listing

def width (column : String × String → String) (l : Listing) : Nat :=
  ((l.heads :: l.rows).map fun r => (column r).length).foldl max 0

/-- A character several times. -/
def repeated (n : Nat) (c : Char) : String :=
  String.ofList (List.replicate n c)

def rule (l : Listing) (left line cross right : Char) : String :=
  let part (n : Nat) : String := repeated (n + 2) line
  String.singleton left ++ part (l.width (·.1)) ++ String.singleton cross ++ part (l.width (·.2)) ++
    String.singleton right

def row (l : Listing) (bar : String) (r : String × String) : String :=
  bar ++ " " ++ Text.padText (l.width (·.1)) r.1 ++ " " ++ bar ++ " " ++ Text.padText (l.width (·.2)) r.2 ++
    " " ++ bar

/-- A text in the middle of `n` columns; an odd blank goes behind it. -/
def centred (n : Nat) (s : String) : String :=
  let left := (n - s.length) / 2
  repeated left ' ' ++ s ++ repeated (n - s.length - left) ' '

def lines (l : Listing) : List String :=
  let total := l.width (·.1) + l.width (·.2) + 7
  [centred total l.title, l.rule '┏' '━' '┳' '┓', l.row "┃" l.heads, l.rule '┡' '━' '╇' '┩'] ++
    l.rows.map (l.row "│") ++ [l.rule '└' '─' '┴' '┘']

/-- The ways to ask for code. -/
def functions : Listing where
  title := "Available Extraction Functions"
  heads := ("Function", "Description")
  rows := [
    ("code()", "Universal code extraction function"),
    ("  function=", "Extract a function by name"),
    ("  function_macro=", "Extract function defined by macro"),
    ("  macro_definition=", "Extract macro definition (#define)"),
    ("  marker=", "Extract between comment markers"),
    ("  lines=", "Extract specific line range")]

end Listing

end Excerpt.Shell
