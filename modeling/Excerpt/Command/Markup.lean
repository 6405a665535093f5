import Excerpt.Text.Blank
import Excerpt.Text.Split

/-!
# Marked-up lines

A line for the console can hold tags in square brackets, which say how the text between an opening and a
closing tag looks. Without colours they are left out. A closing tag has to close an open one.
-/

namespace Excerpt.Markup

/-- A part of a line: text, or a tag with the place where it stands. -/
inductive Part where
  | text (cs : List Char)
  | tag (place : Nat) (inside : List Char)
deriving Repr

/-- Whether `c` may start a tag. -/
def startsTag (c : Char) : Bool :=
  ('a' ≤ c && c ≤ 'z') || c == '#' || c == '/' || c == '@'

/-- What stands in the tag that starts behind a bracket. -/
def tag? (cs : List Char) : Option (List Char) :=
  let inside := cs.takeWhile fun c => c != '[' && c != ']'
  if cs.head?.any startsTag && (cs.drop inside.length).head? == some ']' then some inside else none

/-- The bracket that a backslash before a bracket stands for, and all else as it is. -/
def plainText : List Char → List Char
  | [] => []
  | '\\' :: '[' :: cs => '[' :: plainText cs
  | c :: cs => c :: plainText cs

/-- The parts of a line from place `i` on. `held` is the text before, `slashes` the number of backslashes right
before, and `skip` the number of characters that still belong to the last tag. -/
def parts (held : List Char) (slashes skip i : Nat) : List Char → List Part
  | [] => [.text (held ++ List.replicate slashes '\\')]
  | c :: cs =>
    match skip with
    | n + 1 => parts held slashes n (i + 1) cs
    | 0 =>
      if c == '\\' then parts held (slashes + 1) 0 (i + 1) cs
      else
        match if c == '[' then tag? cs else none with
        | none => parts (held ++ List.replicate slashes '\\' ++ [c]) 0 0 (i + 1) cs
        | some inside =>
          let before := held ++ List.replicate (slashes / 2) '\\'
          if slashes % 2 == 1 then
            .text before :: .text ('[' :: inside ++ [']']) ::
              parts [] 0 (inside.length + 1) (i + 1) cs
          else
            .text before :: .tag (i - slashes % 2) inside :: parts [] 0 (inside.length + 1) (i + 1) cs

/-- The name of a tag, as far as tags are told apart. -/
def nameOf (inside : List Char) : String :=
  String.ofList ((Text.trimBy Text.isBlank (inside.takeWhile (· != '='))).map Char.toLower)

/-- Takes the last open tag with a name away. -/
def close (name : String) : List String → Option (List String)
  | [] => none
  | t :: ts => if t == name then some ts else (close name ts).map (t :: ·)

/-- The text of parts; `opened` are the names of the open tags, the last one first. -/
def textOf (opened : List String) : List Part → Except String (List Char)
  | [] => .ok []
  | .text cs :: ps => do return plainText cs ++ (← textOf opened ps)
  | .tag place inside :: ps =>
    match inside with
    | '/' :: name =>
      if nameOf name == "" then
        match opened with
        | _ :: opened => textOf opened ps
        | [] => .error s!"closing tag '[/]' at position {place} has nothing to close"
      else
        match close (nameOf name) opened with
        | some opened => textOf opened ps
        | none =>
          let shown := String.ofList inside
          .error s!"closing tag '[{shown}]' at position {place} doesn't match any open tag"
    | inside => textOf (nameOf inside :: opened) ps

/-- Whether a character only moves the cursor or rings a bell. Such characters are left out. -/
def isControl (c : Char) : Bool :=
  ['\x07', '\x08', '\x0b', '\x0c', '\r'].contains c

/-- The characters that take two columns. -/
def wide : List (Nat × Nat) := [
  (0x1100,0x115f), (0x2e80,0x303e), (0x3041,0x33ff), (0x3400,0x4dbf), (0x4e00,0xa4cf),
  (0xa960,0xa97c), (0xac00,0xd7a3), (0xf900,0xfaff), (0xfe30,0xfe6f), (0xff01,0xff60),
  (0xffe0,0xffe6), (0x1f300,0x1f64f), (0x1f900,0x1f9ff), (0x20000,0x3fffd)]

/-- How many columns a character takes. -/
def columns (c : Char) : Nat :=
  if wide.any fun (lo, hi) => lo ≤ c.toNat && c.toNat ≤ hi then 2 else 1

/-- Puts blanks for tabs, up to the next column that eight divides; `column` is the column reached. -/
def expandTabs (column : Nat) : List Char → List Char
  | [] => []
  | c :: cs =>
    if c == '\t' then
      let n := 8 - column % 8
      List.replicate n ' ' ++ expandTabs (column + n) cs
    else if c == '\n' then c :: expandTabs 0 cs
    else c :: expandTabs (column + columns c) cs

/-- The text of a line without its tags, as a console shows it. -/
def plain (line : String) : Except String String := do
  let cs ← textOf [] (parts [] 0 0 0 line.toList)
  return String.ofList (expandTabs 0 (cs.filter (!isControl ·)))

end Excerpt.Markup
