/-!
# Lines

A text is cut into lines at line feeds, carriage returns, the two together, and the other characters that
end a line in Unicode. The last line needs no end, so a text that stops right after a line end has no
empty line behind it.
-/

namespace Excerpt.Text

/-- Whether `c` ends a line. -/
def isLineEnd (c : Char) : Bool :=
  let n := c.toNat
  (10 ≤ n && n ≤ 13) || (28 ≤ n && n ≤ 30) || n == 0x85 || n == 0x2028 || n == 0x2029

def linesOf : List Char → List (List Char)
  | [] => []
  | '\r' :: '\n' :: cs => [] :: linesOf cs
  | c :: cs =>
    if isLineEnd c then [] :: linesOf cs
    else
      match linesOf cs with
      | [] => [[c]]
      | line :: lines => (c :: line) :: lines

/-- The lines of a text, without their ends. -/
def lines (s : String) : List String :=
  (linesOf s.toList).map String.ofList

/-- Line ends as a text file is read: a carriage return, alone or before a line feed, is a line feed. -/
def unifyEndsOf : List Char → List Char
  | [] => []
  | '\r' :: '\n' :: cs => '\n' :: unifyEndsOf cs
  | c :: cs => (if c == '\r' then '\n' else c) :: unifyEndsOf cs

/-- The text with every line end that holds a carriage return turned into a line feed. -/
def unifyEnds (s : String) : String :=
  String.ofList (unifyEndsOf s.toList)

end Excerpt.Text
