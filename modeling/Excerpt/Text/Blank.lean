/-!
# Blanks

Blanks are the characters that Unicode counts as white space, and the four information separators.
Trimming takes them off the ends of a text, and words are what they leave between them.
-/

namespace Excerpt.Text

/-- Whether `c` is a blank. -/
def isBlank (c : Char) : Bool :=
  let n := c.toNat
  (9 ≤ n && n ≤ 13) || (28 ≤ n && n ≤ 32) || n == 0x85 || n == 0xA0 || n == 0x1680
    || (0x2000 ≤ n && n ≤ 0x200A) || n == 0x2028 || n == 0x2029 || n == 0x202F || n == 0x205F
    || n == 0x3000

/-- Without the characters at both ends that `p` holds of. -/
def trimBy (p : Char → Bool) (cs : List Char) : List Char :=
  ((cs.dropWhile p).reverse.dropWhile p).reverse

/-- Without the characters at the end that `p` holds of. -/
def trimEndBy (p : Char → Bool) (cs : List Char) : List Char :=
  (cs.reverse.dropWhile p).reverse

/-- Without the blanks at both ends. -/
def trim (s : String) : String :=
  String.ofList (trimBy isBlank s.toList)

/-- The runs of characters that are no blanks. -/
def wordsOf : List Char → List (List Char)
  | [] => []
  | c :: cs =>
    if isBlank c then wordsOf cs
    else
      match cs with
      | [] => [[c]]
      | d :: _ =>
        if isBlank d then [c] :: wordsOf cs
        else
          match wordsOf cs with
          | [] => [[c]]
          | w :: ws => (c :: w) :: ws

def words (s : String) : List String :=
  (wordsOf s.toList).map String.ofList

end Excerpt.Text
