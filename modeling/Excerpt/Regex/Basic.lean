import Excerpt.Text.Numeral
import Excerpt.Text.Word

/-!
# Regular expressions

A regular expression is matched at many places of a text at once: `reach` gives the places behind the matches
that start at given ones. Whether an expression occurs somewhere in a text is all that is asked of one, so the
order of the places does not matter, and each is kept once.
-/

namespace Excerpt

/-- A set of characters named by a letter after a backslash. -/
inductive CharSet where
  | word
  | digit
  | blank
deriving Repr, DecidableEq

namespace CharSet

/-- Whether `c` is in the set. -/
def has : CharSet → Char → Bool
  | word, c => Text.isWord c
  | digit, c => Text.isDigit c
  | blank, c => Text.isBlank c

end CharSet

/-- A member of a bracketed class. -/
inductive ClassItem where
  | range (lo hi : Char)
  | set (s : CharSet) (negated : Bool)
deriving Repr, DecidableEq

namespace ClassItem

/-- Whether `c` belongs to the member. -/
def has : ClassItem → Char → Bool
  | range lo hi, c => lo.toNat ≤ c.toNat && c.toNat ≤ hi.toNat
  | set s negated, c => s.has c != negated

end ClassItem

/-- A regular expression. -/
inductive Regex where
  /-- Matches without taking a character. -/
  | nothing
  /-- Any character but a line feed. -/
  | any
  | oneOf (items : List ClassItem) (negated : Bool)
  | textStart
  /-- The end of the text, or a line feed that ends it. -/
  | textEnd
  | seq (a b : Regex)
  | alt (a b : Regex)
  | many (a : Regex)
deriving Repr, DecidableEq

namespace Regex

/-- One given character. -/
def char (c : Char) : Regex :=
  oneOf [.range c c] false

/-- At least one match of `a`. -/
def some (a : Regex) : Regex :=
  seq a (many a)

/-- At most one match of `a`. -/
def optional (a : Regex) : Regex :=
  alt a nothing

/-- A place in a text: what stands behind it, and how many characters that are. -/
structure Place where
  left : Nat
  text : List Char
deriving Repr, DecidableEq

namespace Place

/-- The places of a text, its end last. -/
def all : List Char → List Place
  | [] => [⟨0, []⟩]
  | c :: cs => ⟨(c :: cs).length, c :: cs⟩ :: all cs

def isAmong (ps : List Place) (p : Place) : Bool :=
  ps.any (·.left == p.left)

def union (ps qs : List Place) : List Place :=
  ps ++ qs.filter (!isAmong ps ·)

/-- The place behind a character that `accepts` accepts. -/
def step? (accepts : Char → Bool) (p : Place) : Option Place :=
  match p.text with
  | [] => none
  | c :: cs => if accepts c then .some ⟨p.left - 1, cs⟩ else none

/-- The places seen and those that steps lead to; only the places of `front` have not been stepped from. Every
step but the last finds a new place, so `limit` is no less than the number of places. -/
def closure (step : List Place → List Place) : Nat → List Place → List Place → List Place
  | 0, _, seen => seen
  | limit + 1, front, seen =>
    match (step front).filter (!isAmong seen ·) with
    | [] => seen
    | new => closure step limit new (seen ++ new)

end Place

/-- The places behind matches that start at places of a text of `total` characters. -/
def reach (total : Nat) : Regex → List Place → List Place
  | nothing, ps => ps
  | any, ps => ps.filterMap (Place.step? (· != '\n'))
  | oneOf items negated, ps => ps.filterMap (Place.step? fun c => items.any (·.has c) != negated)
  | textStart, ps => ps.filter (·.left == total)
  | textEnd, ps => ps.filter fun p => p.text.isEmpty || p.text == ['\n']
  | seq a b, ps => reach total b (reach total a ps)
  | alt a b, ps => Place.union (reach total a ps) (reach total b ps)
  | many a, ps => Place.closure (reach total a) (total + 1) ps ps

/-- Whether the expression matches somewhere in the text. -/
def occursIn (r : Regex) (s : String) : Bool :=
  !(reach s.toList.length r (Place.all s.toList)).isEmpty

end Regex

end Excerpt
