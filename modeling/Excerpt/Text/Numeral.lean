import Excerpt.Text.Blank

/-!
# Whole numbers

A whole number is written with decimal digits of any script, an optional sign, and single underscores
between digits; blanks around it do not count.
-/

namespace Excerpt.Text

/-- The zeros of the scripts; the other digits of a script follow its zero. -/
def zeros : List Nat := [
  0x30, 0x660, 0x6F0, 0x7C0, 0x966, 0x9E6, 0xA66, 0xAE6, 0xB66, 0xBE6, 0xC66, 0xCE6, 0xD66, 0xDE6, 0xE50,
  0xED0, 0xF20, 0x1040, 0x1090, 0x17E0, 0x1810, 0x1946, 0x19D0, 0x1A80, 0x1A90, 0x1B50, 0x1BB0, 0x1C40,
  0x1C50, 0xA620, 0xA8D0, 0xA900, 0xA9D0, 0xA9F0, 0xAA50, 0xABF0, 0xFF10, 0x104A0, 0x10D30, 0x11066,
  0x110F0, 0x11136, 0x111D0, 0x112F0, 0x11450, 0x114D0, 0x11650, 0x116C0, 0x11730, 0x118E0, 0x11950,
  0x11C50, 0x11D50, 0x11DA0, 0x16A60, 0x16AC0, 0x16B50, 0x1D7CE, 0x1D7D8, 0x1D7E2, 0x1D7EC, 0x1D7F6,
  0x1E140, 0x1E2F0, 0x1E950, 0x1FBF0]

/-- The value of a decimal digit. -/
def digit? (c : Char) : Option Nat :=
  (zeros.find? fun z => z ≤ c.toNat && c.toNat ≤ z + 9).map (c.toNat - ·)

/-- Whether `c` is a decimal digit. -/
def isDigit (c : Char) : Bool :=
  (digit? c).isSome

/-- Reads on after a digit; `value` is the number read so far. -/
def numeralFrom (value : Nat) : List Char → Option Nat
  | [] => some value
  | '_' :: c :: cs =>
    match digit? c with
    | some d => numeralFrom (value * 10 + d) cs
    | none => none
  | c :: cs =>
    match digit? c with
    | some d => numeralFrom (value * 10 + d) cs
    | none => none

/-- The value of digits with single underscores between them. -/
def numeral? : List Char → Option Nat
  | [] => none
  | c :: cs => (digit? c).bind (numeralFrom · cs)

/-- The whole number that a text spells. -/
def int? (s : String) : Option Int :=
  match trimBy isBlank s.toList with
  | '-' :: cs => (numeral? cs).map fun n => -(n : Int)
  | '+' :: cs => (numeral? cs).map fun n => (n : Int)
  | cs => (numeral? cs).map fun n => (n : Int)

def digitsValue (cs : List Char) : Nat :=
  cs.foldl (fun n c => n * 10 + (digit? c).getD 0) 0

/-- A whole number, right-aligned in `width` columns. -/
def padNumber (width : Nat) (n : Int) : String :=
  let s := toString n
  String.ofList (List.replicate (width - s.length) ' ') ++ s

/-- A text, left-aligned in `width` columns. -/
def padText (width : Nat) (s : String) : String :=
  s ++ String.ofList (List.replicate (width - s.length) ' ')

end Excerpt.Text
