import Excerpt.Text.Numeral

/-!
# Measured values in fixed places

A measured value is a binary fraction. It is written with a given number of decimal places, rounded from the
exact fraction, and a value halfway between two neighbours goes to the even one.
-/

namespace Excerpt.Round

/-- The quotient of two numbers, rounded to the nearest whole number, halves to the even one. -/
def roundQuotient (n d : Nat) : Nat :=
  let q := n / d
  let twice := 2 * (n % d)
  if twice < d || (twice == d && q % 2 == 0) then q else q + 1

/-- The size of a finite value as a fraction. -/
def fraction (x : Float) : Nat × Nat :=
  let bits := x.toBits.toNat
  let power := bits / Nat.pow 2 52 % 2048
  let digits := bits % Nat.pow 2 52 + (if power == 0 then 0 else Nat.pow 2 52)
  let power := max power 1
  if power < 1075 then (digits, Nat.pow 2 (1075 - power)) else (digits * Nat.pow 2 (power - 1075), 1)

/-- A value with `places` decimal places. -/
def fixed (places : Nat) (x : Float) : String :=
  let (n, d) := fraction x
  let digits := toString (roundQuotient (n * Nat.pow 10 places) d)
  let digits := String.ofList (List.replicate (places + 1 - digits.length) '0') ++ digits
  let whole := String.ofList (digits.toList.take (digits.length - places))
  let sign := if x.toBits.toNat < Nat.pow 2 63 then "" else "-"
  if places == 0 then sign ++ whole
  else sign ++ whole ++ "." ++ String.ofList (digits.toList.drop (digits.length - places))

/-- A value rounded to `places` decimal places, written with the places it needs and at least one. -/
def rounded (places : Nat) (x : Float) : String :=
  let cs := ((fixed places x).toList.reverse.dropWhile (· == '0')).reverse
  String.ofList (if cs.getLast? == some '.' then cs ++ ['0'] else cs)

/-- A text, right-aligned in `width` columns. -/
def alignRight (width : Nat) (s : String) : String :=
  String.ofList (List.replicate (width - s.length) ' ') ++ s

end Excerpt.Round
