import Excerpt.Table
import Excerpt.Text.Json
import Excerpt.Text.Numeral

/-!
# Data of a measuring round

The tools of a round hand on what they measured as JSON. Numbers keep their spelling, so a number that is only
passed on is written as it was read.
-/

namespace Excerpt.Round

/-- A JSON value; numbers as they are spelled. -/
inductive Datum where
  | null
  | flag (b : Bool)
  | number (spelling : String)
  | text (s : String)
  | list (items : List Datum)
  | table (rows : List (String × Datum))

namespace Datum

/-- The characters JSON allows between values. -/
def isGap (c : Char) : Bool :=
  c == ' ' || c == '\n' || c == '\r' || c == '\t'

def dropGap (cs : List Char) : List Char :=
  cs.dropWhile isGap

/-- The value of a hexadecimal digit. -/
def hexValue? (c : Char) : Option Nat :=
  if c.isDigit then some (c.toNat - 48)
  else if 'a' ≤ c && c ≤ 'f' then some (c.toNat - 87)
  else if 'A' ≤ c && c ≤ 'F' then some (c.toNat - 55)
  else none

/-- The value of four hexadecimal digits at the front, with what follows. -/
def hexQuad? : List Char → Option (Nat × List Char)
  | a :: b :: c :: d :: cs => do
    return (((← hexValue? a) * 16 + (← hexValue? b)) * 256 + (← hexValue? c) * 16 + (← hexValue? d), cs)
  | _ => none

/-- The character behind a backslash, with what follows; a character beyond four digits is written as two
numbers. -/
def escaped? : List Char → Option (Char × List Char)
  | 'n' :: cs => some ('\n', cs)
  | 'r' :: cs => some ('\r', cs)
  | 't' :: cs => some ('\t', cs)
  | 'b' :: cs => some ('\x08', cs)
  | 'f' :: cs => some ('\x0c', cs)
  | 'u' :: cs => do
    let (high, more) ← hexQuad? cs
    if 0xD800 ≤ high && high < 0xDC00 then
      match more with
      | '\\' :: 'u' :: more =>
        let (low, more) ← hexQuad? more
        return (Char.ofNat (0x10000 + (high - 0xD800) * 1024 + (low - 0xDC00)), more)
      | _ => none
    else return (Char.ofNat high, more)
  | c :: cs => if c == '"' || c == '\\' || c == '/' then some (c, cs) else none
  | [] => none

/-- A text behind its opening quote, with what follows the closing one. -/
def readText : Nat → List Char → Option (List Char × List Char)
  | 0, _ => none
  | _ + 1, [] => none
  | _ + 1, '"' :: cs => some ([], cs)
  | limit + 1, '\\' :: cs => do
    let (c, cs) ← escaped? cs
    let (s, cs) ← readText limit cs
    return (c :: s, cs)
  | limit + 1, c :: cs => do
    let (s, cs) ← readText limit cs
    return (c :: s, cs)

/-- The items of a list up to its bracket, after `first` or a comma. -/
def readItems (read : List Char → Option (Datum × List Char)) :
    Nat → List Char → Option (List Datum × List Char)
  | 0, _ => none
  | limit + 1, cs => do
    let (item, cs) ← read (dropGap cs)
    match dropGap cs with
    | ',' :: cs =>
      let (items, cs) ← readItems read limit cs
      return (item :: items, cs)
    | ']' :: cs => return ([item], cs)
    | _ => none

/-- The rows of a table up to its brace, the first row or one behind a comma in front. -/
def readRows (read : List Char → Option (Datum × List Char)) :
    Nat → List Char → Option (List (String × Datum) × List Char)
  | 0, _ => none
  | limit + 1, cs =>
    match dropGap cs with
    | '"' :: cs => do
      let (name, cs) ← readText (cs.length + 1) cs
      match dropGap cs with
      | ':' :: cs =>
        let (item, cs) ← read (dropGap cs)
        match dropGap cs with
        | ',' :: cs =>
          let (rows, cs) ← readRows read limit cs
          return ((String.ofList name, item) :: rows, cs)
        | '\x7d' :: cs => return ([(String.ofList name, item)], cs)
        | _ => none
      | _ => none
    | _ => none

def isOfNumber (c : Char) : Bool :=
  c.isDigit || c == '-' || c == '+' || c == '.' || c == 'e' || c == 'E'

/-- A value at the front, with what follows; `limit` bounds how deep values stand in one another. -/
def readFrom : Nat → List Char → Option (Datum × List Char)
  | 0, _ => none
  | limit + 1, cs =>
    match cs with
    | '"' :: cs => (readText (cs.length + 1) cs).map fun (s, cs) => (text (String.ofList s), cs)
    | '[' :: cs =>
      match dropGap cs with
      | ']' :: cs => some (list [], cs)
      | cs => (readItems (readFrom limit) (cs.length + 1) cs).map fun (items, cs) => (list items, cs)
    | '\x7b' :: cs =>
      match dropGap cs with
      | '\x7d' :: cs => some (table [], cs)
      | cs =>
        (readRows (readFrom limit) (cs.length + 1) cs).map fun (rows, cs) =>
          (table (rows.foldl (fun t r => Table.put t r.1 r.2) []), cs)
    | 'n' :: 'u' :: 'l' :: 'l' :: cs => some (null, cs)
    | 't' :: 'r' :: 'u' :: 'e' :: cs => some (flag true, cs)
    | 'f' :: 'a' :: 'l' :: 's' :: 'e' :: cs => some (flag false, cs)
    | cs =>
      match cs.takeWhile isOfNumber with
      | [] => none
      | spelling => some (number (String.ofList spelling), cs.dropWhile isOfNumber)

/-- The value a JSON text spells. -/
def ofString? (s : String) : Option Datum :=
  match readFrom (s.length + 1) (dropGap s.toList) with
  | some (d, rest) => if (dropGap rest).isEmpty then some d else none
  | none => none

/-- The rows of a table; any other value has none. -/
def rows : Datum → List (String × Datum)
  | table rows => rows
  | _ => []

/-- The items of a list; any other value has none. -/
def items : Datum → List Datum
  | list items => items
  | _ => []

/-- What a table has under a name. -/
def get? (d : Datum) (name : String) : Option Datum :=
  Table.get? d.rows name

/-- The rows of the table that stands under a name. -/
def under (d : Datum) (name : String) : List (String × Datum) :=
  ((d.get? name).map rows).getD []

def text? : Datum → Option String
  | text s => some s
  | _ => none

def spelling? : Datum → Option String
  | number s => some s
  | _ => none

/-- The measured value of a number. -/
def value? : Datum → Option Float
  | number s =>
    let (negative, cs) := match s.toList with
      | '-' :: cs => (true, cs)
      | cs => (false, cs)
    let whole := cs.takeWhile Char.isDigit
    let more := cs.dropWhile Char.isDigit
    let (places, more) := match more with
      | '.' :: more => (more.takeWhile Char.isDigit, more.dropWhile Char.isDigit)
      | more => ([], more)
    let exponent : Int := match more with
      | _ :: more => (Text.int? (String.ofList more)).getD 0
      | [] => 0
    let shift := exponent - places.length
    let size := Float.ofScientific (Text.digitsValue (whole ++ places)) (shift < 0) shift.natAbs
    some (if negative then -size else size)
  | _ => none

end Datum

end Excerpt.Round
