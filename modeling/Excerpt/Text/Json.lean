import Excerpt.Text.Split

/-!
# Texts in JSON

In JSON a text stands between double quotes. All characters but the printable ones of ASCII are written by
their numbers, those beyond four hexadecimal digits as two numbers.
-/

namespace Excerpt.Text

def hexDigit (n : Nat) : Char :=
  if n < 10 then Char.ofNat (n + 48) else Char.ofNat (n + 87)

/-- The last four hexadecimal digits of a number, behind the sign of an escape. -/
def hexEscape (n : Nat) : List Char :=
  ['\\', 'u', hexDigit (n / 4096 % 16), hexDigit (n / 256 % 16), hexDigit (n / 16 % 16), hexDigit (n % 16)]

def jsonChar (c : Char) : List Char :=
  let n := c.toNat
  if c == '"' then ['\\', '"']
  else if c == '\\' then ['\\', '\\']
  else if c == '\n' then ['\\', 'n']
  else if c == '\r' then ['\\', 'r']
  else if c == '\t' then ['\\', 't']
  else if n == 8 then ['\\', 'b']
  else if n == 12 then ['\\', 'f']
  else if 32 ≤ n && n ≤ 126 then [c]
  else if n < 0x10000 then hexEscape n
  else hexEscape (0xD800 + (n - 0x10000) / 1024) ++ hexEscape (0xDC00 + (n - 0x10000) % 1024)

def json (s : String) : String :=
  "\"" ++ String.ofList (s.toList.flatMap jsonChar) ++ "\""

end Excerpt.Text
