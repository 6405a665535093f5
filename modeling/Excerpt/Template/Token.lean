import Excerpt.Template.Basic
import Excerpt.Text.Numeral

/-!
# Tokens of expressions

An expression is made of names, whole numbers, texts in quotes of either kind, and marks. Within a text a
backslash starts an escape.
-/

namespace Excerpt.Template

/-- A token of an expression. -/
inductive Token where
  | name (s : String)
  | int (n : Nat)
  | text (s : String)
  | mark (c : Char)
deriving Repr, DecidableEq

namespace Token

/-- The number of characters up to and with the closing quote `q`. -/
def quotedLength? (q : Char) : List Char → Option Nat
  | [] => none
  | '\\' :: _ :: cs => (quotedLength? q cs).map (· + 2)
  | c :: cs => if c == q then some 1 else (quotedLength? q cs).map (· + 1)

def digit (base : Nat) (c : Char) : Option Nat :=
  let n :=
    if c.isDigit then c.toNat - 48
    else if 'a' ≤ c && c ≤ 'f' then c.toNat - 87
    else if 'A' ≤ c && c ≤ 'F' then c.toNat - 55
    else base
  if n < base then some n else none

def valueOf (base : Nat) (cs : List Char) : Nat :=
  cs.foldl (fun n c => n * base + (digit base c).getD 0) 0

/-- A character by its number. -/
def charOf? (n : Nat) : Option Char :=
  if n < 0xD800 || (0xDFFF < n && n < 0x110000) then some (Char.ofNat n) else none

def shortEscapes : List (Char × Char) :=
  [('n', '\n'), ('t', '\t'), ('r', '\r'), ('\\', '\\'), ('\'', '\''), ('"', '"'), ('a', '\x07'),
    ('b', '\x08'), ('f', '\x0c'), ('v', '\x0b')]

/-- The character that `count` digits spell, and the count. -/
def numbered (base count : Nat) (cs : List Char) : Option (Char × Nat) :=
  let digits := (cs.take count).takeWhile fun c => (digit base c).isSome
  if digits.length == count then (charOf? (valueOf base digits)).map (·, count) else none

/-- What an escape stands for, and how many characters it takes after the backslash. An unknown escape stands
for itself; a line feed after a backslash stands for nothing. -/
def escape (cs : List Char) : Option (List Char × Nat) :=
  match cs with
  | [] => some (['\\'], 0)
  | '\n' :: _ => some ([], 1)
  | 'x' :: cs => (numbered 16 2 cs).map fun (c, n) => ([c], n + 1)
  | 'u' :: cs => (numbered 16 4 cs).map fun (c, n) => ([c], n + 1)
  | 'U' :: cs => (numbered 16 8 cs).map fun (c, n) => ([c], n + 1)
  | c :: _ =>
    match shortEscapes.lookup c with
    | some d => some ([d], 1)
    | none =>
      let octal := (cs.take 3).takeWhile fun c => (digit 8 c).isSome
      if octal.isEmpty then some (['\\'], 0)
      else (charOf? (valueOf 8 octal)).map fun c => ([c], octal.length)

/-- A text with its escapes resolved; `skip` characters belong to the last escape. -/
def unescaped (skip : Nat) : List Char → Option (List Char)
  | [] => some []
  | c :: cs =>
    match skip with
    | n + 1 => unescaped n cs
    | 0 =>
      if c == '\\' then do
        let (cs', n) ← escape cs
        return cs' ++ (← unescaped n cs)
      else (unescaped 0 cs).map (c :: ·)

/-- The digits at the front, with single underscores between them, and how many characters they take. -/
def digitsOf (base : Nat) : List Char → List Char × Nat
  | [] => ([], 0)
  | '_' :: c :: cs =>
    if (digit base c).isSome then
      let (ds, n) := digitsOf base cs
      (c :: ds, n + 2)
    else ([], 0)
  | c :: cs =>
    if (digit base c).isSome then
      let (ds, n) := digitsOf base cs
      (c :: ds, n + 1)
    else ([], 0)

/-- The whole number at the front, and how many characters it takes. -/
def number (cs : List Char) : Nat × Nat :=
  let based (base : Nat) (cs : List Char) : Option (Nat × Nat) :=
    match digitsOf base cs with
    | ([], _) => none
    | (ds, n) => some (valueOf base ds, n + 2)
  let prefixed := match cs with
    | '0' :: b :: cs =>
      if b == 'x' || b == 'X' then based 16 cs
      else if b == 'o' || b == 'O' then based 8 cs
      else if b == 'b' || b == 'B' then based 2 cs
      else none
    | _ => none
  prefixed.getD (let (ds, n) := digitsOf 10 cs; (valueOf 10 ds, n))

/-- The token at the front, and how many characters it takes. -/
def first (c : Char) (cs : List Char) : Except SyntaxError (Token × Nat) :=
  if c == '\'' || c == '"' then
    match quotedLength? c cs with
    | none => .error (.unexpected c)
    | some n =>
      match unescaped 0 (cs.take (n - 1)) with
      | some s => .ok (.text (String.ofList s), n + 1)
      | none => .error .badText
  else if c.isDigit then
    let (n, length) := number (c :: cs)
    .ok (.int n, length)
  else if Text.isWord c then
    let name := c :: cs.takeWhile Text.isWord
    .ok (.name (String.ofList name), name.length)
  else if "()[]\x7b\x7d,:=|-+.".toList.contains c then .ok (.mark c, 1)
  else .error (.unexpected c)

/-- The tokens of an expression; `skip` characters belong to the last token. -/
def scan (skip : Nat) : List Char → Except SyntaxError (List Token)
  | [] => .ok []
  | c :: cs =>
    match skip with
    | n + 1 => scan n cs
    | 0 =>
      if Text.isBlank c then scan 0 cs
      else do
        let (t, n) ← first c cs
        return t :: (← scan (n - 1) cs)

end Token

end Excerpt.Template
