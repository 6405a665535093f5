import Excerpt.Tree.Point

/-!
# Tokens

A source is cut into tokens by one pass over its bytes. Blanks and line feeds separate tokens, a byte
that starts no token is passed over, and an end token closes the list. A token keeps its own bytes and
the point where it starts, so the grammar never looks at the source again for them.
-/

namespace Excerpt

namespace Token

/-- The classes of tokens. `angled` is a run `<…>` taken as template arguments. -/
inductive Kind where
  | lineComment
  | blockComment
  | directive
  | quoted
  | number
  | angled
  | operator
  | word
  | finish
deriving Repr, DecidableEq, Inhabited

/-- What one step of the scanner finds: space, a line feed, or a token. -/
inductive Class where
  | space
  | lineFeed
  | token (kind : Kind)
deriving Repr, DecidableEq

end Token

/-- A token: its class, the offset and point where it starts, and its bytes. -/
structure Token where
  kind : Token.Kind
  start : Nat
  point : Point
  text : Bytes
deriving Repr, DecidableEq, Inhabited

namespace Token

/-- The offset after the last byte. -/
def stop (t : Token) : Nat :=
  t.start + t.text.length

/-- The point after the last byte. -/
def endPoint (t : Token) : Point :=
  t.point.after t.text

/-- Whether the token is spelled `s`. -/
def spelled (t : Token) (s : String) : Bool :=
  t.text == Bytes.ofString s

/-- Whether the token is spelled like one of `ss`. -/
def spelledIn (t : Token) (ss : List String) : Bool :=
  ss.any t.spelled

def isFinish (t : Token) : Bool :=
  t.kind == .finish

def isComment (t : Token) : Bool :=
  t.kind == .lineComment || t.kind == .blockComment

end Token

namespace Lexeme

/-- A blank other than a line feed. -/
def isSpace (b : UInt8) : Bool :=
  b == 32 || b == 9 || b == 13

def isDigit (b : UInt8) : Bool :=
  48 ≤ b && b ≤ 57

/-- An ASCII letter or the underscore. -/
def isWordStart (b : UInt8) : Bool :=
  (65 ≤ b && b ≤ 90) || (97 ≤ b && b ≤ 122) || b == 95

/-- A letter, a digit or the underscore. -/
def isWordByte (b : UInt8) : Bool :=
  isWordStart b || isDigit b

/-- A byte of a number after its first digit. -/
def isNumberByte (b : UInt8) : Bool :=
  isWordByte b || b == 46

/-- A byte that may stand between `<` and `>`. -/
def isAngledByte (b : UInt8) : Bool :=
  !(b == 60 || b == 62 || b == 123 || b == 125 || b == 59)

/-- The bytes that are operators of their own: `{ } ( ) [ ] , ; : * & = + - ! ~ / % ^ | . ?`. -/
def operators : Bytes :=
  [123, 125, 40, 41, 91, 93, 44, 59, 58, 42, 38, 61, 43, 45, 33, 126, 47, 37, 94, 124, 46, 63]

/-- How many bytes from the front of `bs` satisfy `p`. -/
def run (p : UInt8 → Bool) (bs : Bytes) : Nat :=
  (bs.takeWhile p).length

/-- How many bytes remain up to and including the first `*/`. -/
def commentLength : Bytes → Option Nat
  | 42 :: 47 :: _ => some 2
  | _ :: bs => (commentLength bs).map (· + 1)
  | [] => none

/-- How many bytes remain of a quoted text up to and including its closing quote. A backslash keeps the
byte after it from closing the text. -/
def quotedLength : Bytes → Option Nat
  | 34 :: _ => some 1
  | 92 :: _ :: bs => (quotedLength bs).map (· + 2)
  | [92] => none
  | _ :: bs => (quotedLength bs).map (· + 1)
  | [] => none

/-- How many bytes remain of template arguments up to and including `>`. -/
def angledLength (bs : Bytes) : Option Nat :=
  let n := run isAngledByte bs
  if (bs.drop n).head? = some 62 then some (n + 1) else none

/-- What stands at the front of `b :: bs`, with the number of its bytes after `b`. -/
def read (b : UInt8) (bs : Bytes) : Option (Token.Class × Nat) :=
  if isSpace b then some (.space, run isSpace bs)
  else if b == Bytes.newline then some (.lineFeed, 0)
  else if b == 47 && bs.head? == some 47 then
    some (.token .lineComment, run (· != Bytes.newline) bs)
  else if isWordStart b then some (.token .word, run isWordByte bs)
  else if isDigit b then some (.token .number, run isNumberByte bs)
  else
    (comment <|> directive <|> quoted <|> angled <|> operator)
where
  comment : Option (Token.Class × Nat) :=
    if b == 47 && bs.head? == some 42 then
      (commentLength (bs.drop 1)).map fun n => (.token .blockComment, n + 1)
    else none
  directive : Option (Token.Class × Nat) :=
    if b == 35 && 0 < run isWordStart bs then some (.token .directive, run isWordStart bs) else none
  quoted : Option (Token.Class × Nat) :=
    if b == 34 then (quotedLength bs).map fun n => (.token .quoted, n) else none
  angled : Option (Token.Class × Nat) :=
    if b == 60 then (angledLength bs).map fun n => (.token .angled, n) else none
  operator : Option (Token.Class × Nat) :=
    if b == 58 && bs.head? == some 58 then some (.token .operator, 1)
    else if operators.contains b then some (.token .operator, 0)
    else none

end Lexeme

namespace Token

/-- The tokens of the bytes that follow offset `offset`, which lies at point `p`. -/
def scanFrom (offset : Nat) (p : Point) : Bytes → List Token
  | [] => [⟨.finish, offset, p, []⟩]
  | b :: bs =>
    match Lexeme.read b bs with
    | none => scanFrom (offset + 1) (p.step b) bs
    | some (cls, n) =>
      let text := b :: bs.take n
      let rest := scanFrom (offset + text.length) (p.after text) (bs.drop n)
      match cls with
      | .token kind => ⟨kind, offset, p, text⟩ :: rest
      | _ => rest
termination_by bs => bs.length
decreasing_by
  · simp
  · simp only [List.length_drop, List.length_cons]; omega

/-- The tokens of a source, closed by an end token. -/
def scan (src : Bytes) : List Token :=
  scanFrom 0 .origin src

end Token

end Excerpt
