import Excerpt.Text.Bytes

/-!
# Reading UTF-8

Bytes are cut into pieces: a piece is a character or the longest run of bytes that starts a character
and cannot be finished. The strict reading refuses the first unfinished piece, the lossy reading shows
each of them as one replacement character, so both readings agree on valid bytes.
-/

namespace Excerpt.Utf8

/-- Why bytes are no character. -/
inductive Fault where
  /-- No character starts with this byte. -/
  | start
  /-- The byte after the run does not continue it. -/
  | continuation
  /-- The input ends within a character. -/
  | truncated
deriving Repr, DecidableEq

/-- What stands at the front of the bytes, and how many bytes it takes. -/
inductive Piece where
  | char (c : Char) (size : Nat)
  | bad (fault : Fault) (run : Bytes)
deriving Repr, DecidableEq

namespace Piece

/-- The number of bytes of a piece. -/
def size : Piece → Nat
  | char _ n => n
  | bad _ run => run.length

end Piece

/-- Reads the continuation bytes of a character, each within its own bounds. `value` and `run` are what
has been read of it so far. -/
def continued (value : Nat) (run : Bytes) : List (UInt8 × UInt8) → Bytes → Piece
  | [], _ => .char (Char.ofNat value) run.length
  | _ :: _, [] => .bad .truncated run
  | (lo, hi) :: bounds, b :: bs =>
    if lo ≤ b && b ≤ hi then continued (value * 64 + b.toNat % 64) (run ++ [b]) bounds bs
    else .bad .continuation run

/-- The piece that starts with the byte `b`, when `bs` follows. The bounds of the second byte leave out
overlong forms, surrogates and code points above the last one. -/
def piece (b : UInt8) (bs : Bytes) : Piece :=
  if b < 0x80 then .char (Char.ofNat b.toNat) 1
  else if b < 0xC2 then .bad .start [b]
  else if b < 0xE0 then continued (b.toNat % 32) [b] [(0x80, 0xBF)] bs
  else if b < 0xF0 then
    continued (b.toNat % 16) [b]
      [(if b = 0xE0 then 0xA0 else 0x80, if b = 0xED then 0x9F else 0xBF), (0x80, 0xBF)] bs
  else if b < 0xF5 then
    continued (b.toNat % 8) [b]
      [(if b = 0xF0 then 0x90 else 0x80, if b = 0xF4 then 0x8F else 0xBF), (0x80, 0xBF), (0x80, 0xBF)] bs
  else .bad .start [b]

/-- The pieces of the bytes, in order. -/
def pieces : Bytes → List Piece
  | [] => []
  | b :: bs =>
    let p := piece b bs
    p :: pieces (bs.drop (p.size - 1))
termination_by bs => bs.length
decreasing_by simp only [List.length_drop, List.length_cons]; omega

/-- Bytes that are no text: the run at `offset` is no character. -/
structure DecodeError where
  fault : Fault
  offset : Nat
  run : Bytes
deriving Repr, DecidableEq

namespace Fault

def message : Fault → String
  | start => "invalid start byte"
  | continuation => "invalid continuation byte"
  | truncated => "unexpected end of data"

end Fault

namespace DecodeError

/-- Two lower-case hexadecimal digits. -/
def hexByte (b : UInt8) : String :=
  let digit (n : Nat) : Char := (Nat.toDigits 16 n).headD '0'
  String.ofList [digit (b.toNat / 16), digit (b.toNat % 16)]

/-- The wording names the byte, or the first and last position of several. -/
def message (e : DecodeError) : String :=
  match e.run with
  | [b] =>
    s!"'utf-8' codec can't decode byte 0x{hexByte b} in position {e.offset}: " ++ e.fault.message
  | run =>
    s!"'utf-8' codec can't decode bytes in position {e.offset}-{e.offset + run.length - 1}: "
      ++ e.fault.message

end DecodeError

/-- The characters of pieces that are all characters; `offset` is where the first piece starts. -/
def chars (offset : Nat) : List Piece → Except DecodeError (List Char)
  | [] => .ok []
  | .char c n :: ps => (chars (offset + n) ps).map (c :: ·)
  | .bad fault run :: _ => .error ⟨fault, offset, run⟩

/-- The text of valid bytes. -/
def decode (bs : Bytes) : Except DecodeError String :=
  (chars 0 (pieces bs)).map String.ofList

/-- The text of any bytes: each run that is no character is shown as U+FFFD. -/
def decodeLossy (bs : Bytes) : String :=
  String.ofList ((pieces bs).map fun
    | .char c _ => c
    | .bad _ _ => Char.ofNat 0xFFFD)

end Excerpt.Utf8
