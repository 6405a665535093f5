/-!
# Bytes of a source

A source is a list of bytes and need not be valid UTF-8. Offsets count bytes, and a piece of a source
is named by the offsets of its two ends.
-/

namespace Excerpt

/-- The content of a source file, or of a part of it. -/
abbrev Bytes := List UInt8

namespace Bytes

/-- The UTF-8 bytes of a text. -/
def ofString (s : String) : Bytes :=
  s.toUTF8.data.toList

/-- The line feed byte. -/
def newline : UInt8 := 10

/-- The bytes from offset `start` up to offset `stop`. An end beyond the source is cut off, and ends in
the wrong order give nothing. -/
def slice (bs : Bytes) (start stop : Nat) : Bytes :=
  (bs.take stop).drop start

/-- How many line feeds there are. -/
def newlines (bs : Bytes) : Nat :=
  bs.count newline

theorem newlines_append (as bs : Bytes) : newlines (as ++ bs) = newlines as + newlines bs :=
  List.count_append

/-- Whether `part` stands somewhere in `bs`. -/
def hasPart (part : Bytes) : Bytes → Bool
  | [] => part.isEmpty
  | b :: bs => part.isPrefixOf (b :: bs) || hasPart part bs

end Bytes

end Excerpt
