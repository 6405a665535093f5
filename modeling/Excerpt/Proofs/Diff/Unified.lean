import Excerpt.Diff.Hunk
import Mathlib.Data.List.Basic

/-!
# Written diffs

A unified diff of two texts shows some stretches of them, its hunks, and passes
over the lines between, which the texts share. `Document` holds what such a diff
is made of: lines that come before the first hunk, the hunks with the lines
passed over in front of each, and the lines after the last. The two texts and
the diff itself are read off the document, so that header numbers are positions
and not data.

A kept line is written behind a space, or, if it is empty, as an empty line.
A line that starts with a backslash is a remark and belongs to neither text.
-/

namespace Excerpt

namespace Unified

/-- A line of a hunk. -/
inductive Line where
  | kept (text : List Char)
  /-- A kept line without text whose leading space is left out. -/
  | blank
  | removed (text : List Char)
  | added (text : List Char)
  | remark (text : List Char)
deriving Repr, DecidableEq

namespace Line

def written : Line → List Char
  | kept t => ' ' :: t
  | blank => []
  | removed t => '-' :: t
  | added t => '+' :: t
  | remark t => '\\' :: t

def old? : Line → Option (List Char)
  | kept t => some t
  | blank => some []
  | removed t => some t
  | added _ => none
  | remark _ => none

def new? : Line → Option (List Char)
  | kept t => some t
  | blank => some []
  | removed _ => none
  | added t => some t
  | remark _ => none

/-- Whether both texts have the line. -/
def isKept (l : Line) : Bool :=
  l.old?.isSome && l.new?.isSome

/-- A line without a line feed whose mark cannot be read as part of a file
header. -/
def Clean : Line → Prop
  | kept t => '\n' ∉ t
  | blank => True
  | removed t => '\n' ∉ t ∧ ¬ ['-', '-'] <+: t
  | added t => '\n' ∉ t ∧ ¬ ['+', '+'] <+: t
  | remark t => '\n' ∉ t

end Line

/-- The lines that the old text has of `ls`. -/
def olds (ls : List Line) : List (List Char) :=
  ls.filterMap Line.old?

/-- The lines that the new text has of `ls`. -/
def news (ls : List Line) : List (List Char) :=
  ls.filterMap Line.new?

/-- A hunk and the lines passed over in front of it. A count of one may be left
out of its header, and a heading may follow it. -/
structure Block where
  gap : List (List Char)
  body : List Line
  briefOld : Bool
  briefNew : Bool
  heading : List Char
deriving Repr, DecidableEq

/-- A unified diff. -/
structure Document where
  preamble : List (List Char)
  blocks : List Block
  tail : List (List Char)
  finalNewline : Bool
deriving Repr, DecidableEq

def writtenRange (brief : Bool) (start count : Nat) : List Char :=
  if brief && count == 1 then Nat.toDigits 10 start
  else Nat.toDigits 10 start ++ ',' :: Nat.toDigits 10 count

namespace Block

/-- The header of a hunk that starts at the lines `old` and `new`. -/
def header (b : Block) (old new : Nat) : List Char :=
  ['@', '@', ' ', '-'] ++ writtenRange b.briefOld old (olds b.body).length ++
    ([' ', '+'] ++ writtenRange b.briefNew new (news b.body).length ++
      ([' ', '@', '@'] ++ b.heading))

/-- The lines passed over and the lines shown. -/
def lines (b : Block) : List Line :=
  b.gap.map Line.kept ++ b.body

/-- Both texts have a line in the hunk; it begins with a kept line, unless it
begins at the first line; and nothing in it holds a line feed or reads as a file
header. -/
structure WellFormed (b : Block) (new : Nat) : Prop where
  old_pos : 1 ≤ (olds b.body).length
  new_pos : 1 ≤ (news b.body).length
  context : (b.body.head?.any Line.isKept) = true ∨ new + b.gap.length = 1
  clean : ∀ l ∈ b.body, l.Clean
  heading_clean : '\n' ∉ b.heading

end Block

/-- The written hunks, the first of which comes after the lines before `old` and
`new`. -/
def writtenBlocks (old new : Nat) : List Block → List (List Char)
  | [] => []
  | b :: bs =>
    b.header (old + b.gap.length) (new + b.gap.length) ::
      (b.body.map Line.written ++
        writtenBlocks (old + (olds b.lines).length) (new + (news b.lines).length) bs)

/-- Every hunk is well-formed where it stands. -/
def BlocksWellFormed (new : Nat) : List Block → Prop
  | [] => True
  | b :: bs => b.WellFormed new ∧ BlocksWellFormed (new + (news b.lines).length) bs

/-- The lines of hunks, of what lies between them, and of `tail`. -/
def scriptOf (bs : List Block) (tail : List (List Char)) : List Line :=
  bs.flatMap Block.lines ++ tail.map Line.kept

namespace Document

/-- All lines of both texts, in order. -/
def script (d : Document) : List Line :=
  scriptOf d.blocks d.tail

/-- The old text. -/
def old (d : Document) : List (List Char) :=
  olds d.script

/-- The new text. -/
def new (d : Document) : List (List Char) :=
  news d.script

/-- The lines of the diff. -/
def written (d : Document) : List (List Char) :=
  d.preamble ++ writtenBlocks 1 1 d.blocks

/-- The text of the diff, with or without a line feed at its end. -/
def text (d : Document) : String :=
  String.ofList (List.intercalate ['\n']
    (d.written ++ if d.finalNewline then [[]] else []))

/-- A diff whose hunks are well-formed, with no line before the first that could
head one. -/
structure WellFormed (d : Document) : Prop where
  preamble_clean : ∀ t ∈ d.preamble, '\n' ∉ t ∧ ¬ ['@', '@'] <+: t
  blocks_wellFormed : BlocksWellFormed 1 d.blocks

end Document

/-- The line `n` of the new text is kept, and it is the line `m` of the old one. -/
def KeptAt (ls : List Line) (n m : Nat) : Prop :=
  ∃ (before : List Line) (l : Line) (after : List Line),
    ls = before ++ l :: after ∧ l.isKept ∧
    n = (news before).length + 1 ∧ m = (olds before).length + 1

end Unified

end Excerpt
