import Excerpt.Text.Numeral
import Excerpt.Text.Split

/-!
# Hunks

A unified diff is a sequence of lines, some of which head a hunk: `@@ -a,b +c,d @@` says that the hunk
shows `b` lines of the old text from line `a` on and `d` lines of the new text from line `c` on. A
missing count is one.
-/

namespace Excerpt

/-- The header of a hunk. -/
structure Hunk where
  oldStart : Int
  oldCount : Int
  newStart : Int
  newCount : Int
deriving Repr, DecidableEq

namespace Hunk

/-- Takes a fixed text off the front. -/
def expect (word : List Char) (cs : List Char) : Option (List Char) :=
  if word.isPrefixOf cs then some (cs.drop word.length) else none

/-- Takes a number off the front. -/
def number (cs : List Char) : Option (Int × List Char) :=
  let digits := cs.takeWhile Text.isDigit
  if digits.isEmpty then none else some (Text.digitsValue digits, cs.dropWhile Text.isDigit)

/-- Takes a start and an optional count off the front. -/
def range (cs : List Char) : Option ((Int × Int) × List Char) := do
  let (start, rest) ← number cs
  match rest with
  | ',' :: more => do
    let (count, rest) ← number more
    return ((start, count), rest)
  | _ => return ((start, 1), rest)

def header? (line : List Char) : Option Hunk := do
  let rest ← expect "@@ -".toList line
  let ((oldStart, oldCount), rest) ← range rest
  let rest ← expect " +".toList rest
  let ((newStart, newCount), rest) ← range rest
  let _ ← expect " @@".toList rest
  return ⟨oldStart, oldCount, newStart, newCount⟩

def ofDiff (diff : String) : List Hunk :=
  (Text.split "\n" diff).filterMap fun line => header? line.toList

/-- The line of the old text that a line of the new text stands for, by the headers alone. Within a hunk
that grows, the new lines are taken to come first; within any other hunk, lines are counted from its
start. -/
def oldLine (line offset : Int) : List Hunk → Int
  | [] => line + offset
  | h :: hs =>
    if line < h.newStart then line + offset
    else if line < h.newStart + h.newCount then
      let added := h.newCount - h.oldCount
      let into := line - h.newStart
      if 0 < added then
        if into < added then h.oldStart else h.oldStart + (into - added)
      else if into < h.oldCount then h.oldStart + into
      else if 0 < h.oldCount then h.oldStart + h.oldCount - 1
      else h.oldStart
    else oldLine line (offset + (h.oldCount - h.newCount)) hs

end Hunk

end Excerpt
