import Excerpt.Diff.Hunk
import Excerpt.Table

/-!
# Line maps

Reading the lines of a diff gives, for every line of the new text that a hunk shows, its line in the old
text, or nothing for a line that was added. Lines outside the hunks are shifted by what the hunks before
them added and removed.
-/

namespace Excerpt

/-- The shown lines of the new text, each with its line in the old text if it has one. -/
abbrev LineMap := Table Int (Option Int)

namespace LineMap

/-- Where the reading of a diff stands: the map so far and the next line of both texts, once a hunk has
begun. -/
structure Progress where
  map : LineMap
  next : Option (Int × Int)
deriving Repr

/-- Takes in a line of the diff. Lines before the first hunk, file headers and notes are passed over. -/
def Progress.step (p : Progress) (line : List Char) : Progress :=
  match Hunk.header? line with
  | some h => { p with next := some (h.oldStart, h.newStart) }
  | none =>
    match p.next with
    | none => p
    | some (old, new) =>
      if "+++".toList.isPrefixOf line || "---".toList.isPrefixOf line then p
      else
        match line with
        | '+' :: _ => ⟨p.map.put new none, some (old, new + 1)⟩
        | '-' :: _ => { p with next := some (old + 1, new) }
        | ' ' :: _ => ⟨p.map.put new (some old), some (old + 1, new + 1)⟩
        | [] => ⟨p.map.put new (some old), some (old + 1, new + 1)⟩
        | _ => p

def ofDiff (diff : String) : LineMap :=
  ((Text.split "\n" diff).foldl (fun (p : Progress) line => p.step line.toList) ⟨[], none⟩).map

/-- The old line of the nearest line at or below `n`, and above zero, that was not added. -/
def nearest (m : LineMap) : Nat → Option Int
  | 0 => none
  | n + 1 =>
    match m.get? ((n : Int) + 1) with
    | some (some old) => some old
    | _ => m.nearest n

/-- What the hunks up to a line removed less what they added. -/
def shift (line : Int) : List Hunk → Int
  | [] => 0
  | h :: hs => if line < h.newStart then 0 else h.oldCount - h.newCount + shift line hs

/-- The line of the old text that a line of the new text stands for. An added line stands for the nearest
kept line before it, or for the first line. -/
def oldLine (diff : String) (line : Int) : Int :=
  match (ofDiff diff).get? line with
  | some (some old) => old
  | some none => ((ofDiff diff).nearest (line - 1).toNat).getD 1
  | none => line + shift line (Hunk.ofDiff diff)

end LineMap

end Excerpt
