/-!
# Cutting texts

A text is cut at every occurrence of a separator, found from left to right without overlap. Joining
the parts with the separator gives the text back.
-/

namespace Excerpt.Text

/-- Puts a character in front of the first part. -/
def consHead (c : Char) : List (List Char) → List (List Char)
  | [] => [[c]]
  | part :: parts => (c :: part) :: parts

/-- The parts between the separators; `skip` characters still belong to the last separator. An empty
separator cuts nothing. -/
def partsFrom (sep : List Char) (skip : Nat) : List Char → List (List Char)
  | [] => [[]]
  | c :: cs =>
    match skip with
    | n + 1 => partsFrom sep n cs
    | 0 =>
      if !sep.isEmpty && sep.isPrefixOf (c :: cs) then [] :: partsFrom sep (sep.length - 1) cs
      else consHead c (partsFrom sep 0 cs)

/-- The parts of a text between the occurrences of `sep`. -/
def split (sep s : String) : List String :=
  (partsFrom sep.toList 0 s.toList).map String.ofList

/-- The parts joined with `sep`. -/
def join (sep : String) (parts : List String) : String :=
  String.ofList (List.intercalate sep.toList (parts.map String.toList))

/-- Every occurrence of `old` replaced by `new`. -/
def replace (old new s : String) : String :=
  join new (split old s)

/-- The part of a text before the first occurrence of `sep`, or the whole text. -/
def beforeFirst (sep s : String) : String :=
  (split sep s).headD ""

/-- Whether `part` stands somewhere in a text. -/
def hasPart (part : List Char) : List Char → Bool
  | [] => part.isEmpty
  | c :: cs => part.isPrefixOf (c :: cs) || hasPart part cs

/-- Whether `part` stands somewhere in `s`. -/
def contains (s part : String) : Bool :=
  hasPart part.toList s.toList

/-- Whether `s` starts with `start`. -/
def startsWith (s start : String) : Bool :=
  start.toList.isPrefixOf s.toList

/-- Whether `s` ends with `tail`. -/
def endsWith (s tail : String) : Bool :=
  tail.toList.isSuffixOf s.toList

/-- Without its first `n` characters. -/
def drop (n : Nat) (s : String) : String :=
  String.ofList (s.toList.drop n)

/-- Its first `n` characters. -/
def take (n : Nat) (s : String) : String :=
  String.ofList (s.toList.take n)

end Excerpt.Text
