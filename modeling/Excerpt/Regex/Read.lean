import Excerpt.Regex.Basic

/-!
# Reading regular expressions

An expression is read from left to right with a stack of open groups. A group holds the alternatives
closed so far and the pieces of the current one, the latest first; a repetition applies to the latest
piece, and not to a piece that is repeated already.
-/

namespace Excerpt.Regex

/-- Why a text is no regular expression. -/
inductive ReadError where
  | nothingToRepeat
  | repeatedTwice
  | openGroup
  | unopenedGroup
  | openClass
  | badRange
  | badEscape
deriving Repr, DecidableEq

/-- A piece of a sequence, and whether a repetition was applied to it. -/
structure Piece where
  regex : Regex
  repeated : Bool

/-- An open group: closed alternatives and the pieces of the current one, both latest first. -/
structure Group where
  alternatives : List Regex
  pieces : List Piece

namespace Group

/-- A group of which nothing has been read. -/
def start : Group := ⟨[], []⟩

/-- Adds a piece. -/
def push (r : Regex) (g : Group) : Group :=
  { g with pieces := ⟨r, false⟩ :: g.pieces }

/-- The current alternative. -/
def sequence (g : Group) : Regex :=
  g.pieces.foldl (fun acc p => if acc = nothing then p.regex else seq p.regex acc) nothing

/-- Closes the current alternative. -/
def bar (g : Group) : Group :=
  ⟨g.sequence :: g.alternatives, []⟩

/-- The expression of the whole group. -/
def regex (g : Group) : Regex :=
  g.alternatives.foldl (fun acc r => alt r acc) g.sequence

/-- Applies a repetition to the latest piece. A question mark after a repetition changes nothing of what
can match. -/
def repeatLast (mark : Char) (g : Group) : Except ReadError Group :=
  match g.pieces with
  | [] => .error .nothingToRepeat
  | p :: ps =>
    if p.repeated then .error .repeatedTwice
    else
      match p.regex with
      | textStart => .error .nothingToRepeat
      | textEnd => .error .nothingToRepeat
      | r =>
        let repeated := if mark == '*' then many r else if mark == '+' then Regex.some r else optional r
        .ok { g with pieces := ⟨repeated, true⟩ :: ps }

end Group

/-- The set that a letter after a backslash names, and whether it is negated. -/
def namedSet? (c : Char) : Option (CharSet × Bool) :=
  match c with
  | 'w' => .some (.word, false)
  | 'W' => .some (.word, true)
  | 'd' => .some (.digit, false)
  | 'D' => .some (.digit, true)
  | 's' => .some (.blank, false)
  | 'S' => .some (.blank, true)
  | _ => none

/-- The character that a letter after a backslash stands for. Other marks stand for themselves, and other
letters and digits for nothing. -/
def escapedChar? (c : Char) : Option Char :=
  match c with
  | 'n' => .some '\n'
  | 't' => .some '\t'
  | 'r' => .some '\r'
  | 'f' => .some '\x0c'
  | 'v' => .some '\x0b'
  | 'a' => .some '\x07'
  | c => if c.isAlphanum then none else .some c

def escapedItem (c : Char) : Except ReadError ClassItem :=
  match namedSet? c with
  | .some (s, negated) => .ok (.set s negated)
  | none =>
    match escapedChar? c with
    | .some c => .ok (.range c c)
    | none => .error .badEscape

/-- One end of a range: a character that may be escaped, and what follows. -/
def classEnd : (cs : List Char) → Except ReadError (ClassItem × { r : List Char // r.length < cs.length })
  | [] => .error .openClass
  | ['\\'] => .error .openClass
  | '\\' :: c :: cs => do
    return (← escapedItem c, ⟨cs, by simp only [List.length_cons]; omega⟩)
  | c :: cs => .ok (.range c c, ⟨cs, by simp⟩)

/-- The characters after a dash, if there are any. -/
def afterDash? : (cs : List Char) → Option { p : Char × List Char // (p.1 :: p.2).length < cs.length }
  | '-' :: d :: more => .some ⟨(d, more), Nat.lt_succ_self _⟩
  | _ => none

/-- The members of a class up to its closing bracket, which stands for itself in the first place. -/
def classItems (first : Bool) (cs : List Char) :
    Except ReadError (List ClassItem × { r : List Char // r.length ≤ cs.length }) :=
  match cs with
  | [] => .error .openClass
  | c :: rest =>
    if c == ']' && !first then .ok ([], ⟨rest, Nat.le_succ _⟩)
    else do
      let (lo, ⟨after, h⟩) ← classEnd (c :: rest)
      match afterDash? after with
      | .some ⟨(d, more), hdash⟩ =>
        have hd : (d :: more).length < (c :: rest).length := Nat.lt_trans hdash h
        if d == ']' then
          let (items, ⟨r, hr⟩) ← classItems false (d :: more)
          return (lo :: .range '-' '-' :: items, ⟨r, Nat.le_trans hr (Nat.le_of_lt hd)⟩)
        else
          let (hi, ⟨after, h2⟩) ← classEnd (d :: more)
          match lo, hi with
          | .range a _, .range b _ =>
            if b.toNat < a.toNat then throw .badRange
            else
              let (items, ⟨r, hr⟩) ← classItems false after
              return (.range a b :: items, ⟨r, Nat.le_trans hr (Nat.le_of_lt (Nat.lt_trans h2 hd))⟩)
          | _, _ => throw .badRange
      | none =>
        let (items, ⟨r, hr⟩) ← classItems false after
        return (lo :: items, ⟨r, Nat.le_trans hr (Nat.le_of_lt h)⟩)
termination_by cs.length
decreasing_by
  · exact hd
  · exact Nat.lt_trans h2 hd
  · exact h

/-- The expression of the characters, read within the group `g`; `outer` are the groups around it. -/
def readFrom (g : Group) (outer : List Group) (cs : List Char) : Except ReadError Regex :=
  match cs with
  | [] => if outer.isEmpty then .ok g.regex else .error .openGroup
  | '(' :: '?' :: ':' :: cs => readFrom .start (g :: outer) cs
  | '(' :: cs => readFrom .start (g :: outer) cs
  | ')' :: cs =>
    match outer with
    | [] => .error .unopenedGroup
    | o :: outer => readFrom (o.push g.regex) outer cs
  | '|' :: cs => readFrom g.bar outer cs
  | '.' :: cs => readFrom (g.push any) outer cs
  | '^' :: cs => readFrom (g.push textStart) outer cs
  | '$' :: cs => readFrom (g.push textEnd) outer cs
  | '[' :: '^' :: cs => do
    let (items, ⟨rest, _h⟩) ← classItems true cs
    readFrom (g.push (oneOf items true)) outer rest
  | '[' :: cs => do
    let (items, ⟨rest, _h⟩) ← classItems true cs
    readFrom (g.push (oneOf items false)) outer rest
  | ['\\'] => .error .badEscape
  | '\\' :: c :: cs => do
    match ← escapedItem c with
    | item => readFrom (g.push (oneOf [item] false)) outer cs
  | c :: '?' :: cs =>
    if c == '*' || c == '+' || c == '?' then do
      let g ← g.repeatLast c
      readFrom g outer cs
    else readFrom (g.push (char c)) outer ('?' :: cs)
  | c :: cs =>
    if c == '*' || c == '+' || c == '?' then do
      let g ← g.repeatLast c
      readFrom g outer cs
    else readFrom (g.push (char c)) outer cs
termination_by cs.length
decreasing_by
  · exact Nat.lt_succ_of_le (Nat.le_succ_of_le (Nat.le_succ _))
  · exact Nat.lt_succ_self _
  · exact Nat.lt_succ_self _
  · exact Nat.lt_succ_self _
  · exact Nat.lt_succ_self _
  · exact Nat.lt_succ_self _
  · exact Nat.lt_succ_self _
  · exact Nat.lt_succ_of_le (Nat.le_succ_of_le _h)
  · exact Nat.lt_succ_of_le _h
  · exact Nat.lt_succ_of_le (Nat.le_succ _)
  · exact Nat.lt_succ_of_le (Nat.le_succ _)
  · exact Nat.lt_succ_self _
  · exact Nat.lt_succ_self _
  · exact Nat.lt_succ_self _

/-- The regular expression that a text spells. -/
def ofString (s : String) : Except ReadError Regex :=
  readFrom .start [] s.toList

end Excerpt.Regex
