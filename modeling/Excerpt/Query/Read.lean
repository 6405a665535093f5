import Excerpt.Query.Pattern
import Excerpt.Text.Blank
import Excerpt.Text.Word

/-!
# Reading queries

The text of a query is cut into quoted texts, brackets and question marks, captures `@name`, test names
`#name`, and words, which a colon may close; a comment runs from a semicolon to the end of its line, and
all else is passed over. A token stands for itself: a word after an opening parenthesis is a node kind
whatever it looks like.
-/

namespace Excerpt.Query

/-- How many characters remain of a quoted text up to and including its closing quote. A backslash keeps
the character after it, which must not be a line feed, from closing the text. -/
def quotedLength : List Char → Option Nat
  | '"' :: _ => some 1
  | '\\' :: c :: cs => if c == '\n' then none else (quotedLength cs).map (· + 2)
  | ['\\'] => none
  | _ :: cs => (quotedLength cs).map (· + 1)
  | [] => none

/-- How many characters from the front satisfy `p`. -/
def run (p : Char → Bool) (cs : List Char) : Nat :=
  (cs.takeWhile p).length

/-- The number of characters of the token that starts with `c`, without `c`, if one starts there. -/
def tokenLength? (c : Char) (cs : List Char) : Option Nat :=
  if c == '"' then quotedLength cs
  else if ['[', ']', '(', ')', '?'].contains c then some 0
  else if c == '@' then nonzero (run (fun d => Text.isWord d || d == '.' || d == '-') cs)
  else if c == '#' then nonzero (run (fun d => Text.isWord d || d == '?' || d == '!' || d == '-') cs)
  else if c.isAlpha || c == '_' then
    let n := run (fun d => Text.isWord d || d == '-') cs
    some (if (cs.drop n).head? == some ':' then n + 1 else n)
  else if c == ';' then some (run (· != '\n') cs)
  else none
where
  nonzero (n : Nat) : Option Nat := if n == 0 then none else some n

/-- The tokens of a query, without comments. -/
def tokens : List Char → List String
  | [] => []
  | c :: cs =>
    match tokenLength? c cs with
    | none => tokens cs
    | some n =>
      let rest := tokens (cs.drop n)
      if c == ';' then rest else String.ofList (c :: cs.take n) :: rest
termination_by cs => cs.length
decreasing_by
  · simp
  · simp only [List.length_drop, List.length_cons]; omega

/-- A value read off tokens, of which fewer are left. -/
abbrev Reading (α : Type) (ts : List String) :=
  Except QueryError (α × { r : List String // r.length < ts.length })

def isCapture (t : String) : Bool := t.toList.head? == some '@'

/-- Whether a token is the name of a test. -/
def isTest (t : String) : Bool := t.toList.head? == some '#'

/-- The field name of a word that a colon closes. -/
def fieldName? (t : String) : Option String :=
  if t.toList.getLast? == some ':' && !isCapture t && !isTest t then
    some (String.ofList t.toList.dropLast)
  else none

/-- The tokens of a test up to its closing parenthesis. -/
def testArgs : (ts : List String) → Reading (List String) ts
  | [] => .error .unclosed
  | t :: ts =>
    if t == ")" then .ok ([], ⟨ts, by simp⟩)
    else do
      let (args, ⟨rest, h⟩) ← testArgs ts
      return (t :: args, ⟨rest, by simp only [List.length_cons]; omega⟩)

/-- The mark and the name after a pattern. -/
def suffix (ts : List String) : Suffix × { r : List String // r.length ≤ ts.length } :=
  let optional := ts.head? == some "?"
  let after := if optional then ts.tail else ts
  have hafter : after.length ≤ ts.length := by
    simp only [after]
    split <;> simp
  match after, hafter with
  | [], h => (⟨optional, none⟩, ⟨[], h⟩)
  | t :: rest, h =>
    if isCapture t then (⟨optional, some (String.ofList (t.toList.drop 1))⟩, ⟨rest, Nat.le_of_succ_le h⟩)
    else (⟨optional, none⟩, ⟨t :: rest, h⟩)

/-- What has been read of the inside of a pattern in parentheses. -/
structure Inside where
  fields : Table String Pattern
  children : List Pattern
  tests : List Predicate

namespace Inside

/-- Nothing read yet. -/
def empty : Inside := ⟨[], [], []⟩

def withField (name : String) (p : Pattern) (i : Inside) : Inside :=
  { i with fields := i.fields.put name p }

def withChild (p : Pattern) (i : Inside) : Inside :=
  { i with children := i.children ++ [p] }

def withTest (t : Predicate) (i : Inside) : Inside :=
  { i with tests := i.tests ++ [t] }

end Inside

mutual

/-- The pattern at the front of the tokens, with what follows it. -/
def pattern (ts : List String) : Reading Pattern ts := do
  let (p, ⟨rest, h⟩) ← bare ts
  let (s, ⟨rest', h'⟩) := suffix rest
  return (p.withSuffix s, ⟨rest', Nat.lt_of_le_of_lt h' h⟩)
termination_by (ts.length, 1)
decreasing_by exact Prod.Lex.right _ (by decide)

/-- A pattern without what follows it. -/
def bare (ts : List String) : Reading Pattern ts :=
  match ts with
  | [] => .error .unclosed
  | t :: ts =>
    if t == "[" then do
      let (ps, ⟨rest, h⟩) ← alternatives ts
      return (.choice ps ⟨false, none⟩, ⟨rest, Nat.lt_succ_of_lt h⟩)
    else if t == "(" then
      match ts with
      | [] => .error .unclosed
      | u :: us =>
        if u == "(" || u == "[" then do
          let (inner, ⟨rest, h⟩) ← pattern (u :: us)
          let (i, ⟨rest', h'⟩) ← inside true .empty rest
          return (.group inner i.tests ⟨false, none⟩,
            ⟨rest', Nat.lt_succ_of_lt (Nat.lt_trans h' h)⟩)
        else do
          let (i, ⟨rest, h⟩) ← inside false .empty us
          return (.node u i.fields i.children i.tests ⟨false, none⟩,
            ⟨rest, Nat.lt_succ_of_lt (Nat.lt_succ_of_lt h)⟩)
    else .ok (.anything ⟨false, none⟩, ⟨ts, by simp⟩)
termination_by (ts.length, 0)
decreasing_by
  · exact Prod.Lex.left _ _ (by simp)
  · exact Prod.Lex.left _ _ (by simp)
  · exact Prod.Lex.left _ _ (Nat.lt_succ_of_lt h)
  · exact Prod.Lex.left _ _ (by simp only [List.length_cons]; omega)

/-- The patterns of a choice up to its closing bracket. -/
def alternatives (ts : List String) : Reading (List Pattern) ts :=
  match ts with
  | [] => .error .unclosed
  | t :: ts =>
    if t == "]" then .ok ([], ⟨ts, by simp⟩)
    else do
      let (p, ⟨rest, h⟩) ← pattern (t :: ts)
      let (ps, ⟨rest', h'⟩) ← alternatives rest
      return (p :: ps, ⟨rest', Nat.lt_trans h' h⟩)
termination_by (ts.length, 2)
decreasing_by
  · exact Prod.Lex.right _ (by decide)
  · exact Prod.Lex.left _ _ h

/-- The fields, children and tests of a pattern up to its closing parenthesis. A group has no fields. Other
tokens are passed over. -/
def inside (isGroup : Bool) (i : Inside) (ts : List String) : Reading Inside ts :=
  match ts with
  | [] => .error .unclosed
  | t :: ts =>
    if t == ")" then .ok (i, ⟨ts, by simp⟩)
    else if t == "(" && ts.head?.any isTest then do
      let (args, ⟨rest, h⟩) ← testArgs ts.tail
      have hrest : rest.length < ts.length := Nat.lt_of_lt_of_le h (by simp)
      let (i, ⟨rest', h'⟩) ← inside isGroup (i.withTest ⟨ts.headD "", args⟩) rest
      return (i, ⟨rest', Nat.lt_succ_of_lt (Nat.lt_trans h' hrest)⟩)
    else if t == "(" || t == "[" then do
      let (p, ⟨rest, h⟩) ← pattern (t :: ts)
      let (i, ⟨rest', h'⟩) ← inside isGroup (i.withChild p) rest
      return (i, ⟨rest', Nat.lt_trans h' h⟩)
    else
      match if isGroup then none else fieldName? t with
      | some name => do
        let (p, ⟨rest, h⟩) ← pattern ts
        let (i, ⟨rest', h'⟩) ← inside isGroup (i.withField name p) rest
        return (i, ⟨rest', Nat.lt_succ_of_lt (Nat.lt_trans h' h)⟩)
      | none => do
        let (i, ⟨rest, h⟩) ← inside isGroup i ts
        return (i, ⟨rest, Nat.lt_succ_of_lt h⟩)
termination_by (ts.length, 2)
decreasing_by
  · exact Prod.Lex.left _ _ (Nat.lt_succ_of_lt hrest)
  · exact Prod.Lex.right _ (by decide)
  · exact Prod.Lex.left _ _ h
  · exact Prod.Lex.left _ _ (by simp)
  · exact Prod.Lex.left _ _ (Nat.lt_succ_of_lt h)
  · exact Prod.Lex.left _ _ (by simp)

end

def patternsOf (ts : List String) : Except QueryError (List Pattern) :=
  match ts with
  | [] => .ok []
  | t :: ts => do
    let (p, ⟨rest, h⟩) ← pattern (t :: ts)
    have : rest.length < ts.length + 1 := h
    let ps ← patternsOf rest
    return p :: ps
termination_by ts.length

/-- The alternatives of a choice that captures nothing count as patterns of their own. -/
def flatten : Pattern → List Pattern
  | .choice ps ⟨_, none⟩ => ps
  | p => [p]

/-- The query that a text spells. -/
def ofString (s : String) : Except QueryError Query := do
  let ps ← patternsOf (tokens s.toList)
  return ⟨ps.flatMap flatten⟩

end Excerpt.Query
