import Excerpt.Text.Utf8
import Excerpt.Tree.Node

/-!
# Readings

The grammar reads constructs off the front of a list of tokens. A reading holds what was read and the
tokens left, with the fact that no token was added: this is what makes the grammar's recursion end.
Tokens are passed over by `skipTo`, which never passes the end token.
-/

namespace Excerpt

/-- Why no tree can be built. -/
inductive ParseError where
  /-- A construct needs a token after the end token. -/
  | pastEnd
  /-- The bytes of a token that names a node are no text. -/
  | notText (cause : Utf8.DecodeError)
deriving Repr, DecidableEq

namespace ParseError

def message : ParseError → String
  | pastEnd => "list index out of range"
  | notText cause => cause.message

end ParseError

/-- A value read off the front of `ts`, and the tokens after it. -/
structure Reading (α : Type) (ts : List Token) where
  value : α
  rest : List Token
  le : rest.length ≤ ts.length

namespace Reading

/-- The value `a`, for which no token is taken. -/
def stay {α : Type} (a : α) (ts : List Token) : Reading α ts :=
  ⟨a, ts, Nat.le_refl _⟩

/-- The value `a`, for which one token is taken. -/
def past {α : Type} (a : α) (t : Token) (ts : List Token) : Reading α (t :: ts) :=
  ⟨a, ts, Nat.le_succ _⟩

/-- The value `a`, for which all tokens are taken. -/
def whole {α : Type} (a : α) (ts : List Token) : Reading α ts :=
  ⟨a, [], Nat.zero_le _⟩

/-- A reading of the tail of a list is one of the list. -/
def push {α : Type} {ts : List Token} (t : Token) (r : Reading α ts) : Reading α (t :: ts) :=
  ⟨r.value, r.rest, Nat.le_succ_of_le r.le⟩

/-- A reading of what an earlier one left is one of the whole. -/
def within {α : Type} {ts us : List Token} (h : us.length ≤ ts.length) (r : Reading α us) : Reading α ts :=
  ⟨r.value, r.rest, Nat.le_trans r.le h⟩

def withValue {α β : Type} {ts : List Token} (b : β) (r : Reading α ts) : Reading β ts :=
  ⟨b, r.rest, r.le⟩

end Reading

/-- What the grammar makes of `ts`: a reading or an error. -/
abbrev Outcome (α : Type) (ts : List Token) := Except ParseError (Reading α ts)

namespace Tokens

/-- The next token is spelled `s`. -/
def at? (s : String) (ts : List Token) : Bool :=
  ts.head?.any (·.spelled s)

/-- The next token has the class `k`. -/
def atKind? (k : Token.Kind) (ts : List Token) : Bool :=
  ts.head?.any (·.kind == k)

/-- Nothing but the end token is left, or not even that. -/
def atEnd? (ts : List Token) : Bool :=
  ts.head?.all (·.isFinish)

/-- The tokens from the first one on that `p` holds of, or from the end token on. -/
def skipTo (p : Token → Bool) (ts : List Token) : List Token :=
  ts.dropWhile fun t => !(p t || t.isFinish)

/-- The tokens before the first one that `p` holds of, and before the end token. -/
def before (p : Token → Bool) (ts : List Token) : List Token :=
  ts.takeWhile fun t => !(p t || t.isFinish)

/-- The tokens after a next token spelled `s`, and all tokens if the next one is spelled otherwise. -/
def skip (s : String) (ts : List Token) : List Token :=
  if at? s ts then ts.tail else ts

theorem length_skipTo_le (p : Token → Bool) (ts : List Token) : (skipTo p ts).length ≤ ts.length :=
  (List.dropWhile_suffix _).length_le

theorem length_skip_le (s : String) (ts : List Token) : (skip s ts).length ≤ ts.length := by
  unfold skip
  split <;> simp

theorem length_rest_le {t : Token} {rest ts : List Token} (h : (t :: rest).length ≤ ts.length) :
    rest.length ≤ ts.length :=
  Nat.le_of_succ_le h

end Tokens

namespace Reading

/-- Passes over tokens after a reading: those before the first one that `p` holds of. -/
def skipTo {α : Type} {ts : List Token} (p : Token → Bool) (r : Reading α ts) : Reading α ts :=
  ⟨r.value, Tokens.skipTo p r.rest, Nat.le_trans (Tokens.length_skipTo_le ..) r.le⟩

/-- Passes over a token spelled `s` after a reading, if there is one. -/
def skip {α : Type} {ts : List Token} (s : String) (r : Reading α ts) : Reading α ts :=
  ⟨r.value, Tokens.skip s r.rest, Nat.le_trans (Tokens.length_skip_le ..) r.le⟩

/-- Passes over tokens after a reading as long as `p` holds of them. -/
def skipWhile {α : Type} {ts : List Token} (p : Token → Bool) (r : Reading α ts) : Reading α ts :=
  ⟨r.value, r.rest.dropWhile p, Nat.le_trans (List.dropWhile_suffix _).length_le r.le⟩

end Reading

end Excerpt
