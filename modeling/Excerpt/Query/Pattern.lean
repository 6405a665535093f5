import Excerpt.Table

/-!
# Query patterns

A query is a list of patterns over syntax trees. A pattern asks for a node of a kind, with patterns for
some of its fields and children and tests on what was captured; or for a node that another pattern
accepts; or for one of several patterns; or for any node. A pattern may be optional within another one,
and may capture the node it accepts under a name.
-/

namespace Excerpt

/-- A test `(#name argument …)` on captured nodes. -/
structure Predicate where
  name : String
  args : List String
deriving Repr, DecidableEq

/-- What may follow a pattern: a mark that it is optional, and a name for the node it accepts. -/
structure Suffix where
  optional : Bool
  capture : Option String
deriving Repr, DecidableEq

/-- A pattern of a query. -/
inductive Pattern where
  | node (kind : String) (fields : List (String × Pattern)) (children : List Pattern)
      (tests : List Predicate) (suffix : Suffix)
  | group (inner : Pattern) (tests : List Predicate) (suffix : Suffix)
  | choice (alternatives : List Pattern) (suffix : Suffix)
  | anything (suffix : Suffix)
deriving Repr

namespace Pattern

def suffix : Pattern → Suffix
  | node _ _ _ _ s => s
  | group _ _ s => s
  | choice _ s => s
  | anything s => s

def withSuffix (s : Suffix) : Pattern → Pattern
  | node kind fields children tests _ => node kind fields children tests s
  | group inner tests _ => group inner tests s
  | choice alternatives _ => choice alternatives s
  | anything _ => anything s

mutual

/-- The kinds of node that a pattern can accept; none if it may accept a node of any kind. -/
def rootKinds? : Pattern → Option (List String)
  | node kind _ _ _ _ => some [kind]
  | group inner _ _ => rootKinds? inner
  | choice alternatives _ => rootKindsAll? alternatives
  | anything _ => none

/-- The kinds of node that one of several patterns can accept. -/
def rootKindsAll? : List Pattern → Option (List String)
  | [] => some []
  | p :: ps => do
    let kinds ← rootKinds? p
    let more ← rootKindsAll? ps
    return kinds ++ more

end

/-- Whether the pattern is worth trying on a node of a kind. -/
def mayAccept (p : Pattern) (kind : String) : Bool :=
  p.rootKinds?.all (·.contains kind)

end Pattern

/-- Why a query cannot be answered. -/
inductive QueryError where
  /-- The text of the query ends within a pattern. -/
  | unclosed
  /-- The expression of a test is malformed. -/
  | badExpression
  /-- Tests are not allowed. -/
  | refused
deriving Repr, DecidableEq

/-- A list of patterns, which are told apart by their place. -/
structure Query where
  patterns : List Pattern
deriving Repr

namespace Query

/-- The kinds of node that a match can start at, each once; none if a match may start at any node. -/
def rootKinds? (q : Query) : Option (List String) :=
  (Pattern.rootKindsAll? q.patterns).map List.eraseDups

end Query

end Excerpt
