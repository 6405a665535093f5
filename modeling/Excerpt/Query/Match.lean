import Excerpt.Query.Pattern
import Excerpt.Regex.Read
import Excerpt.Text.Utf8
import Excerpt.Tree.Node

/-!
# Matching queries

A match of a pattern at a node fills a table of captures. A failed attempt at a child or at an
alternative takes back the names it entered, but keeps what it added under names that were there before.
The matches of a query in a tree are listed by the place where their node starts.
-/

namespace Excerpt

/-- The nodes captured under each name, in order of capture. -/
abbrev Captures := Table String (List Node)

namespace Captures

def add (caps : Captures) (name : String) (n : Node) : Captures :=
  caps.put name ((caps.get? name).getD [] ++ [n])

/-- Adds a node under the name of a suffix, if it has one. -/
def addFor (caps : Captures) (s : Suffix) (n : Node) : Captures :=
  s.capture.elim caps (caps.add · n)

/-- The captures after a failed attempt that started with `before`: names entered since are dropped. -/
def rollback (before after : Captures) : Captures :=
  after.take before.length

end Captures

/-- The outcome of an attempt: whether it succeeded, and the captures it leaves. -/
abbrev Attempt := Except QueryError (Bool × Captures)

namespace Predicate

/-- The value of a test's second argument, without its quotes. -/
def value (s : String) : String :=
  String.ofList (Text.trimBy (· == '"') s.toList)

/-- The capture that a test's first argument names. -/
def subject (s : String) : String :=
  match s.toList with
  | '@' :: cs => String.ofList cs
  | _ => s

/-- Whether the test holds of the captures. A test with fewer than two arguments or with an unknown name
holds of any captures, but a test on a name without a node holds of none. -/
def holds (src : Bytes) (caps : Captures) (t : Predicate) : Except QueryError Bool :=
  match t.args with
  | first :: second :: _ =>
    match ((caps.get? (subject first)).getD []).getLast? with
    | none => .ok false
    | some n =>
      let text := Utf8.decodeLossy (n.text src)
      let occurs : Except QueryError Bool :=
        match Regex.ofString (value second) with
        | .ok r => .ok (r.occursIn text)
        | .error _ => .error .badExpression
      match t.name with
      | "#eq?" => .ok (text == value second)
      | "#not-eq?" => .ok (text != value second)
      | "#match?" => occurs
      | "#not-match?" => occurs.map (!·)
      | _ => .ok true
  | _ => .ok true

def allHold (src : Bytes) (caps : Captures) : List Predicate → Except QueryError Bool
  | [] => .ok true
  | t :: ts => do
    if ← t.holds src caps then allHold src caps ts else return false

end Predicate

namespace Pattern

/-- The first child, from place `i` on and not at a used place, at which `attempt` succeeds. -/
def firstChild (attempt : Node → Captures → Attempt) (used : List Nat) (caps : Captures) (i : Nat) :
    List Node → Except QueryError (Option Nat × Captures)
  | [] => .ok (none, caps)
  | n :: ns =>
    if used.contains i then firstChild attempt used caps (i + 1) ns
    else do
      let (found, caps') ← attempt n caps
      if found then return (some i, caps')
      else firstChild attempt used (caps.rollback caps') (i + 1) ns

mutual

def tryAt (src : Bytes) : Pattern → Node → Captures → Attempt
  | node kind fields children tests suffix, n, caps => do
    if n.kind != kind then return (false, caps)
    let (found, caps) ← tryFields src fields n caps
    if !found then return (false, caps)
    let (found, caps) ← tryChildren src children n [] caps
    if !found then return (false, caps)
    if ← Predicate.allHold src caps tests then return (true, caps.addFor suffix n)
    else return (false, caps)
  | group inner tests suffix, n, caps => do
    let (found, caps) ← tryAt src inner n caps
    if !found then return (false, caps)
    if ← Predicate.allHold src caps tests then return (true, caps.addFor suffix n)
    else return (false, caps)
  | choice alternatives _, n, caps => tryAlternatives src alternatives n caps
  | anything suffix, n, caps => .ok (true, caps.addFor suffix n)

/-- Tries the patterns of fields at the children that carry the fields. -/
def tryFields (src : Bytes) : List (String × Pattern) → Node → Captures → Attempt
  | [], _, caps => .ok (true, caps)
  | (name, p) :: fields, n, caps =>
    match n.field? name with
    | none => if p.suffix.optional then tryFields src fields n caps else .ok (false, caps)
    | some child => do
      let (found, caps) ← tryAt src p child caps
      if found then tryFields src fields n caps else return (false, caps)

/-- Tries the patterns of children, each at the first child that accepts it and was not taken before. -/
def tryChildren (src : Bytes) : List Pattern → Node → List Nat → Captures → Attempt
  | [], _, _, caps => .ok (true, caps)
  | p :: ps, n, used, caps => do
    let (found, caps) ← firstChild (fun child caps => tryAt src p child caps) used caps 0 n.children
    match found with
    | some i => tryChildren src ps n (i :: used) caps
    | none => if p.suffix.optional then tryChildren src ps n used caps else return (false, caps)

/-- Tries patterns in turn until one accepts the node. -/
def tryAlternatives (src : Bytes) : List Pattern → Node → Captures → Attempt
  | [], _, caps => .ok (false, caps)
  | p :: ps, n, caps => do
    let (found, caps') ← tryAt src p n caps
    if found then return (true, caps') else tryAlternatives src ps n (caps.rollback caps')

end

end Pattern

namespace Node

mutual

/-- The node and its descendants, each before its children, children from right to left. -/
def walk : Node → List Node
  | ⟨kind, span, children, fields⟩ => ⟨kind, span, children, fields⟩ :: walkAll children

/-- The nodes of several trees, the last tree first. -/
def walkAll : List Node → List Node
  | [] => []
  | n :: ns => walkAll ns ++ n.walk

end

end Node

namespace Query

/-- A match: the place of its pattern in the query, the node, and the captures. -/
structure Match where
  index : Nat
  node : Node
  captures : Captures
deriving Repr

/-- The matches of patterns at a node; `i` is the place of the first pattern. -/
def matchesAt (src : Bytes) (n : Node) (i : Nat) : List Pattern → Except QueryError (List Match)
  | [] => .ok []
  | p :: ps => do
    if p.mayAccept n.kind then
      let (found, caps) ← p.tryAt src n []
      let more ← matchesAt src n (i + 1) ps
      return if found then ⟨i, n, caps⟩ :: more else more
    else matchesAt src n (i + 1) ps

/-- The matches at some nodes, in the order of the nodes. -/
def matchesAmong (q : Query) (src : Bytes) : List Node → Except QueryError (List Match)
  | [] => .ok []
  | n :: ns => do
    let here ← matchesAt src n 0 q.patterns
    let more ← matchesAmong q src ns
    return here ++ more

/-- The matches ordered by the start of their nodes; matches that start together keep their order. -/
def byStart (ms : List Match) : List Match :=
  ms.mergeSort fun a b => a.node.start ≤ b.node.start

/-- The matches within a node, found by a walk over its descendants. -/
def matchesIn (q : Query) (src : Bytes) (n : Node) : Except QueryError (List Match) :=
  (q.matchesAmong src n.walk).map byStart

/-- The descendants of a node that have one of the kinds, kind by kind. -/
def candidates (kinds : List String) (n : Node) : List Node :=
  kinds.flatMap fun kind => n.walk.filter (·.kind == kind)

/-- The matches in a whole tree. Where the query says which kinds of node a match starts at, only nodes of
these kinds are tried. -/
def matchesFrom (q : Query) (src : Bytes) (root : Node) : Except QueryError (List Match) :=
  match q.rootKinds? with
  | some kinds => (q.matchesAmong src (candidates kinds root)).map byStart
  | none => q.matchesIn src root

end Query

end Excerpt
