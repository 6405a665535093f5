import Excerpt.Source

/-!
# Definitions of the message language

Messages, enumerations and services are found by their names, outer ones before those within them.
-/

namespace Excerpt.Proto

/-- Whether one of the nodes is of the kind `kind` and reads `name`. An empty text names nothing. -/
def hasName (src : Bytes) (kind name : String) : List Node → Except Failure Bool
  | [] => return false
  | n :: ns =>
    if n.kind == kind then do
      let text ← n.text? src
      if !text.isEmpty && text == name then return true else hasName src kind name ns
    else hasName src kind name ns

def defines (src : Bytes) (kind : ProtoKind) (name : String) (n : Node) : Except Failure Bool :=
  if n.kind == kind.keyword then hasName src (kind.keyword ++ "_name") name n.children
  else return false

/-- The first of some nodes that is the definition of a name. -/
def findAmong (src : Bytes) (kind : ProtoKind) (name : String) : List Node → Except Failure (Option Node)
  | [] => return none
  | n :: ns => do
    if ← defines src kind name n then return some n else findAmong src kind name ns

def find (s : Source) (kind : ProtoKind) (name : String) : Except Failure Node := do
  let src ← s.content
  let root ← s.tree
  match ← findAmong src kind name root.preorder with
  | some n => return n
  | none => throw (.noProto kind name s.path.toString)

end Excerpt.Proto
