import Excerpt.Cpp.Scope

/-!
# The first declaration of a name

A tree is searched from top to bottom for the first node of given kinds that declares a name. Bodies of
namespaces and classes are searched first with the scope they open, then once more as plain children. A
function within a template is given as the whole template.
-/

namespace Excerpt.Cpp

/-- What is searched for: a name, and the kinds of node that may declare it. -/
structure Wanted where
  target : Target
  kinds : List String
deriving Repr

namespace Wanted

/-- Whether nodes of a kind are searched for. -/
def hasKind (w : Wanted) (kind : String) : Bool :=
  w.kinds.contains kind

/-- Whether a part of a scope fits a qualifier, template arguments apart. -/
def partFits (part : Part) (qualifier : String) : Except Failure Bool :=
  match part with
  | some name => .ok (name == qualifier || baseName name == baseName qualifier)
  | none => .error .unnamedType

def partsFit : List Part → List String → Except Failure Bool
  | p :: ps, q :: qs => do
    if ← partFits p q then partsFit ps qs else return false
  | _, _ => return true

/-- Whether the end of a scope fits the qualifiers of the target, template arguments apart. -/
def scopeFits (w : Wanted) (scope : List Part) : Except Failure Bool :=
  let n := w.target.qualifiers.length
  if scope.length < n then return false
  else partsFit (scope.drop (scope.length - n)) w.target.qualifiers

/-- Whether a class declares the target. -/
def isRecord (w : Wanted) (kind : String) (name : Option String) (scope : List String) : Bool :=
  w.hasKind kind && name == some w.target.leaf && w.target.fits scope

/-- Whether a variable declares the target. -/
def isVariable (w : Wanted) (src : Bytes) (n : Node) (scope : List String) : Except Failure Bool := do
  return (← variableName? src n) == some w.target.leaf && w.target.fits scope

/-- Whether a function definition declares the target, with or without its template arguments. -/
def isFunction (w : Wanted) (src : Bytes) (n : Node) (scope : List String) : Except Failure Bool :=
  match n.field? "declarator" with
  | none => return false
  | some declarator => do
    let name ←
      match functionDeclarator? declarator with
      | some d => fullName src scope d
      | none => pure ⟨none, []⟩
    if name.leaf == some w.target.leaf || name.leaf.map baseName == some w.target.leaf then
      w.scopeFits name.scope
    else return false

/-- Whether a declared member function declares the target. -/
def isMember (w : Wanted) (src : Bytes) (n : Node) (scope : List String) : Except Failure Bool :=
  match n.field? "declarator" with
  | none => return false
  | some declarator =>
    if declarator.kind == "function_declarator" then do
      let name ← plainName src scope declarator
      return name.leaf == w.target.leaf && w.target.fits name.scope
    else return false

end Wanted

/-- The kinds of node that open a class scope. -/
def recordKinds : List String := ["class_specifier", "struct_specifier", "enum_specifier"]

/-- The outcome of a search. -/
abbrev Found := Except Failure (Option Node)

/-- Searches on where nothing was found. -/
def Found.orElse (a : Found) (b : Unit → Found) : Found :=
  match a with
  | .ok none => b ()
  | _ => a

mutual

/-- The first declaration in a tree that stands in `scope`. -/
def first (w : Wanted) (src : Bytes) (scope : List String) : Node → Found
  | ⟨kind, span, children, fields⟩ =>
    let n : Node := ⟨kind, span, children, fields⟩
    let rest : Unit → Found := fun _ => firstAmong w src scope children
    if kind == "namespace_definition" then do
      let names ← namespaceNames src n
      match fields.lookup "body" with
      | some i => Found.orElse (firstInBody w src (scope ++ names) i children) rest
      | none => rest ()
    else if recordKinds.contains kind then do
      let name ← recordName? src n
      if w.isRecord kind name scope then return some n
      match name.filter (!·.isEmpty) with
      | some name => Found.orElse (firstInRecord w src (scope ++ [name]) children) rest
      | none => rest ()
    else if kind == "declaration" && w.hasKind "declaration" then do
      if ← w.isVariable src n scope then return some n
      rest ()
    else if kind == "function_definition" && w.hasKind "function_definition" then do
      if ← w.isFunction src n scope then return some n
      rest ()
    else if kind == "field_declaration" && w.hasKind "function_definition" then do
      if ← w.isMember src n scope then return some n
      rest ()
    else if kind == "template_declaration" then
      Found.orElse (firstInTemplate w src scope n children) rest
    else rest ()

def firstAmong (w : Wanted) (src : Bytes) (scope : List String) : List Node → Found
  | [] => .ok none
  | n :: ns => Found.orElse (first w src scope n) fun _ => firstAmong w src scope ns

/-- The first declaration in the body of a namespace, which is the child at a place. -/
def firstInBody (w : Wanted) (src : Bytes) (scope : List String) (i : Nat) : List Node → Found
  | [] => .ok none
  | ⟨kind, _, children, _⟩ :: ns =>
    match i with
    | 0 => if kind == "declaration_list" then firstAmong w src scope children else .ok none
    | i + 1 => firstInBody w src scope i ns

/-- The first declaration among the members of a class. -/
def firstInRecord (w : Wanted) (src : Bytes) (scope : List String) : List Node → Found
  | [] => .ok none
  | ⟨kind, _, children, _⟩ :: ns =>
    if kind == "field_declaration_list" then
      Found.orElse (firstAmong w src scope children) fun _ => firstInRecord w src scope ns
    else firstInRecord w src scope ns

/-- The first declaration in a template: the template itself if it is found in its function. -/
def firstInTemplate (w : Wanted) (src : Bytes) (scope : List String) (template : Node) :
    List Node → Found
  | [] => .ok none
  | n :: ns =>
    if n.kind == "function_definition" then
      match first w src scope n with
      | .ok (some _) => .ok (some template)
      | .ok none => firstInTemplate w src scope template ns
      | .error e => .error e
    else if recordKinds.contains n.kind then
      Found.orElse (first w src scope n) fun _ => firstInTemplate w src scope template ns
    else firstInTemplate w src scope template ns

end

/-- The first node of one of the kinds that declares the name. -/
def find (src : Bytes) (root : Node) (name : String) (kinds : List String) : Found :=
  first ⟨.ofString name, kinds⟩ src [] root

end Excerpt.Cpp
