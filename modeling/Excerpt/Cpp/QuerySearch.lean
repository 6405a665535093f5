import Excerpt.Cpp.Name
import Excerpt.Passage
import Excerpt.Query.Search

/-!
# Definitions by query

Classes and functions can also be found by queries, which name the nodes from the outermost scope to the
definition. The parts of the name stand in the query text as they are. Queries go two scopes deep for
classes and one for functions.
-/

namespace Excerpt.Cpp

/-- The test that the node captured as `label` is called `name`. A line feed ends it, so that a comment
within the name ends with it too. -/
def calledTest (label name : String) : String :=
  s!"@{label} (#eq? @{label} \"{name}\")\n"

/-- The patterns of a class or structure called `name`, captured as the result. -/
def recordPatterns (name : String) : List String :=
  let test := calledTest "name" name
  ["struct_specifier", "class_specifier"].map fun kind =>
    s!"({kind} name: (type_identifier) {test}) @result"

/-- A namespace called `ns` whose body holds the pattern `inner`. -/
def inNamespace (ns inner : String) : String :=
  let test := calledTest "ns" ns
  s!"(namespace_definition name: (namespace_identifier) {test}body: (declaration_list {inner}))"

/-- A class of the kind `kind` called `outer` whose body holds the pattern `inner`. -/
def inRecord (kind outer inner : String) : String :=
  let test := calledTest "outer" outer
  s!"({kind} name: (type_identifier) {test}body: (field_declaration_list {inner}))"

/-- Several patterns as alternatives. -/
def anyOf (patterns : List String) : String :=
  "[" ++ String.intercalate "\n" patterns ++ "]"

/-- The query for a class or structure; none if it lies more than two scopes deep. -/
def recordQuery? (t : Target) : Option String :=
  match t.qualifiers with
  | [] => some (anyOf (recordPatterns t.leaf))
  | [q] =>
    some (anyOf ((recordPatterns t.leaf).map (inNamespace q) ++
      (recordPatterns t.leaf).map (fun p => inRecord "class_specifier" q ("(access_specifier)? " ++ p)) ++
      (recordPatterns t.leaf).map (inRecord "struct_specifier" q)))
  | [ns, q] =>
    some (inNamespace ns (anyOf
      (["class_specifier", "struct_specifier"].map fun kind =>
        inRecord kind q (anyOf (recordPatterns t.leaf)))))
  | _ => none

/-- A function declarator whose name is a node of the kind `kind` called `name`. -/
def declaratorPattern (kind name : String) : String :=
  let test := calledTest "name" name
  s!"(function_declarator declarator: ({kind}) {test})"

/-- The query for a function; none if it lies more than one scope deep. -/
def functionQuery? (t : Target) : Option String :=
  match t.qualifiers with
  | [] =>
    let plain := declaratorPattern "identifier" t.leaf
    some (s!"(function_definition declarator: [{plain} (pointer_declarator declarator: {plain})]) @result")
  | [q] =>
    let inSpace := declaratorPattern "identifier" t.leaf
    let inClass := declaratorPattern "field_identifier" t.leaf
    let scopeTest := calledTest "class" q
    let nameTest := calledTest "name" t.leaf
    some (anyOf [
      inNamespace q s!"(function_definition declarator: {inSpace}) @result",
      s!"(class_specifier name: (type_identifier) {scopeTest}" ++
        s!"body: (field_declaration_list (function_definition declarator: {inClass}) @result))",
      "(function_definition declarator: (function_declarator declarator: (qualified_identifier " ++
        s!"scope: (namespace_identifier) {scopeTest}name: (identifier) {nameTest}))) @result"])
  | _ => none

/-- The definition of the first match that captures a result. Whatever goes wrong is noted as a failed
query. -/
def queried (src : Bytes) (root : Node) (name query : String) : Report (Option Definition) :=
  let failed : Report (Option Definition) := do
    Report.note .error "Query failed"
    return none
  match Query.search query src root with
  | .error _ => failed
  | .ok found =>
    match found.findSome? fun m => (m.nodes "result").head? with
    | none => return none
    | some n =>
      match n.definition src name with
      | .ok d => return some d
      | .error _ => failed

/-- The class or structure of a name, found by a query. -/
def queriedRecord (src : Bytes) (root : Node) (name : String) : Report (Option Definition) :=
  let t := Target.ofString name
  match recordQuery? t with
  | some query => queried src root name query
  | none => do
    Report.note .warning s!"Deep nesting ({t.qualifiers.length} levels) not fully supported yet"
    return none

/-- The function of a name, found by a query. -/
def queriedFunction (src : Bytes) (root : Node) (name : String) : Report (Option Definition) :=
  match functionQuery? (Target.ofString name) with
  | some query => queried src root name query
  | none => do
    Report.note .warning "Multi-level function qualifiers not fully implemented yet"
    return none

end Excerpt.Cpp
