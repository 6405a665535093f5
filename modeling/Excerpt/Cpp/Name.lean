import Excerpt.Text.Split

/-!
# Qualified names

A name is asked for as `a::b::x`: a last component and the qualifiers in front of it. A scope, the list
of names around a declaration, fits if it ends with the qualifiers.
-/

namespace Excerpt.Cpp

/-- A name that is asked for. -/
structure Target where
  leaf : String
  qualifiers : List String
deriving Repr, DecidableEq

namespace Target

/-- The target that a text spells. -/
def ofString (s : String) : Target :=
  let parts := Text.split "::" s
  ⟨parts.getLastD "", parts.dropLast⟩

/-- Whether the scope ends with the qualifiers of the target. -/
def fits (t : Target) (scope : List String) : Bool :=
  t.qualifiers.isSuffixOf scope

end Target

/-- A name without template arguments: what stands before the first `<`. -/
def baseName (s : String) : String :=
  Text.beforeFirst "<" s

end Excerpt.Cpp
