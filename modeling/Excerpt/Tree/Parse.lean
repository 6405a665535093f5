import Excerpt.Grammar.Item

/-!
# The tree of a source

The dialect of a source is guessed from its text, its tokens are read as items, and the items become the
children of a root that spans the whole source.
-/

namespace Excerpt

namespace Dialect

/-- A source that declares its syntax version near its start, or has a line that starts with `message`, is
in the message language. -/
def guess (src : Bytes) : Dialect :=
  if (Bytes.ofString "syntax =").hasPart (src.take 64) || (Bytes.ofString "\nmessage ").hasPart src then
    .proto
  else .cpp

def rootKind : Dialect → String
  | cpp => "translation_unit"
  | proto => "source_file"

end Dialect

namespace Node

/-- The root over the items of a source. It spans the whole source, but its end point is that of the last
item. -/
def root (dialect : Dialect) (src : Bytes) : List Node → Node
  | [] => ⟨"translation_unit", ⟨0, src.length, .origin, .origin⟩, [], []⟩
  | first :: more =>
    ⟨dialect.rootKind, ⟨0, src.length, .origin, (more.getLastD first).span.endPoint⟩, first :: more, []⟩

/-- The tree of a source. -/
def parse (src : Bytes) : Except ParseError Node := do
  let dialect := Dialect.guess src
  let items ← Grammar.items ⟨src, dialect⟩ false false (Token.scan src)
  return root dialect src items.value

end Node

end Excerpt
