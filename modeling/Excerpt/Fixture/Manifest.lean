import Excerpt.Fixture.Collector
import Excerpt.Text.Json

/-!
# The list of collected files

What has been collected is listed in a JSON file beside the copies. Without any mishap there is no list.
-/

namespace Excerpt.Collector

/-- A field of an object, on a line of its own. -/
def field (indent name value : String) : String :=
  indent ++ Text.json name ++ ": " ++ value

/-- An object over several lines. -/
def object (indent : String) (fields : List (String × String)) : String :=
  let inner := indent ++ "  "
  "\x7b\n" ++ Text.join ",\n" (fields.map fun (name, value) => field inner name value) ++ "\n" ++ indent ++
    "\x7d"

def mishapJson (indent : String) (m : Mishap) : String :=
  object indent [
    ("source_file", Text.json m.source.toString),
    ("fixture_file", Text.json m.copy),
    ("error", Text.json m.cause),
    ("template_context", (m.context.map Text.json).getD "null")]

/-- The list of what has been collected, at a time. -/
def manifest (c : Collector) (time : String) : String :=
  let mishaps := c.mishaps.map fun m => "    " ++ mishapJson "    " m
  object "" [
    ("collected_at", Text.json time),
    ("error_count", toString c.mishaps.length),
    ("unique_files", toString c.copied.length),
    ("errors", "[\n" ++ Text.join ",\n" mishaps ++ "\n  ]")]

def manifestPath (c : Collector) : Path :=
  c.directory.child "manifest.json"

/-- Writes the list, if there is something to list. -/
def writeManifest (f : Folder) (c : Collector) (time : String) : Except Failure (Folder × Option Path) :=
  if c.mishaps.isEmpty then .ok (f, none)
  else do return (← f.write c.manifestPath (Bytes.ofString (c.manifest time)), some c.manifestPath)

end Excerpt.Collector
