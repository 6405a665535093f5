import Excerpt.Demo.Basic
import Excerpt.Macro.Define

/-!
# A demonstration of macro definitions
-/

namespace Excerpt.Demo

/-- A source with macros of both kinds, on one line and on several. -/
def macroDefinitionSample : List String := [
  "",
  "#define SIMPLE_MACRO 42",
  "",
  "#define FUNCTION_MACRO(x, y) ((x) + (y))",
  "",
  "#define MULTI_LINE_MACRO \\",
  "    do \x7b \\",
  "        something(); \\",
  "    \x7d while(0)",
  "",
  "#define COMPLEX_MACRO(a, b, c) \\",
  "    if (a) \x7b \\",
  "        process(b); \\",
  "        handle(c); \\",
  "    \x7d",
  ""]

def kindOf (d : MacroDefinition) : String :=
  if d.isFunction then "function" else "object"

def described (d : MacroDefinition) : List String :=
  ["Found " ++ d.name ++ ":", "  Type: " ++ kindOf d, s!"  Lines: {d.passage.first}-{d.passage.last}",
    "  Text:", d.text]

/-- A macro and the number of its lines. -/
def counted (d : MacroDefinition) : String :=
  "  " ++ d.name ++ " (" ++ kindOf d ++ s!") - {d.lineCount} lines"

def macroDefinitions : Except Failure Demo := do
  let src := source macroDefinitionSample
  let root ← tree src
  let found ← MacroDefinition.find? src root "MULTI_LINE_MACRO"
  let all ← MacroDefinition.all src root none
  return ⟨paragraph (found.elim [] described ++ ["", "All macros:"] ++ all.map counted), true⟩

end Excerpt.Demo
