import Excerpt.Demo.Basic
import Excerpt.Macro.Use

/-!
# A demonstration of macro uses

Five searches are shown. The first use found by the last of them would be written out in full, and that step
fails: a use holds a node of the tree, which has no written form.
-/

namespace Excerpt.Demo

/-- A source with macros that stand for functions and macros that are called. -/
def macroUseSample : List String := [
  "",
  "    #include <stdio.h>",
  "    ",
  "    DEFINE_JS_FUNCTION(TestFunc, ctx, data) \x7b",
  "        printf(\"Test function",
  "\");",
  "        return JS_UNDEFINED;",
  "    \x7d",
  "    ",
  "    DEFINE_JS_FUNCTION(AnotherFunc, env, args) \x7b",
  "        printf(\"Another function",
  "\");",
  "        return JS_NULL;",
  "    \x7d",
  "    ",
  "    DEFINE_HOOK_FUNCTION(HookFunc, ctx, data) \x7b",
  "        return 0;",
  "    \x7d",
  "    ",
  "    void normal_function() \x7b",
  "        SOME_MACRO(arg1, arg2, arg3);",
  "        DEBUG_LOG(\"message\");",
  "        ASSERT_EQ(a, b);",
  "    \x7d",
  "    "]

def useLine (u : MacroUse) : String :=
  s!"  Line {u.line}: " ++ u.name ++ "(" ++ Text.join ", " u.arguments ++ ")"

/-- A macro with its arguments, its line and its kind. -/
def kindLine (u : MacroUse) : String :=
  useLine u ++ (if u.isDefinition then " [definition]" else " [call]")

/-- A line as wide as a page. -/
def rule : String :=
  String.ofList (List.replicate 80 '=')

/-- The searches, one after another. -/
def macroUses : Except Failure Demo := do
  let src := source macroUseSample
  let root ← tree src
  let named ← (MacroUse.named src root "DEFINE_JS_FUNCTION").outcome
  let like ← (MacroUse.matching src root "^DEFINE_").outcome
  let given ← (MacroUse.withArgument src root "DEFINE_JS_FUNCTION" 2 "data").outcome
  let several ← (MacroUse.oneOf src root ["SOME_MACRO", "DEBUG_LOG", "ASSERT_EQ"]).outcome
  let walked ← MacroUse.walked src root ["DEFINE_JS_FUNCTION"]
  let lines :=
    [rule, "Demo: Ultra-DRY MacroFinder v3 with TypedDict", rule,
      "", "1. Find by exact name (DEFINE_JS_FUNCTION):"] ++ named.map kindLine ++
    ["", "2. Find by pattern (^DEFINE_):"] ++ like.map kindLine ++
    ["", "3. Find DEFINE_* with 'data' as 3rd argument:"] ++ given.map useLine ++
    ["", "4. Find multiple specific macros:"] ++ several.map kindLine ++
    ["", "5. Tree walking for DEFINE_JS_FUNCTION:"] ++ walked.map kindLine
  if walked.isEmpty then return ⟨paragraph lines, true⟩
  else return ⟨paragraph (lines ++ ["", "6. Example MacroResult structure:"]), false⟩

end Excerpt.Demo
