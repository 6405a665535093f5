import Excerpt.Cpp.Search
import Excerpt.Demo.Basic

/-!
# A demonstration of functions by name

Functions of classes, namespaces and nested classes are looked for, and definitions that stand outside the
class they belong to.
-/

namespace Excerpt.Demo

/-- A source with functions at many depths. -/
def functionSample : List String := [
  "",
  "    inline std::optional<std::vector<uint8_t>>",
  "    FromJSIntArrayOrHexString(JSContext* ctx, JSValueConst v, int max_len)",
  "    \x7b",
  "        return \x7b\x7d;",
  "    \x7d",
  "    ",
  "    static JSValue js_process_binary(JSContext *ctx, JSValueConst this_val,",
  "                                     int argc, JSValueConst *argv) ",
  "    \x7b",
  "        return JS_UNDEFINED;",
  "    \x7d",
  "    ",
  "    class MyClass \x7b",
  "    public:",
  "        void myMethod() \x7b",
  "            // Do something",
  "        \x7d",
  "        ",
  "        int calculate(int x, int y) \x7b",
  "            return x + y;",
  "        \x7d",
  "    \x7d;",
  "    ",
  "    struct MyStruct \x7b",
  "        void structMethod() \x7b",
  "            // Struct method",
  "        \x7d",
  "    \x7d;",
  "    ",
  "    // Out-of-line definition",
  "    void MyClass::anotherMethod() \x7b",
  "        // Out-of-line implementation",
  "    \x7d",
  "    ",
  "    namespace utils \x7b",
  "        void helperFunction() \x7b",
  "            // Namespace function",
  "        \x7d",
  "        ",
  "        class Helper \x7b",
  "        public:",
  "            void process() \x7b",
  "                // Method in namespace class",
  "            \x7d",
  "        \x7d;",
  "        ",
  "        struct Data \x7b",
  "            void validate() \x7b",
  "                // Struct method in namespace",
  "            \x7d",
  "        \x7d;",
  "    \x7d",
  "    ",
  "    // Out-of-line namespace class method",
  "    void utils::Helper::cleanup() \x7b",
  "        // Out-of-line namespace class method",
  "    \x7d",
  "    ",
  "    namespace outer \x7b",
  "        namespace inner \x7b",
  "            void deepFunction() \x7b",
  "                // Nested namespace function",
  "            \x7d",
  "        \x7d",
  "    \x7d",
  "    ",
  "    // Nested struct/class cases",
  "    struct OuterStruct \x7b",
  "        struct InnerStruct \x7b",
  "            void nestedMethod() \x7b",
  "                // Method in struct in struct",
  "            \x7d",
  "        \x7d;",
  "        ",
  "        class InnerClass \x7b",
  "        public:",
  "            void anotherNested() \x7b",
  "                // Method in class in struct",
  "            \x7d",
  "        \x7d;",
  "    \x7d;",
  "    ",
  "    class OuterClass \x7b",
  "    public:",
  "        struct InnerStruct \x7b",
  "            void methodInStructInClass() \x7b",
  "                // Method in struct in class",
  "            \x7d",
  "        \x7d;",
  "    \x7d;",
  "    ",
  "    // Out-of-line nested struct method",
  "    void OuterStruct::InnerStruct::outOfLineNested() \x7b",
  "        // Out-of-line nested struct method",
  "    \x7d",
  "    "]

def shown (d : Definition) : String :=
  let start := d.node.span.startPoint
  let stop := d.node.span.endPoint
  "ExtractionResult(text=" ++ Text.quoted d.passage.text ++
    s!", start_line={d.passage.first}, end_line={d.passage.last}" ++
    s!", start_column={start.column}, end_column={stop.column}" ++
    s!", node=<Node {d.node.kind} {start.row}:{start.column}>" ++
    ", node_type=" ++ Text.quoted d.node.kind ++ ", qualified_name=" ++ Text.quoted d.name ++ ")"

/-- A function to look for. -/
structure Wanted where
  name : String
  /-- What is said beside the name. -/
  note : String := ""
  /-- The lines that say that there is no such function. -/
  missing : List String := []

/-- A function that is reported as missing. -/
def Wanted.reported (w : Wanted) (after : List String) : Wanted :=
  { w with missing := ("NOT FOUND: " ++ w.name) :: after }

/-- The lines on a function. -/
def answer (src : Bytes) (root : Node) (w : Wanted) : Except Failure (List String) := do
  match ← (Cpp.function src root w.name none).outcome with
  | some d => return ["Found " ++ w.name ++ w.note ++ ":", shown d, ""]
  | none => return w.missing

/-- Functions of classes and namespaces. -/
def plainNames : List Wanted := [
  { name := "FromJSIntArrayOrHexString" },
  Wanted.reported { name := "MyClass::calculate" } [],
  { name := "MyStruct::structMethod" },
  { name := "MyClass::anotherMethod", note := " (out-of-line)" },
  { name := "utils::helperFunction" },
  { name := "utils::Helper::process" },
  { name := "utils::Data::validate" },
  { name := "utils::Helper::cleanup", note := " (out-of-line)" },
  { name := "outer::inner::deepFunction" }]

/-- Functions of classes in classes. -/
def nestedNames : List Wanted := [
  Wanted.reported { name := "OuterStruct::InnerStruct::nestedMethod" } [""],
  Wanted.reported { name := "OuterStruct::InnerClass::anotherNested" } [""],
  Wanted.reported { name := "OuterClass::InnerStruct::methodInStructInClass" } [""],
  Wanted.reported { name := "OuterStruct::InnerStruct::outOfLineNested", note := " (out-of-line)" } [""]]

/-- Looks for the functions one after another. -/
def functions : Except Failure Demo := do
  let src := source functionSample
  let root ← tree src
  let plain ← plainNames.mapM (answer src root)
  let nested ← nestedNames.mapM (answer src root)
  return ⟨paragraph (plain.flatten ++ ["", "--- Testing nested struct/class methods ---"] ++ nested.flatten), true⟩

end Excerpt.Demo
