/-!
# The guide

What an assistant needs to know to write documents that show code.
-/

namespace Excerpt.Shell

def guideLines : List String := [
  "# projected-source AI Guide",
  "",
  "## Overview",
  "projected-source extracts code from C/C++ and Protocol Buffer (.proto) files",
  "into Jinja2 templates, creating documentation that stays in sync with the",
  "codebase. Uses tree-sitter for accurate parsing.",
  "",
  "## IMPORTANT: Prefer Symbolic References",
  "",
  "**Always prefer symbolic extraction over markers or line ranges.**",
  "",
  "Extraction priority (best to worst):",
  "1. `function='Name'` - functions, methods (use `signature=` for overloads)",
  "2. `struct='Name'` / `var='Name'` - types, constants, variables (C/C++)",
  "3. `message='Name'` / `enum='Name'` / `service='Name'` - protobuf definitions",
  "4. `function_macro=` / `macro_definition=` - macro-based code",
  "5. `function='X', marker='Y'` - subsection within a function (when needed)",
  "6. `marker='X'` - standalone markers (last resort)",
  "7. `lines=(start, end)` - fragile, breaks when code changes",
  "",
  "**Why?** Symbolic refs survive refactoring. If someone renames a function,",
  "you get a clear error. With line numbers, you silently get wrong code.",
  "",
  "**Markers are for:** Extracting a specific subsection of a larger construct,",
  "e.g., just the initialization part of a 200-line function. Not for extracting",
  "whole functions - use `function=` for that.",
  "",
  "## CLI Usage",
  "",
  "```bash",
  "# Render a single template",
  "projected-source render template.md.j2",
  "",
  "# Render to specific output",
  "projected-source render template.md.j2 output.md",
  "",
  "# Render directory of templates",
  "projected-source render docs/",
  "",
  "# Validate documentation covers code changes",
  "projected-source render docs/ -V auto              # auto-detect base",
  "projected-source render docs/ -V origin/main       # specific base",
  "projected-source render docs/ -V HEAD~5..HEAD~2    # commit range",
  "projected-source render docs/ -V auto --strict     # exit 1 if uncovered",
  "```",
  "",
  "## Template Functions",
  "",
  "### code() - Extract code with GitHub permalinks",
  "",
  "```jinja",
  "\x7b# Extract a function #\x7d",
  "\x7b\x7b code('src/file.cpp', function='processTransaction') \x7d\x7d",
  "",
  "\x7b# Extract overloaded function by signature #\x7d",
  "\x7b\x7b code('src/file.cpp', function='onMessage', signature='TMProposeSet') \x7d\x7d",
  "",
  "\x7b# Extract a struct/class/enum #\x7d",
  "\x7b\x7b code('src/file.h', struct='Config') \x7d\x7d",
  "",
  "\x7b# Extract a variable/constant declaration #\x7d",
  "\x7b\x7b code('src/file.cpp', var='errorCodes') \x7d\x7d",
  "",
  "\x7b# Extract lines by range #\x7d",
  "\x7b\x7b code('src/file.cpp', lines=(10, 50)) \x7d\x7d",
  "",
  "\x7b# Extract between markers #\x7d",
  "\x7b\x7b code('src/file.cpp', marker='example-usage') \x7d\x7d",
  "\x7b# In source: //@@start example-usage ... //@@end example-usage #\x7d",
  "",
  "\x7b# Extract marker within a function #\x7d",
  "\x7b\x7b code('src/file.cpp', function='main', marker='init-section') \x7d\x7d",
  "",
  "\x7b# Extract macro-defined function #\x7d",
  "\x7b\x7b code('src/file.cpp', function_macro=\x7b'name': 'DEFINE_HANDLER', 'arg0': 'onConnect'\x7d) \x7d\x7d",
  "",
  "\x7b# Extract macro definition #\x7d",
  "\x7b\x7b code('src/file.h', macro_definition='MAX_BUFFER_SIZE') \x7d\x7d",
  "",
  "\x7b# Protocol Buffers (.proto) #\x7d",
  "\x7b\x7b code('src/proto/messages.proto', message='Transaction') \x7d\x7d",
  "\x7b\x7b code('src/proto/messages.proto', enum='MessageType') \x7d\x7d",
  "\x7b\x7b code('src/proto/messages.proto', service='PeerService') \x7d\x7d",
  "\x7b\x7b code('src/proto/messages.proto', message='Transaction', marker='key-fields') \x7d\x7d",
  "",
  "\x7b# Options #\x7d",
  "\x7b\x7b code('src/file.cpp', function='foo', github=False) \x7d\x7d      \x7b# no permalink #\x7d",
  "\x7b\x7b code('src/file.cpp', function='foo', line_numbers=False) \x7d\x7d \x7b# no line nums #\x7d",
  "\x7b\x7b code('src/file.cpp', function='foo', blame=True) \x7d\x7d         \x7b# git blame #\x7d",
  "\x7b\x7b code('src/file.cpp', function='foo', language='cpp') \x7d\x7d     \x7b# force language #\x7d",
  "```",
  "",
  "### ignore_changes() - Exclude regions from validation",
  "",
  "When using `-V` to validate documentation coverage, use `ignore_changes()` to",
  "exclude files or regions that don't need documentation:",
  "",
  "```jinja",
  "\x7b# Ignore entire file #\x7d",
  "\x7b\x7b ignore_changes('Builds/CMake/config.cmake') \x7d\x7d",
  "",
  "\x7b# Ignore specific constructs (same syntax as code()) #\x7d",
  "\x7b\x7b ignore_changes('src/file.cpp', function='internalHelper') \x7d\x7d",
  "\x7b\x7b ignore_changes('src/file.cpp', struct='PrivateImpl') \x7d\x7d",
  "\x7b\x7b ignore_changes('src/file.cpp', lines=(1, 100)) \x7d\x7d",
  "\x7b\x7b ignore_changes('src/test/Test.cpp') \x7d\x7d  \x7b# ignore test files #\x7d",
  "```",
  "",
  "## Marker Syntax in Source Files",
  "",
  "Works in both C/C++ and .proto files:",
  "",
  "```cpp",
  "//@@start section-name",
  "code here",
  "//@@end section-name",
  "```",
  "",
  "## Output Format",
  "",
  "code() outputs markdown with:",
  "1. GitHub permalink header (clickable link to source)",
  "2. Fenced code block with syntax highlighting",
  "3. Line numbers matching the source file",
  "",
  "Example output:",
  "```",
  "📍 [`src/main.cpp:42-58`](https://github.com/org/repo/blob/abc123/src/main.cpp#L42-L58)",
  "```cpp",
  "  42 void processTransaction() \x7b",
  "  43     // implementation",
  "  44 \x7d",
  "```",
  "",
  "## Validation Mode (-V)",
  "",
  "Shows uncovered code changes with actual source:",
  "",
  "```",
  "⚠ 3 uncovered regions:",
  "",
  "━━━ src/handlers/Submit.cpp ━━━",
  "230-261:",
  "   230 void handleSubmit() \x7b",
  "   231     // new code not documented",
  "   ...",
  "```",
  "",
  "## Tips for AI Assistants",
  "",
  "1. **Prefer symbolic refs** - Use `function=`, `struct=`, `message=`, `enum=` instead of markers",
  "2. **Use `signature=` for overloads** - e.g., `function='onMessage', signature='TMProposeSet'`",
  "3. **Markers only for subsections** - When you need part of a function/message, not the whole thing",
  "4. **Never use line ranges** unless absolutely necessary - they break on any edit",
  "5. **Use relative paths** from repo root in code() calls",
  "6. **Use ignore_changes()** at the top of templates for test files, build configs",
  "7. **Check -V output** to ensure all changes are documented",
  "8. **Proto files** - Use `message=`, `enum=`, `service=` for .proto extraction",
  ""]

def guide : String :=
  String.intercalate "\n" guideLines

end Excerpt.Shell
