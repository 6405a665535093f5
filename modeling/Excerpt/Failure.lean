import Excerpt.Grammar.Reading
import Excerpt.Query.Pattern
import Excerpt.Text.Quoted
import Excerpt.Text.Split

/-!
# Failures

Every way in which code cannot be taken from a source is a cause of its own, with what a reader needs to
know about it. The wording of all causes is in one place.
-/

namespace Excerpt

/-- The definitions of the message language that can be asked for. -/
inductive ProtoKind where
  | message
  | enum
  | service
deriving Repr, DecidableEq

namespace ProtoKind

def keyword : ProtoKind → String
  | message => "message"
  | enum => "enum"
  | service => "service"

/-- The keyword with a capital letter. -/
def title : ProtoKind → String
  | message => "Message"
  | enum => "Enum"
  | service => "Service"

end ProtoKind

/-- Why code cannot be taken from a source. -/
inductive Failure where
  /-- The source has no tree. -/
  | noTree (cause : ParseError)
  /-- A query made from a name cannot be answered. -/
  | noAnswer (cause : QueryError)
  /-- Bytes that were to be read as text are none. -/
  | notText (cause : Utf8.DecodeError)
  /-- A template function lacks its name or its arguments. -/
  | templateParts
  /-- A template type in a qualified name has no name. -/
  | unnamedType
  /-- A place beyond the ends of a list. -/
  | noSuchPlace
  /-- A text that was to be a whole number is none. -/
  | notANumber (text : String)
  | missingFile (path : String)
  | isDirectory (path : String)
  | notDirectory (path : String)
  /-- A path does not lie below the directory it was to be named from. -/
  | notBelow (path root : String)
  /-- Git does not compare two revisions. -/
  | noComparison (complaint : String)
  | noExtractor (suffix : String)
  /-- The extractor of a plain file knows no functions. -/
  | noFunctions
  /-- The extractor of the message language knows no functions, and no overloads of them. -/
  | tooManyArguments
  /-- The extractor of the message language knows no such request. -/
  | unsupported (request : String)
  /-- The language of a file has no such definitions. -/
  | notInLanguage (what : String)
  /-- It is not said what to take from a file. -/
  | noSelection (path : String)
  /-- A range of lines has other than two ends. -/
  | notTwoEnds (count : Nat)
  /-- A value of this type has no ends at all. -/
  | noEnds (type : String)
  /-- The end of a range of lines is a value of this type, and no number. -/
  | notALine (isFirst : Bool) (type : String)
  /-- A value of this type has no entries. -/
  | noEntries (type : String)
  /-- There is a file where a directory was to be made. -/
  | fileExists (path : String)
  | noFunction (name path : String)
  | noOverload (name signature path : String)
  | noRecord (name path : String)
  | noRecordOrVariable (name path : String)
  | noMarker (name : String) (available : List String)
  | noMarkerIn (name place : String) (available : List String)
  | noMarkerInOverloads (name function : String) (count : Nat)
  | unnamedMacro
  | noMacroWith (name : String) (filters : List String)
  | severalMacrosAt (name : String) (lines : List Nat)
  | noMacro (name : String)
  | severalMacros
  | noMarkerInMacro (name : String) (available : List String)
  | noDefinition (name : String)
  /-- The grammar of the message language is not where it should be. -/
  | noGrammar (path : String)
  | noProto (kind : ProtoKind) (name path : String)
  | noStartLine (name place : String)
  | noEndLine (name place : String)
deriving Repr, DecidableEq

namespace Failure

def listing (names : List String) : String :=
  Text.join ", " names

/-- The names that can be chosen from, or `none`. -/
def listingOrNone (names : List String) : String :=
  if names.isEmpty then "none" else listing names

/-- The file name suffixes with an extractor. -/
def suffixes : List String :=
  [".cpp", ".cc", ".cxx", ".c++", ".hpp", ".h", ".hxx", ".h++", ".c", ".ipp", ".proto"]

def message : Failure → String
  | noTree cause => cause.message
  | noAnswer .unclosed => "list index out of range"
  | noAnswer .badExpression => "malformed expression"
  | noAnswer .refused => "predicates refused"
  | notText cause => cause.message
  | templateParts => "cannot access local variable 'base_name' where it is not associated with a value"
  | unnamedType => "argument of type 'NoneType' is not iterable"
  | noSuchPlace => "list index out of range"
  | notANumber text => "invalid literal for int() with base 10: " ++ Text.quoted text
  | missingFile path => "[Errno 2] No such file or directory: " ++ Text.quoted path
  | isDirectory path => "[Errno 21] Is a directory: " ++ Text.quoted path
  | notDirectory path => "[Errno 20] Not a directory: " ++ Text.quoted path
  | notBelow path root =>
    Text.quoted path ++ " is not in the subpath of " ++ Text.quoted root ++
      " OR one path is relative and the other is absolute."
  | noComparison complaint => "git diff failed: " ++ complaint
  | noExtractor suffix => s!"No extractor for {suffix} files. Supported: " ++ listing suffixes
  | noFunctions => "Subclasses must implement extract_function"
  | tooManyArguments =>
    "BaseExtractor.extract_function() takes 3 positional arguments but 4 were given"
  | unsupported request => s!"'ProtoExtractor' object has no attribute '{request}'"
  | notInLanguage what => s!"{what} extraction not supported for this file type"
  | noSelection path =>
    "Must specify function, struct, var, function_macro, macro_definition, lines, or marker for " ++ path
  | notTwoEnds count =>
    if count < 2 then s!"not enough values to unpack (expected 2, got {count})"
    else "too many values to unpack (expected 2)"
  | noEnds type => s!"cannot unpack non-iterable {type} object"
  | notALine isFirst type =>
    if isFirst then s!"unsupported operand type(s) for -: '{type}' and 'int'"
    else s!"'<' not supported between instances of '{type}' and 'int'"
  | noEntries type => s!"'{type}' object has no attribute 'get'"
  | fileExists path => "[Errno 17] File exists: " ++ Text.quoted path
  | noFunction name path => s!"Function '{name}' not found in {path}"
  | noOverload name signature path =>
    s!"Function '{name}' with signature matching '{signature}' not found in {path}"
  | noRecord name path => s!"Struct/class '{name}' not found in {path}"
  | noRecordOrVariable name path => s!"Struct/class/variable '{name}' not found in {path}"
  | noMarker name available =>
    s!"Marker '{name}' not found. Available markers: " ++ listingOrNone available
  | noMarkerIn name place available =>
    s!"Marker '{name}' not found in {place}. Available: " ++ listingOrNone available
  | noMarkerInOverloads name function count =>
    s!"Marker '{name}' not found in any overload of function '{function}'. " ++
      s!"Found {count} overload(s) but none contain the marker."
  | unnamedMacro => "macro spec must include 'name'"
  | noMacroWith name filters => s!"No {name} found with " ++ listing filters
  | severalMacrosAt name lines =>
    s!"Multiple {name} instances found ({lines.length} matches). " ++
      "Please be more specific. Found at lines: " ++
      listing ((lines.take 5).map toString) ++ (if 5 < lines.length then "..." else "")
  | noMacro name => s!"Macro {name} not found"
  | severalMacros => "Multiple macros found, be more specific"
  | noMarkerInMacro name available =>
    s!"Marker '{name}' not found. Available: " ++ listing available
  | noDefinition name => s!"Macro definition '{name}' not found"
  | noGrammar path =>
    s!"Proto grammar not found at {path}. See .ai-docs/proto-investigations.md for build instructions."
  | noProto kind name path => s!"{kind.title} '{name}' not found in {path}"
  | noStartLine name place => s!"Marker '//@@start {name}' not found in {place}"
  | noEndLine name place => s!"Marker '//@@end {name}' not found in {place}"

end Failure

end Excerpt
