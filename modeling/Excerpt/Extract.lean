import Excerpt.Cpp.Extract
import Excerpt.Proto.Definition
import Excerpt.Proto.Section

/-!
# Taking code from sources

A request to a source gives a passage, in the way of the language of the source.
-/

namespace Excerpt.Source

/-- The lines from one number up to another. -/
def linePassage (s : Source) (first last : Int) : Except Failure Passage := do
  return Passage.ofLines (← s.lines) first last

def commentSections (s : Source) : Report Sections :=
  Cpp.onTree s Marker.sections

def commentSection (s : Source) (marker : String) : Report Passage := do
  let sections ← s.commentSections
  match sections.get? marker with
  | some (first, last) => s.linePassage first last
  | none => Report.fail (.noMarker marker sections.keys)

def sections (s : Source) : Language → Report Sections
  | .proto => do
    let lines ← s.lines
    return Proto.sections lines
  | _ => s.commentSections

def fromCpp (s : Source) : Request → Report Passage
  | .lines first last => s.linePassage first last
  | .marked marker => s.commentSection marker
  | .function name => Cpp.functionPassage s name none
  | .overload name part => Cpp.functionPassage s name part
  | .functionSection name marker => Cpp.functionSection s name marker
  | .macroUse spec => Cpp.macroPassage s spec
  | .macroSection spec marker => Cpp.macroSection s spec marker
  | .macroDefinition name => Cpp.onTree s fun src root => MacroDefinition.passageOf src root name
  | .record _ name => Cpp.recordPassage s name
  | .recordSection _ name marker => Cpp.recordSection s name marker
  | .proto kind _ => Report.fail (.notInLanguage kind.title)
  | .messageSection _ _ => Report.fail (.notInLanguage ProtoKind.message.title)

/-- The words for a class, enumeration or variable at the start of a sentence. -/
def recordTitle : RecordKind → String
  | .record => "Struct/class/enum"
  | .value => "Variable"

/-- Code from a source in the message language. -/
def fromProto (s : Source) : Request → Report Passage
  | .lines first last => s.linePassage first last
  | .marked marker => do
    let lines ← s.lines
    Proto.sectionOf marker s.path.toString 1 lines
  | .function _ => Report.fail .noFunctions
  | .overload _ _ => Report.fail .tooManyArguments
  | .functionSection _ _ => Report.fail (.notInLanguage "Function marker")
  | .macroUse _ => Report.fail (.unsupported "extract_function_macro")
  | .macroSection _ _ => Report.fail (.unsupported "extract_function_macro_marker")
  | .macroDefinition _ => Report.fail (.unsupported "extract_macro_definition")
  | .record kind _ => Report.fail (.notInLanguage (recordTitle kind))
  | .recordSection kind _ _ => Report.fail (.notInLanguage (recordTitle kind))
  | .proto kind name => do
    let n ← Proto.find s kind name
    n.passage (← s.content)
  | .messageSection name marker => do
    let n ← Proto.find s .message name
    let text ← n.text? (← s.content)
    Proto.sectionOf marker s!"message '{name}'" (n.startRow + 1) (Text.lines text)

/-- Code from a source in no particular language. -/
def fromPlain (s : Source) : Request → Report Passage
  | .lines first last => s.linePassage first last
  | .marked marker => s.commentSection marker
  | .function _ => Report.fail .noFunctions
  | .overload _ _ => Report.fail .tooManyArguments
  | _ => Report.fail (.notInLanguage "Named code")

/-- The class or namespace of a name, which only C++ has. -/
def scope (s : Source) (name : String) : Language → Report (Option Node)
  | .cpp => Cpp.scope s name
  | _ => Report.fail (.notInLanguage "Class or namespace")

def extract (s : Source) : Language → Request → Report Passage
  | .cpp => s.fromCpp
  | .proto => s.fromProto
  | .plain => s.fromPlain

end Excerpt.Source
