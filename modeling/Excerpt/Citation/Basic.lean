import Excerpt.Request

/-!
# Citations

A citation is a place in a document where code is shown. It names a file and says what to take from it, in
one of several ways of which the first that is given counts, and how to show it.
-/

namespace Excerpt

/-- What to take from a file. Only what is given is there. -/
structure Selection where
  function : Option String := none
  record : Option String := none
  value : Option String := none
  macroUse : Option Value := none
  macroDefinition : Option String := none
  lines : Option Value := none
  marker : Option String := none
  /-- A part of the parameters of the function. -/
  signature : Option String := none
  message : Option String := none
  enum : Option String := none
  service : Option String := none

/-- A place where code is shown. -/
structure Citation where
  path : String
  selection : Selection
  /-- Whether to link to the page of the file. -/
  link : Bool := true
  /-- Whether to say who last changed each line. -/
  blame : Bool := false
  /-- Whether to number the lines. -/
  numbered : Bool := true
  /-- The name of the language, if it is not to be told from the file. -/
  language : Option String := none

namespace Selection

/-- The description of a macro use that a value gives: its name, or all its entries. -/
def spec : Value → Except Failure MacroSpec
  | .text name => .ok [("name", .text name)]
  | .dict entries => .ok (entries.map fun (k, v) => (k.display, v))
  | v => .error (.noEntries v.typeName)

def line (isFirst : Bool) : Value → Except Failure Int
  | .int n => .ok n
  | .bool b => .ok (if b then 1 else 0)
  | v => .error (.notALine isFirst v.typeName)

/-- The two ends of a range of lines. -/
def ends : Value → Except Failure (Int × Int)
  | .list members => pair members
  | .tuple members => pair members
  | .text s => pair (s.toList.map fun c => .text (String.singleton c))
  | .dict entries => pair (entries.map (·.1))
  | v => .error (.noEnds v.typeName)
where
  /-- The two ends that two values are. -/
  pair : List Value → Except Failure (Int × Int)
    | [a, b] => do return (← line true a, ← line false b)
    | members => .error (.notTwoEnds members.length)

/-- What is asked of the file at `path`. -/
def request (s : Selection) (path : String) : Except Failure Request :=
  if let some name := s.function then
    match s.marker with
    | some marker => .ok (.functionSection name marker)
    | none => .ok (.overload name s.signature)
  else if let some v := s.macroUse then do
    let spec ← spec v
    match s.marker with
    | some marker => return .macroSection spec marker
    | none => return .macroUse spec
  else if let some name := s.macroDefinition then .ok (.macroDefinition name)
  else if let some name := s.record then .ok (named .record name s.marker)
  else if let some name := s.value then .ok (named .value name s.marker)
  else if let some name := s.message then
    match s.marker with
    | some marker => .ok (.messageSection name marker)
    | none => .ok (.proto .message name)
  else if let some name := s.enum then .ok (.proto .enum name)
  else if let some name := s.service then .ok (.proto .service name)
  else if let some marker := s.marker then .ok (.marked marker)
  else if let some v := s.lines then do
    let (first, last) ← ends v
    return .lines first last
  else .error (.noSelection path)
where
  /-- A class, enumeration or variable, or a section of it. -/
  named (kind : RecordKind) (name : String) : Option String → Request
    | some marker => .recordSection kind name marker
    | none => .record kind name

/-- What is asked of a file in order to leave it out; none if all of it is left out. Sections of a function or
of a class are not told apart from the whole. -/
def omission (s : Selection) : Except Failure (Option Request) :=
  if let some name := s.function then .ok (some (.function name))
  else if let some v := s.macroUse then do return some (.macroUse (← spec v))
  else if let some name := s.macroDefinition then .ok (some (.macroDefinition name))
  else if let some name := s.record then .ok (some (.record .record name))
  else if let some name := s.value then .ok (some (.record .value name))
  else if let some marker := s.marker then .ok (some (.marked marker))
  else if let some v := s.lines then do
    let (first, last) ← ends v
    return some (.lines first last)
  else .ok none

end Selection

namespace Citation

def languageNames : Table String String :=
  [(".cpp", "cpp"), (".cc", "cpp"), (".cxx", "cpp"), (".hpp", "cpp"), (".h", "cpp"), (".hxx", "cpp"),
    (".ipp", "cpp"), (".c", "c"), (".proto", "protobuf")]

def languageName (c : Citation) (p : Path) : String :=
  c.language.getD ((languageNames.get? p.kind).getD "text")

/-- Lines with their numbers, the first of which is `first`. -/
def numberedLines (first : Int) : List String → List String
  | [] => []
  | line :: lines => (Text.padNumber 4 first ++ " " ++ line) :: numberedLines (first + 1) lines

/-- Code with line numbers, the first of which is `first`. -/
def withNumbers (code : String) (first : Int) : String :=
  Text.join "\n" (numberedLines first (Text.lines code))

def block (header language code : String) : String :=
  s!"{header}\n```{language}\n{code}\n```"

/-- The words in place of code that cannot be shown. -/
def complaint (f : Failure) : String :=
  "❌ **ERROR**: " ++ f.message

end Citation

end Excerpt
