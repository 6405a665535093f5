import Excerpt.Session
import Excerpt.Template.Parse

/-!
# Rendering templates

The expressions of a template are written out in order, each as the text of its value. Calls show code or
leave it out, or do what a tag of the project says. A name without a value is written as nothing; a call of it
or a filter on it is an error.
-/

namespace Excerpt

/-- Why a template cannot be rendered. -/
inductive RenderError where
  | notFound (template : String)
  | malformed (cause : Template.SyntaxError)
  | noFilter (name : String)
  | undefined (name : String)
  | badCall (cause : CallError)
  | failed (cause : Failure)
deriving Repr

namespace RenderError

def message : RenderError → String
  | notFound template => template
  | malformed cause => cause.message
  | noFilter name => s!"No filter named '{name}'."
  | undefined name => s!"'{name}' is undefined"
  | badCall cause => cause.message
  | failed cause => cause.message

end RenderError

namespace Template

open Session (Work)

/-- The values that names of a template stand for. -/
abbrev Context := Table String Value

def citing {α : Type} (w : Work Failure α) : Work RenderError α :=
  ExceptT.adapt RenderError.failed w

/-- The value of an argument; a name without a value stands for nothing. -/
def Argument.eval (context : Context) : Argument → Value
  | .value v => v
  | .name n => (context.get? n).getD .none

/-- A citation in a text of its own. -/
def cite (a : Arguments) : Work RenderError String :=
  match Citation.ofArguments a with
  | .ok c => citing (Session.cite c)
  | .error e => throw (.badCall e)

/-- What is left out. Without regions there is nothing to do. -/
def leaveOut (a : Arguments) : Work RenderError String := do
  match Citation.omissionOf a with
  | .error e => throw (.badCall e)
  | .ok (path, selection) =>
    if (← get).regions.isNone then return ""
    else
      match path with
      | .text path => Session.leaveOut path selection
      | v => throw (.badCall (.notAPath v.typeName))

def capitals : Value → Work RenderError String
  | .text s => return Text.upper s
  | v => throw (.badCall (.noOperation v.typeName "upper"))

/-- The use of a macro in a file with an argument under a key. -/
def citeMacro (path name key : String) (v : Value) : Work RenderError String :=
  let spec := Value.dict [(.text "name", .text name), (.text key, v)]
  citing (Session.cite { path := path, selection := { macroUse := some spec } })

/-- The texts of several uses of a macro. -/
def citeMacros (path name key : String) : List String → Work RenderError (List String)
  | [] => return []
  | v :: vs => do
    let here ← citeMacro path name key (.text v)
    return here :: (← citeMacros path name key vs)

def actOn (v : Value) : TagAction → Work RenderError String
  | .capitals tail => do return (← capitals v) ++ tail
  | .lead head =>
    match v with
    | .text s => return head ++ s
    | v => throw (.badCall (.notJoinable v.typeName))
  | .function path => citing (Session.cite { path := path, selection := { function := v.text? } })
  | .macroUse path name key => citeMacro path name key v
  | .macroUses path name key values => do
    return Text.join "\n\n" (← citeMacros path name key values)

def runTag (t : Tag) (a : Arguments) : Work RenderError String := do
  match t.signature.bind a with
  | .error e => throw (.badCall e)
  | .ok bound => actOn ((bound.head?.map (·.2)).getD .none) t.action

/-- What a call writes. The names of the context hide those of tags. -/
def runCall (context : Context) (f : String) (a : Arguments) : Work RenderError String := do
  match context.get? f with
  | some v => throw (.badCall (.notCallable v.typeName))
  | none =>
    match (← get).tags.get? f with
    | some t => runTag t a
    | none =>
      match f with
      | "code" => cite a
      | "ghc" => cite a
      | "ignore_changes" => leaveOut a
      | f => throw (.undefined f)

def Expr.eval (context : Context) : Expr → Work RenderError Value
  | .value v => return v
  | .name n => return (context.get? n).getD (.text "")
  | .call f inOrder named => do
    let a : Arguments := ⟨inOrder.map (·.eval context), named.map fun (n, a) => (n, a.eval context)⟩
    return .text (← runCall context f a)
  | .filtered (.name n) _ => do
    match context.get? n with
    | some v => return .text (← capitals v)
    | none => throw (.undefined n)
  | .filtered e _ => do
    let v ← e.eval context
    return .text (← capitals v)

/-- The filters of an expression, inner ones first. -/
def Expr.filters : Expr → List String
  | .filtered e f => e.filters ++ [f]
  | _ => []

def filtersOf : List Piece → List String
  | [] => []
  | .text _ :: ps => filtersOf ps
  | .expr e :: ps => e.filters ++ filtersOf ps

def write (context : Context) : List Piece → Work RenderError String
  | [] => return ""
  | .text s :: ps => do return s ++ (← write context ps)
  | .expr e :: ps => do
    let v ← e.eval context
    return v.display ++ (← write context ps)

/-- The text of a template. Nothing is written if it is malformed or asks for a filter that there is not. -/
def render (context : Context) (text : String) : Work RenderError String := do
  match ofString (Text.unifyEnds text) with
  | .error e => throw (.malformed e)
  | .ok ps =>
    let known := (← get).filters
    match (filtersOf ps).find? fun f => !known.contains f with
    | some f => throw (.noFilter f)
    | none => write context ps

/-- Takes in the tags of the project of a document in the directory `start`. -/
def loadTags (start : Path) : Work RenderError Unit := do
  let s ← get
  match TagFile.locate s.folder s.repo start with
  | none => return ()
  | some file =>
    let broken (cause : String) : Work RenderError Unit :=
      Session.note .error s!"Error loading custom tags from {file}: {cause}"
    match s.folder.read file with
    | .error e => broken e.message
    | .ok content =>
      match s.readTags content with
      | .noSetup => Session.note .warning s!"{file} missing setup_custom_tags function"
      | .broken cause => broken cause
      | .setup tags filters cause =>
        set { s with
          tags := tags.foldl (fun ts (name, t) => ts.put name t) s.tags, filters := s.filters ++ filters }
        match cause with
        | some cause => broken cause
        | none => return ()

/-- The text of the template called `name` below a directory. -/
def source (directory : Path) (name : String) : Work RenderError String := do
  let s ← get
  let path := Path.ofString name
  if path.parts.contains ".." || !s.folder.isFile (directory.join path) then throw (.notFound name)
  else citing (do return ← (← s.folder.read (directory.join path)).text?)

/-- The text of the template called `name` below a directory, rendered with the tags of its project. -/
def renderNamed (directory : Path) (name : String) (context : Context) : Work RenderError String := do
  let path := directory.child name
  let rendered : Work RenderError String := do
    loadTags (if (← get).folder.isFile path then path.parent else path)
    render context (← source directory name)
  tryCatch rendered fun e => do
    match e with
    | .notFound name => Session.note .error s!"Template not found: {name}"
    | e => Session.note .error s!"Template rendering failed: {e.message}"
    throw e

/-- Puts a text into a file, in a directory that is made if it is missing. -/
def save (output : Path) (text : String) : Work RenderError Unit := do
  let s ← get
  match s.folder.save output (Bytes.ofString text) with
  | .ok folder => set { s with folder := folder }
  | .error e => throw (.failed e)

/-- Renders a template below a directory, and puts its text into a file if one is given. -/
def renderFile (directory template : Path) (output : Option Path) (context : Context) :
    Work RenderError String := do
  match Hub.relative? directory template with
  | none => throw (.failed (.notBelow template.toString directory.toString))
  | some name =>
    let text ← renderNamed directory name.toString context
    if let some output := output then save output text
    return text

end Template

end Excerpt
