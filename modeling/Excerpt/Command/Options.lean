import Excerpt.Command.Markers
import Excerpt.Command.Render

/-!
# Command lines

A command line names a command, its options and its arguments. Options may stand anywhere behind the
command; one that takes a value has it in the next word, or in the same one.
-/

namespace Excerpt.Shell

/-- What a command line asks for. -/
inductive Command where
  | render (o : RenderOptions)
  | findMarkers (o : MarkerOptions)
  | listFunctions
  | guide

/-- An option of a command. -/
structure CommandOption where
  name : String
  spellings : List String
  takesValue : Bool

/-- The words of a command line, sorted. -/
structure Words where
  options : Table String String
  arguments : List String

namespace Words

def option? (options : List CommandOption) (word : String) : Option CommandOption :=
  options.find? fun o => o.spellings.contains word

/-- The option and the value that one word spells together. -/
def withValue? (options : List CommandOption) (word : String) : Option (CommandOption × String) :=
  if Text.startsWith word "--" then do
    let name := Text.beforeFirst "=" word
    let o ← option? options name
    if o.takesValue && name != word then return (o, Text.drop (name.length + 1) word) else none
  else do
    let o ← option? options (Text.take 2 word)
    if o.takesValue && 2 < word.length then return (o, Text.drop 2 word) else none

def isArgument (word : String) : Bool :=
  !Text.startsWith word "-" || word == "-"

def sort (options : List CommandOption) (w : Words) : List String → Except String Words
  | [] => .ok w
  | word :: rest =>
    if isArgument word then sort options { w with arguments := w.arguments ++ [word] } rest
    else if word == "--" then .ok { w with arguments := w.arguments ++ rest }
    else
      match option? options word with
      | some o =>
        if o.takesValue then
          match rest with
          | v :: rest => sort options { w with options := w.options.put o.name v } rest
          | [] => .error s!"Option '{word}' requires an argument."
        else sort options { w with options := w.options.put o.name "" } rest
      | none =>
        match withValue? options word with
        | some (o, v) => sort options { w with options := w.options.put o.name v } rest
        | none => .error s!"No such option: {word}"

/-- Whether an option was given. -/
def has (w : Words) (name : String) : Bool :=
  (w.options.get? name).isSome

/-- The path that an option gives. -/
def path (w : Words) (name : String) (default : Path) : Path :=
  ((w.options.get? name).map Path.ofString).getD default

end Words

def renderOptions : List CommandOption := [
  ⟨"repo", ["--repo-path", "-r"], true⟩, ⟨"collect", ["--collect-error-fixtures"], false⟩,
  ⟨"remap", ["--remap-dirty-lines"], false⟩, ⟨"validate", ["-V", "--validate-changes"], true⟩,
  ⟨"strict", ["--strict"], false⟩, ⟨"commit", ["--commit", "-c"], true⟩]

def markerOptions : List CommandOption := [
  ⟨"since", ["--since"], true⟩, ⟨"remove", ["--remove"], false⟩, ⟨"repo", ["--repo-path", "-r"], true⟩]

def renderCommand (cwd : Path) (words : List String) : Except String Command := do
  let w ← Words.sort renderOptions ⟨[], []⟩ words
  let make (input : String) (output : Option String) : Command :=
    .render {
      input := .ofString input
      output := output.map Path.ofString
      repo := w.path "repo" cwd
      collect := w.has "collect"
      remap := w.has "remap"
      validate := w.options.get? "validate"
      strict := w.has "strict"
      commit := w.options.get? "commit" }
  match w.arguments with
  | [input] => return make input none
  | [input, output] => return make input (some output)
  | [] => throw "Missing argument 'INPUT_PATH'."
  | _ :: _ :: extra =>
    let plural := if extra.length == 1 then "" else "s"
    throw (s!"Got unexpected extra argument{plural} (" ++ Text.join " " extra ++ ")")

def markersCommand (cwd : Path) (words : List String) : Except String Command := do
  let w ← Words.sort markerOptions ⟨[], []⟩ words
  match w.options.get? "since", w.arguments with
  | some since, [] => return .findMarkers ⟨since, w.has "remove", w.path "repo" cwd⟩
  | none, _ => throw "Missing option '--since'."
  | _, extra =>
    let plural := if extra.length == 1 then "" else "s"
    throw (s!"Got unexpected extra argument{plural} (" ++ Text.join " " extra ++ ")")

/-- The command that a command line asks for. How much is logged does not change it. -/
def Command.ofWords (cwd : Path) : List String → Except String Command
  | [] => .error "Missing command."
  | word :: words =>
    if ["-v", "--verbose", "-d", "--debug"].contains word then Command.ofWords cwd words
    else
      match word with
      | "render" => renderCommand cwd words
      | "find-markers" => markersCommand cwd words
      | "list-functions" => .ok .listFunctions
      | "ai-guide" => .ok .guide
      | word => .error s!"No such command '{word}'."

end Excerpt.Shell
