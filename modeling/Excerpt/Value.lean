import Excerpt.Text.Quoted
import Excerpt.Text.Split

/-!
# Values

The values that a document can write down: nothing, truth values, whole numbers, texts, lists, tuples and
dictionaries. A value has a text of its own, in which texts stand as they are, and a spelling, in which
texts stand in quotes. The text of a collection spells its members.
-/

namespace Excerpt

/-- A value written in a document. -/
inductive Value where
  | none
  | bool (b : Bool)
  | int (n : Int)
  | text (s : String)
  | list (members : List Value)
  | tuple (members : List Value)
  | dict (entries : List (Value × Value))
deriving Repr, Inhabited

namespace Value

mutual

def spelling : Value → String
  | none => "None"
  | bool b => if b then "True" else "False"
  | int n => toString n
  | text s => Text.quoted s
  | list members => "[" ++ Text.join ", " (spellings members) ++ "]"
  | tuple members =>
    match spellings members with
    | [one] => "(" ++ one ++ ",)"
    | several => "(" ++ Text.join ", " several ++ ")"
  | dict entries => "\x7b" ++ Text.join ", " (entrySpellings entries) ++ "\x7d"

def spellings : List Value → List String
  | [] => []
  | v :: vs => v.spelling :: spellings vs

def entrySpellings : List (Value × Value) → List String
  | [] => []
  | (k, v) :: es => (k.spelling ++ ": " ++ v.spelling) :: entrySpellings es

end

def display : Value → String
  | text s => s
  | v => v.spelling

/-- Whether a value counts as given: nothing, zero and what is empty do not. -/
def isGiven : Value → Bool
  | none => false
  | bool b => b
  | int n => n != 0
  | text s => !s.isEmpty
  | list members => !members.isEmpty
  | tuple members => !members.isEmpty
  | dict entries => !entries.isEmpty

def typeName : Value → String
  | none => "NoneType"
  | bool _ => "bool"
  | int _ => "int"
  | text _ => "str"
  | list _ => "list"
  | tuple _ => "tuple"
  | dict _ => "dict"

def text? (v : Value) : Option String :=
  if v.isGiven then some v.display else Option.none

/-- Whether a value is the text `s`. -/
def isText (v : Value) (s : String) : Bool :=
  match v with
  | text t => t == s
  | _ => false

end Value

end Excerpt
