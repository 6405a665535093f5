import Excerpt.Value

/-!
# Templates

A template is a document with expressions in it. An expression is a value, a name, or a call, and may be
passed through filters.
-/

namespace Excerpt.Template

/-- A value of a call: written down, or named. -/
inductive Argument where
  | value (v : Value)
  | name (n : String)
deriving Repr

/-- An expression. -/
inductive Expr where
  | value (v : Value)
  | name (n : String)
  | call (f : String) (inOrder : List Argument) (named : List (String × Argument))
  | filtered (e : Expr) (filter : String)
deriving Repr

/-- A piece of a template. -/
inductive Piece where
  | text (s : String)
  | expr (e : Expr)
deriving Repr

/-- Why a text is no template. -/
inductive SyntaxError where
  | openComment
  | openExpression
  | noExpression
  | unexpected (c : Char)
  | notClosed
  | badCall
  | badText
  | statement
deriving Repr, DecidableEq

namespace SyntaxError

/-- The words for a text that is no template. -/
def message : SyntaxError → String
  | openComment => "Missing end of comment tag"
  | openExpression => "unexpected end of template, expected 'end of print statement'."
  | noExpression => "Expected an expression, got 'end of print statement'"
  | unexpected c => s!"unexpected '{c}'"
  | notClosed => "expected token 'end of print statement'"
  | badCall => "invalid syntax for function call expression"
  | badText => "malformed text"
  | statement => "Encountered unknown tag."

end SyntaxError

end Excerpt.Template
