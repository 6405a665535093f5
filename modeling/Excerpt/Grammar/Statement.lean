import Excerpt.Grammar.Reading

/-!
# Statements and initialisers

What is not a declaration is taken as one flat node. A statement that starts with a control keyword ends
with a semicolon or closing brace outside inner braces; any other one ends with the first semicolon, or
before the first closing brace.
-/

namespace Excerpt.Grammar

/-- The last token of a control statement. `last` is the last token taken so far, `depth` the number of
braces open. -/
def controlEnd (depth : Nat) (last : Token) : (ts : List Token) → Reading Token ts
  | [] => .stay last []
  | t :: ts =>
    if t.isFinish || (t.spelled "\x7d" && depth == 0) then .stay last (t :: ts)
    else
      let depth := if t.spelled "\x7b" then depth + 1 else if t.spelled "\x7d" then depth - 1 else depth
      if depth == 0 && t.spelledIn [";", "\x7d"] then .past t t ts
      else (controlEnd depth t ts).push t

/-- A statement that starts with the control keyword `t`. -/
def control (t : Token) (ts : List Token) : Reading Node ts :=
  let r := controlEnd 0 t ts
  r.withValue (.between "statement" t r.value)

/-- The last token of a plain statement, which takes its semicolon along. -/
def plainEnd (last : Token) : (ts : List Token) → Reading Token ts
  | [] => .stay last []
  | t :: ts =>
    if t.isFinish || t.spelled "\x7d" then .stay last (t :: ts)
    else if t.spelled ";" then .past t t ts
    else (plainEnd t ts).push t

/-- A statement that starts with any other token `t`. -/
def plain (t : Token) (ts : List Token) : Reading Node ts :=
  let r := plainEnd t ts
  r.withValue (.between "statement" t r.value)

/-- The tokens after an initialiser: from the semicolon outside braces on, or after the brace that closes
the outermost one. -/
def afterInitialiser (depth : Nat) : (ts : List Token) → Reading Unit ts
  | [] => .stay () []
  | t :: ts =>
    if t.isFinish || (t.spelled ";" && depth == 0) then .stay () (t :: ts)
    else if t.spelled "\x7d" && depth ≤ 1 then .past () t ts
    else
      let depth := if t.spelled "\x7b" then depth + 1 else if t.spelled "\x7d" then depth - 1 else depth
      (afterInitialiser depth ts).push t

end Excerpt.Grammar
