import Excerpt.Template.Token

/-!
# Reading templates

A template is read from left to right. Comments are left out. A sign within the brackets of a comment or an
expression strips the blanks on its side. Blanks before a comment at the start of a line are left out too,
and so is a line feed right after a comment.
-/

namespace Excerpt.Template

/-- The value that a name stands for. -/
def constant? : String → Option Value
  | "true" => some (.bool true)
  | "True" => some (.bool true)
  | "false" => some (.bool false)
  | "False" => some (.bool false)
  | "none" => some .none
  | "None" => some .none
  | _ => none

def joinedText (s : String) : List Token → String × List Token
  | .text t :: ts => joinedText (s ++ t) ts
  | ts => (s, ts)

/-- Why a value does not start here. -/
def noValue : List Token → SyntaxError
  | .mark c :: _ => .unexpected c
  | _ => .noExpression

mutual

/-- A value; `depth` bounds how deep values lie in each other. -/
def value (depth : Nat) (ts : List Token) : Except SyntaxError (Value × List Token) :=
  match depth with
  | 0 => .error .noExpression
  | depth + 1 =>
    match ts with
    | .int n :: ts => .ok (.int n, ts)
    | .text s :: ts =>
      let (s, ts) := joinedText s ts
      .ok (.text s, ts)
    | .name n :: ts =>
      match constant? n with
      | some v => .ok (v, ts)
      | none => .error .noExpression
    | .mark c :: ts =>
      match c with
      | '-' => do
        match ← value depth ts with
        | (.int n, ts) => .ok (.int (-n), ts)
        | _ => .error (.unexpected c)
      | '+' => do
        match ← value depth ts with
        | (.int n, ts) => .ok (.int n, ts)
        | _ => .error (.unexpected c)
      | '[' => do
        let ((vs, _), ts) ← members depth ']' ts
        return (.list vs, ts)
      | '(' => do
        match ← members depth ')' ts with
        | (([v], false), ts) => return (v, ts)
        | ((vs, _), ts) => return (.tuple vs, ts)
      | '\x7b' => do
        let (es, ts) ← entries depth ts
        return (.dict es, ts)
      | c => .error (.unexpected c)
    | [] => .error .noExpression

/-- The members of a collection up to its closing mark, and whether a comma stands between or after them. -/
def members (depth : Nat) (close : Char) (ts : List Token) : Except SyntaxError ((List Value × Bool) × List Token) :=
  match depth with
  | 0 => .error .noExpression
  | depth + 1 =>
    if ts.head? == some (.mark close) then .ok (([], false), ts.drop 1)
    else do
      let (v, ts) ← value depth ts
      match ts with
      | .mark ',' :: ts => do
        let ((vs, _), ts) ← members depth close ts
        return ((v :: vs, true), ts)
      | .mark c :: ts => if c == close then return (([v], false), ts) else throw (.unexpected c)
      | _ => throw .notClosed

/-- The entries of a dictionary up to its closing mark. -/
def entries (depth : Nat) (ts : List Token) : Except SyntaxError (List (Value × Value) × List Token) :=
  match depth with
  | 0 => .error .noExpression
  | depth + 1 =>
    if ts.head? == some (.mark '\x7d') then .ok ([], ts.drop 1)
    else do
      let (k, ts) ← value depth ts
      match ts with
      | .mark ':' :: ts => do
        let (v, ts) ← value depth ts
        match ts with
        | .mark ',' :: ts => do
          let (es, ts) ← entries depth ts
          return ((k, v) :: es, ts)
        | .mark '\x7d' :: ts => return ([(k, v)], ts)
        | ts => throw (noValue ts)
      | ts => throw (noValue ts)

end

/-- A value of a call. -/
def argument (ts : List Token) : Except SyntaxError (Argument × List Token) :=
  match ts with
  | .name n :: rest =>
    match constant? n with
    | some v => .ok (.value v, rest)
    | none => .ok (.name n, rest)
  | ts => do
    let (v, ts) ← value (ts.length + 1) ts
    return (.value v, ts)

/-- The values of a call up to the closing mark: those in order, and after them those under names. The count of
tokens bounds how many there can be. -/
def arguments (count : Nat) (ts : List Token) :
    Except SyntaxError ((List Argument × List (String × Argument)) × List Token) :=
  match count with
  | 0 => .error .badCall
  | count + 1 =>
    match ts with
    | .mark ')' :: ts => .ok (([], []), ts)
    | .name n :: .mark '=' :: ts => do
      let (a, ts) ← argument ts
      let ((inOrder, named), ts) ← rest count ts
      if inOrder.isEmpty then return (([], (n, a) :: named), ts) else throw .badCall
    | ts => do
      let (a, ts) ← argument ts
      let ((inOrder, named), ts) ← rest count ts
      return ((a :: inOrder, named), ts)
where
  /-- The values after one of them. -/
  rest (count : Nat) :
      List Token → Except SyntaxError ((List Argument × List (String × Argument)) × List Token)
    | .mark ',' :: ts => arguments count ts
    | .mark ')' :: ts => .ok (([], []), ts)
    | ts => .error (noValue ts)

/-- The filters that an expression is passed through. -/
def filters (e : Expr) : List Token → Except SyntaxError (Expr × List Token)
  | .mark '|' :: .name f :: ts => filters (.filtered e f) ts
  | ts => .ok (e, ts)

def expression (ts : List Token) : Except SyntaxError (Expr × List Token) := do
  match ts with
  | .name n :: .mark '(' :: ts =>
    let ((inOrder, named), ts) ← arguments (ts.length + 1) ts
    filters (.call n inOrder named) ts
  | ts =>
    match ← argument ts with
    | (.value v, ts) => filters (.value v) ts
    | (.name n, ts) => filters (.name n) ts

def tupleRest (count : Nat) (ts : List Token) : Except SyntaxError (List Value × List Token) :=
  match count, ts with
  | count + 1, .mark ',' :: ts =>
    if ts.isEmpty then .ok ([], [])
    else do
      let (v, ts) ← value (ts.length + 1) ts
      let (vs, ts) ← tupleRest count ts
      return (v :: vs, ts)
  | _, ts => .ok ([], ts)

/-- The expression that tokens spell. -/
def ofTokens (ts : List Token) : Except SyntaxError Expr := do
  let (e, rest) ← expression ts
  match e, rest with
  | e, [] => return e
  | .value v, .mark ',' :: _ =>
    match ← tupleRest rest.length rest with
    | (vs, []) => return .value (.tuple (v :: vs))
    | _ => throw .notClosed
  | _, _ => throw .notClosed

/-- How an expression is bracketed: the marks that are open, and the quote that is. -/
structure Nesting where
  opened : List Char
  quote : Option Char
  /-- Whether the last character was a backslash within quotes. -/
  escaped : Bool

def closing : Char → Option Char
  | '(' => some ')'
  | '[' => some ']'
  | '\x7b' => some '\x7d'
  | _ => none

/-- Takes in a character of an expression. -/
def Nesting.step (n : Nesting) (c : Char) : Except SyntaxError Nesting :=
  match n.quote with
  | some q =>
    if n.escaped then .ok { n with escaped := false }
    else if c == '\\' then .ok { n with escaped := true }
    else if c == q then .ok { n with quote := none }
    else .ok n
  | none =>
    if c == '"' || c == Char.ofNat 39 then .ok { n with quote := some c }
    else
      match closing c with
      | some d => .ok { n with opened := d :: n.opened }
      | none =>
        if [')', ']', '\x7d'].contains c then
          match n.opened with
          | d :: opened => if c == d then .ok { n with opened := opened } else .error (.unexpected c)
          | [] => .error (.unexpected c)
        else .ok n

/-- The characters of an expression up to its end, what stands behind it, and whether blanks there are stripped. -/
def body (n : Nesting) (cs : List Char) : Except SyntaxError (List Char × List Char × Bool) :=
  match cs with
  | [] => .error .openExpression
  | c :: rest =>
    let atEnd := n.opened.isEmpty && n.quote.isNone
    if atEnd && "\x7d\x7d".toList.isPrefixOf cs then .ok ([], cs.drop 2, false)
    else if atEnd && "-\x7d\x7d".toList.isPrefixOf cs then .ok ([], cs.drop 3, true)
    else do
      let (inside, rest, strip) ← body (← n.step c) rest
      return (c :: inside, rest, strip)

/-- The end of a comment: what stands behind it, and whether a line starts there. -/
def commentEnd : List Char → Except SyntaxError (List Char × Bool)
  | [] => .error .openComment
  | c :: cs =>
    if "-#\x7d".toList.isPrefixOf (c :: cs) then
      let blanks := (cs.drop 2).takeWhile Text.isBlank
      .ok ((cs.drop 2).dropWhile Text.isBlank, blanks.getLast? == some '\n')
    else if "+#\x7d".toList.isPrefixOf (c :: cs) then .ok (cs.drop 2, false)
    else if "#\x7d".toList.isPrefixOf (c :: cs) then
      match cs.drop 1 with
      | '\n' :: rest => .ok (rest, true)
      | rest => .ok (rest, false)
    else commentEnd cs

/-- The text before the next bracket, and what follows it. -/
def untilBracket : List Char → List Char × List Char
  | [] => ([], [])
  | c :: cs =>
    if c == '\x7b' && cs.head?.any ['\x7b', '#', '%'].contains then ([], c :: cs)
    else
      let (text, rest) := untilBracket cs
      (c :: text, rest)

/-- The sign behind a bracket. -/
def sign : List Char → Option Char × List Char
  | '-' :: cs => (some '-', cs)
  | '+' :: cs => (some '+', cs)
  | cs => (none, cs)

/-- The text before a comment: without the blanks after its last line feed, if there is nothing else there. -/
def beforeComment (lineStart : Bool) (text : List Char) : List Char :=
  let last := (text.reverse.takeWhile (· != '\n')).reverse
  if !last.isEmpty && last.all Text.isBlank && (lineStart || last.length < text.length) then
    text.take (text.length - last.length)
  else text

/-- The pieces of a template; `lineStart` says whether a line starts here, and `count` bounds how many there are. -/
def pieces (count : Nat) (lineStart : Bool) (cs : List Char) : Except SyntaxError (List Piece) :=
  match count with
  | 0 => .ok []
  | count + 1 =>
    match untilBracket cs with
    | (text, []) => .ok [.text (String.ofList text)]
    | (text, _ :: kind :: rest) => do
      let (s, rest) := sign rest
      let bare := if s == some '-' then Text.trimEndBy Text.isBlank text else text
      if kind == '\x7b' then
        let (inside, rest, strip) ← body ⟨[], none, false⟩ rest
        let e ← ofTokens (← Token.scan 0 inside)
        let blanks := if strip then rest.takeWhile Text.isBlank else []
        let more ← pieces count (blanks.getLast? == some '\n') (rest.drop blanks.length)
        return .text (String.ofList bare) :: .expr e :: more
      else if kind == '#' then
        let text := if s.isNone then beforeComment lineStart text else bare
        if rest.isEmpty then return [.text (String.ofList text)]
        else
          let (rest, lineStart) ← commentEnd rest
          let more ← pieces count lineStart rest
          return .text (String.ofList text) :: more
      else throw .statement
    | (text, _) => .ok [.text (String.ofList text)]

/-- The template that a text is. One line feed at its very end does not count. -/
def ofString (s : String) : Except SyntaxError (List Piece) :=
  let cs := s.toList
  let cs := if cs.getLast? == some '\n' then cs.dropLast else cs
  pieces (cs.length + 1) true cs

end Excerpt.Template
