import JackStack.Syntax.Parser

/-!
# Expressions

An expression is a chain of terms and binary operators without precedence, applied from left to
right. Terms nest; the nesting is bounded by `limit`, which callers choose not below the number of
remaining tokens, since every level of nesting consumes one.
-/

namespace JackStack.Syntax

open JackStack.Parser

/-- A binary operator stands here. -/
def atOperator (t : Option Token) : Bool := (BinaryOp.ofToken? t).isSome

/-- A binary operator, the term behind it, and the application. -/
def operation (term : Parser Unit) : Parser Unit := do
  match BinaryOp.ofToken? (← look) with
  | some op =>
    advance
    term
    report (.applyBinary op)
  | none => return ()

/-- A chain of terms and operators. -/
def chain (term : Parser Unit) (limit : Nat) : Parser Unit := do
  term
  let _ ← repeatWhile atOperator (operation term) limit
  return ()

/-- The arguments of a call up to the closing parenthesis, which is left in place; gives their
number. -/
def arguments (expression : Parser Unit) (limit : Nat) : Parser Nat := do
  if atSymbol ')' (← look) then return 0 else commaSeparated expression limit

/-- The arguments of a call in parentheses, and the call of the subroutine. -/
def callWith (expression : Parser Unit) (limit : Nat) (owner : Option String) (name : String) :
    Parser Unit := do
  expect '('
  let args ← arguments expression limit
  expect ')'
  report (.call owner name args)

/-- A call: a name, or a name with an owner before a dot, and the arguments. -/
def call (expression : Parser Unit) (limit : Nat) : Parser Unit := do
  let first ← identifier
  if ← accept '.' then
    let name ← identifier
    report (.receive first)
    callWith expression limit (some first) name
  else
    report .receiveThis
    callWith expression limit none first

/-- A term that begins with an identifier: a call, an array element or a variable. The token
behind the name decides. -/
def named (expression : Parser Unit) (limit : Nat) (name : String) (pos : Position) :
    Parser Unit := do
  let next ← peek
  if atSymbol '(' next || atSymbol '.' next then
    call expression limit
  else
    report (.use name pos)
    advance
    if atSymbol '[' next then
      expect '['
      expression
      report (.index name)
      report .loadElement
      expect ']'
    else
      report (.load name)

/-- A term that begins with a symbol: an expression in parentheses, or a unary operator and its
term. -/
def symbolTerm (term : Parser Unit) (limit : Nat) : Char → Parser Unit
  | '(' => do
    advance
    chain term limit
    expect ')'
  | '-' => do
    advance
    term
    report (.applyUnary .neg)
  | '~' => do
    advance
    term
    report (.applyUnary .not)
  | _ => fail .term

/-- A term that is a reserved word. -/
def keywordTerm : Keyword → Parser Unit
  | .trueKw => do
    advance
    report .loadTrue
  | .falseKw => do
    advance
    report .loadZero
  | .nullKw => do
    advance
    report .loadZero
  | .thisKw => do
    advance
    report .loadThis
  | _ => fail .term

/-- A term, given how the terms inside it are recognised. -/
def termWith (term : Parser Unit) (limit : Nat) : Parser Unit := do
  let pos ← here
  match ← look with
  | some (.identifier name) => named (chain term limit) limit name pos
  | some (.symbol c) => symbolTerm term limit c
  | some (.integer value) =>
    report (.checkInteger value pos)
    advance
    report (.loadInteger value)
  | some (.string content) =>
    report (.checkString content pos)
    advance
    report (.loadString content)
  | some (.keyword word) => keywordTerm word
  | none => fail .term

/-- A term, nested at most `limit` deep. -/
def term : (limit : Nat) → Parser Unit
  | 0 => fail .term
  | limit + 1 => termWith (term limit) limit

/-- An expression, nested at most `limit` deep. -/
def expression (limit : Nat) : Parser Unit := chain (term limit) limit

end JackStack.Syntax
