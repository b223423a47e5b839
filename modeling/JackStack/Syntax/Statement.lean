import JackStack.Syntax.Expression

/-!
# Statements

The five statements of the language. Blocks nest, at most `limit` deep, as for expressions.
-/

namespace JackStack.Syntax

open JackStack.Parser

/-- A statement begins here. -/
def atStatement (t : Option Token) : Bool :=
  atKeyword .letKw t || atKeyword .ifKw t || atKeyword .whileKw t || atKeyword .doKw t ||
    atKeyword .returnKw t

/-- The closing brace of a block. -/
def closeBlock : Parser Unit := do
  unless ← accept '}' do fail .statement

/-- A block of statements in braces. -/
def block (statement : Parser Unit) (limit : Nat) : Parser Unit := do
  expect '{'
  let _ ← repeatWhile atStatement statement limit
  closeBlock

/-- The right side of a `let`: a value, what stores it, and the semicolon. -/
def assignment (limit : Nat) (store : Action) : Parser Unit := do
  expect '='
  expression limit
  report store
  expect ';'

/-- `let` stores the value of an expression in a variable or in an element of an array. -/
def letStatement (limit : Nat) : Parser Unit := do
  advance
  let pos ← here
  let name ← identifier
  report (.use name pos)
  if ← accept '[' then
    expression limit
    report (.index name)
    expect ']'
    assignment limit .storeElement
  else
    assignment limit (.store name)

/-- `if` with its block and, behind `else`, another one. -/
def ifStatement (statement : Parser Unit) (limit : Nat) : Parser Unit := do
  advance
  expect '('
  report .openBranch
  expression limit
  report .leaveUnless
  expect ')'
  block statement limit
  report .turnBack
  if atKeyword .elseKw (← look) then
    advance
    block statement limit
  report .markFirst
  report .closeBranch

/-- `while` with its block. -/
def whileStatement (statement : Parser Unit) (limit : Nat) : Parser Unit := do
  advance
  expect '('
  report .openBranch
  report .markFirst
  expression limit
  report .leaveUnless
  expect ')'
  block statement limit
  report .turnBack
  report .closeBranch

/-- `do` calls a subroutine for its effect. -/
def doStatement (limit : Nat) : Parser Unit := do
  advance
  call (expression limit) limit
  report .discard
  expect ';'

/-- `return` with a value or without one. -/
def returnStatement (limit : Nat) : Parser Unit := do
  advance
  if atSymbol ';' (← look) then
    report .loadZero
  else
    expression limit
  report .giveBack
  expect ';'

/-- A statement, nested at most `limit` deep. -/
def statement : (limit : Nat) → Parser Unit
  | 0 => fail .statement
  | limit + 1 => do
    match ← look with
    | some (.keyword .letKw) => letStatement limit
    | some (.keyword .ifKw) => ifStatement (statement limit) limit
    | some (.keyword .whileKw) => whileStatement (statement limit) limit
    | some (.keyword .doKw) => doStatement limit
    | some (.keyword .returnKw) => returnStatement limit
    | _ => fail .statement

end JackStack.Syntax
