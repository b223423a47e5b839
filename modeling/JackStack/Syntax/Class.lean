import JackStack.Syntax.Statement

/-!
# Classes

A source holds one class: variables of the class first, then subroutines, and nothing behind the
closing brace. `parse` recognises it in the outcomes of a source.
-/

namespace JackStack.Syntax

open JackStack.Parser

/-- The kind of class variable that a reserved word declares. -/
def classVarKind? : Option Token → Option VarKind
  | some (.keyword .staticKw) => some .static
  | some (.keyword .fieldKw) => some .field
  | _ => none

/-- The kind of subroutine that a reserved word begins. -/
def subKind? : Option Token → Option SubKind
  | some (.keyword .constructorKw) => some .constructor
  | some (.keyword .functionKw) => some .function
  | some (.keyword .methodKw) => some .method
  | _ => none

/-- The name of the type that a token stands for. -/
def typeName? : Option Token → Option String
  | some (.keyword .intKw) => some Keyword.intKw.text
  | some (.keyword .charKw) => some Keyword.charKw.text
  | some (.keyword .booleanKw) => some Keyword.booleanKw.text
  | some (.identifier name) => some name
  | _ => none

/-- A type. -/
def type : Parser String := do
  match typeName? (← look) with
  | some name =>
    advance
    return name
  | none => fail .type

/-- A type or `void`, whose name is of no consequence. -/
def returnType : Parser Unit := do
  let token ← look
  if atKeyword .voidKw token || (typeName? token).isSome then advance else fail .returnType

/-- The name of a declared variable. -/
def declaration (kind : VarKind) (type : String) : Parser Unit := do
  let pos ← here
  let name ← identifier
  report (.declare kind type name pos)

/-- A type and the variables declared with it, up to the semicolon. -/
def declarations (kind : VarKind) (limit : Nat) : Parser Unit := do
  let type ← type
  let _ ← commaSeparated (declaration kind type) limit
  expect ';'

/-- The variables of one `static` or `field` declaration. -/
def classVariables (limit : Nat) : Parser Unit := do
  match classVarKind? (← look) with
  | some kind =>
    advance
    declarations kind limit
  | none => fail .member

/-- A parameter. -/
def parameter : Parser Unit := do
  let type ← type
  declaration .argument type

/-- The parameters up to the closing parenthesis, which is left in place. -/
def parameters (limit : Nat) : Parser Unit := do
  if atSymbol ')' (← look) then
    return ()
  else
    let _ ← commaSeparated parameter limit
    return ()

/-- The variables of one `var` declaration. -/
def localVariables (limit : Nat) : Parser Unit := do
  advance
  declarations .local limit

/-- The body of a subroutine: its variables and then its statements. -/
def body (limit : Nat) : Parser Unit := do
  expect '{'
  let _ ← repeatWhile (atKeyword .varKw) (localVariables limit) limit
  report .openBody
  let _ ← repeatWhile atStatement (statement limit) limit
  closeBlock

/-- A subroutine. -/
def subroutine (limit : Nat) : Parser Unit := do
  match subKind? (← look) with
  | some kind =>
    advance
    report (.openSub kind)
    returnType
    let name ← identifier
    report (.nameSub name)
    expect '('
    parameters limit
    expect ')'
    body limit
  | none => fail .member

/-- A class. -/
def classDeclaration (limit : Nat) : Parser Unit := do
  expectKeyword .classKw
  let name ← identifier
  report (.nameClass name)
  expect '{'
  let _ ← repeatWhile (fun t => (classVarKind? t).isSome) (classVariables limit) limit
  let _ ← repeatWhile (fun t => (subKind? t).isSome) (subroutine limit) limit
  unless ← accept '}' do fail .member

/-- A class and the end of the input behind it. -/
def program (limit : Nat) : Parser Unit := do
  classDeclaration limit
  if (← look).isSome then fail .endOfInput

/-- Recognises the class in the outcomes of a source whose end is at `finish`. -/
def parse (outcomes : List Outcome) (finish : Position) : Parse Unit :=
  (do advance; program outcomes.length : Parser Unit) (.before outcomes finish)

end JackStack.Syntax
