import JackStack.Text.Quoted
import JackStack.Token

/-!
# Why a compilation fails

Every failure is a cause with its data. The wording stands in one place, `Error.message`, and the
four classes tell apart what the text of the program, its grammar, its names and constants, and
the streams around it can do wrong.
-/

namespace JackStack

/-- Kinds of failure of a stream or of the file system. -/
inductive IoKind where
  | notFound
  | notADirectory
  | isADirectory
  | invalidInput
  | other
  deriving DecidableEq, Repr

/-- A failure of a stream or of the file system, with its own text. -/
structure IoError where
  /-- What kind of failure it is. -/
  kind : IoKind
  /-- The text that messages show. -/
  message : String
  deriving DecidableEq, Repr

/-- What the grammar asks for at a place. -/
inductive Expectation where
  | symbol (char : Char)
  | keyword (word : Keyword)
  | identifier
  | type
  | returnType
  | member
  | statement
  | term
  | endOfInput
  deriving DecidableEq, Repr

/-- The expectation in words. -/
def Expectation.text : Expectation → String
  | symbol c => "'" ++ String.singleton c ++ "'"
  | keyword k => "'" ++ k.text ++ "'"
  | identifier => "identifier"
  | type => "type"
  | returnType => "'void' or type"
  | member => "'constructor', 'function', 'method' or '\x7d'"
  | statement => "statement or '\x7d'"
  | term => "term"
  | endOfInput => "end of input"

/-- The four classes of failure. -/
inductive ErrorClass where
  | lexical
  | syntactic
  | semantic
  | io
  deriving DecidableEq, Repr

/-- Why a compilation failed. -/
inductive Error where
  /-- A string constant has no closing quote; the position is that of the opening one. -/
  | unterminatedString (pos : Position)
  /-- A block comment is not closed; the position is that of its first byte. -/
  | unterminatedComment (pos : Position)
  /-- A byte begins no token; it is shown as the character of that number. -/
  | unexpectedChar (pos : Position) (char : Char)
  /-- A string constant does not hold text. -/
  | invalidString (pos : Position)
  /-- The grammar asks for something else than what stands here. -/
  | unexpectedToken (pos : Position) (expected : Expectation) (found : Option Token)
  /-- A name is declared a second time in its scope. -/
  | redefined (pos : Position) (name : String)
  /-- A variable is used that neither scope declares. -/
  | undefined (pos : Position) (name : String)
  /-- An integer constant, or the length of a string constant, is too large. -/
  | intOutOfRange (pos : Position) (value : UInt32)
  /-- A string constant holds a character with too large a code point. -/
  | charOutOfRange (pos : Position) (char : Char)
  /-- A stream or the file system failed. -/
  | io (cause : IoError)
  deriving DecidableEq, Repr

/-- The text for a name that its scope already holds. -/
def alreadyDefined (name : String) : String := "identifier '" ++ name ++ "' already defined"

namespace Error

/-- The class of a failure. -/
def errorClass : Error → ErrorClass
  | unterminatedString _ | unterminatedComment _ | unexpectedChar _ _ | invalidString _ => .lexical
  | unexpectedToken _ _ _ => .syntactic
  | redefined _ _ | undefined _ _ | intOutOfRange _ _ | charOutOfRange _ _ => .semantic
  | io _ => .io

/-- The place that a failure blames; a failing stream blames none. -/
def pos : Error → Option Position
  | unterminatedString p | unterminatedComment p | unexpectedChar p _ | invalidString p
  | unexpectedToken p _ _ | redefined p _ | undefined p _ | intOutOfRange p _
  | charOutOfRange p _ => some p
  | io _ => none

/-- What went wrong, without the place. -/
def cause : Error → String
  | unterminatedString _ => "unterminated string"
  | unterminatedComment _ => "unterminated block comment"
  | unexpectedChar _ c => "unexpected char " ++ Text.quoted c
  | invalidString _ => "string constant is not valid UTF-8"
  | unexpectedToken _ expected found =>
    "expected " ++ expected.text ++ ", got " ++ Token.describe found
  | redefined _ name => alreadyDefined name
  | undefined _ name => "variable " ++ name ++ " undefined"
  | intOutOfRange _ value => "integer constant " ++ toString value.toNat ++ " out of range"
  | charOutOfRange _ c => "character " ++ Text.quoted c ++ " out of range"
  | io e => e.message

/-- The whole message: the place, if there is one, and what went wrong there. -/
def message (e : Error) : String :=
  match e.pos with
  | some p => p.text ++ ": " ++ e.cause
  | none => e.cause

/-- The message followed by the failure behind it: a name declared twice is first refused by its
scope, so the refusal is told again. -/
def trail (e : Error) : List String :=
  match e with
  | redefined _ name => [e.message, alreadyDefined name]
  | _ => [e.message]

end Error

end JackStack
