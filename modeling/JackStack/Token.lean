import JackStack.Position

/-!
# Tokens of the Jack language

Five kinds of token, each with its own payload: reserved words, one-character symbols,
identifiers, integer constants and string constants. A lexeme is a token with the position of its
first byte.
-/

namespace JackStack

/-- The reserved words. -/
inductive Keyword where
  | classKw | constructorKw | methodKw | functionKw
  | intKw | booleanKw | charKw | voidKw
  | varKw | staticKw | fieldKw
  | letKw | doKw | ifKw | elseKw | whileKw | returnKw
  | trueKw | falseKw | nullKw | thisKw
  deriving DecidableEq, Repr

namespace Keyword

/-- Every reserved word, once. -/
def all : List Keyword :=
  [classKw, constructorKw, methodKw, functionKw, intKw, booleanKw, charKw, voidKw, varKw,
   staticKw, fieldKw, letKw, doKw, ifKw, elseKw, whileKw, returnKw, trueKw, falseKw, nullKw,
   thisKw]

/-- The word as it is written. -/
def text : Keyword → String
  | classKw => "class"
  | constructorKw => "constructor"
  | methodKw => "method"
  | functionKw => "function"
  | intKw => "int"
  | booleanKw => "boolean"
  | charKw => "char"
  | voidKw => "void"
  | varKw => "var"
  | staticKw => "static"
  | fieldKw => "field"
  | letKw => "let"
  | doKw => "do"
  | ifKw => "if"
  | elseKw => "else"
  | whileKw => "while"
  | returnKw => "return"
  | trueKw => "true"
  | falseKw => "false"
  | nullKw => "null"
  | thisKw => "this"

/-- The reserved word that is written like this, if there is one. -/
def ofText? (word : String) : Option Keyword := all.find? (·.text == word)

/-- No reserved word is missing in the list of all. -/
theorem mem_all (k : Keyword) : k ∈ all := by
  cases k <;> decide

/-- Reading back what is written gives the same word. -/
theorem ofText?_text (k : Keyword) : ofText? k.text = some k := by
  cases k <;> decide

/-- Different reserved words are written differently. -/
theorem text_injective {j k : Keyword} (h : j.text = k.text) : j = k := by
  have hk := congrArg ofText? h
  rwa [ofText?_text, ofText?_text, Option.some.injEq] at hk

end Keyword

/-- The one-byte symbols. -/
def symbols : String := "\x7b\x7d()[].,;+-*/&|<>=~_"

/-- A classified token. -/
inductive Token where
  | keyword (word : Keyword)
  | symbol (char : Char)
  | identifier (name : String)
  | integer (value : UInt32)
  | string (content : String)
  deriving DecidableEq, Repr

namespace Token

/-- The name of the token's kind. -/
def kind : Token → String
  | keyword _ => "keyword"
  | symbol _ => "symbol"
  | identifier _ => "identifier"
  | integer _ => "integer"
  | string _ => "string"

/-- The token as it is written, a string constant without its quotes. -/
def text : Token → String
  | keyword k => k.text
  | symbol c => String.singleton c
  | identifier name => name
  | integer n => toString n.toNat
  | string s => s

/-- The token is this symbol. -/
def isSymbol (t : Token) (c : Char) : Bool := t = symbol c

/-- The token is this reserved word. -/
def isKeyword (t : Token) (k : Keyword) : Bool := t = keyword k

/-- What a message says was found: a token, or the end of the input. -/
def describe : Option Token → String
  | none => "end of input"
  | some (string s) => "string \"" ++ s ++ "\""
  | some t => t.kind ++ " '" ++ t.text ++ "'"

end Token

/-- A token and the position of its first byte. -/
structure Lexeme where
  /-- The token. -/
  token : Token
  /-- Where it begins. -/
  pos : Position
  deriving DecidableEq, Repr

end JackStack
