import JackStack.Syntax.Action

/-!
# Syntax trees

A tree has one node for every construct of the language and nothing else: no positions, no layout
and no scopes. `tokens` spells a tree out, so the language is the set of the token sequences of
its classes. Operators have no precedence; an expression is a first term and the operators behind
it, each with its term.
-/

namespace JackStack

/-- The symbol of an operator between two terms. -/
def BinaryOp.char : BinaryOp → Char
  | add => '+'
  | sub => '-'
  | mul => '*'
  | div => '/'
  | and => '&'
  | or => '|'
  | lt => '<'
  | gt => '>'
  | eq => '='

/-- The symbol of an operator in front of a term. -/
def UnaryOp.char : UnaryOp → Char
  | neg => '-'
  | not => '~'

namespace Tree

/-- The constants that are reserved words. -/
inductive Constant where
  | yes
  | no
  | null
  | this
  deriving DecidableEq, Repr

/-- The reserved word of a constant. -/
def Constant.keyword : Constant → Keyword
  | yes => .trueKw
  | no => .falseKw
  | null => .nullKw
  | this => .thisKw

/-- The types a variable can be declared with. -/
inductive TypeName where
  | int
  | char
  | boolean
  | named (name : String)
  deriving DecidableEq, Repr

/-- The token of a type. -/
def TypeName.token : TypeName → Token
  | int => .keyword .intKw
  | char => .keyword .charKw
  | boolean => .keyword .booleanKw
  | named name => .identifier name

/-- The name of a type. -/
def TypeName.text : TypeName → String
  | int => "int"
  | char => "char"
  | boolean => "boolean"
  | named name => name

mutual

/-- A term. -/
inductive Term where
  | integer (value : UInt32)
  | string (content : String)
  | constant (word : Constant)
  /-- A variable. -/
  | var (name : String)
  /-- An element of an array. -/
  | element (array : String) (index : Expression)
  | call (target : Call)
  /-- An expression in parentheses. -/
  | group (inner : Expression)
  | unary (op : UnaryOp) (operand : Term)

/-- A term and the operators behind it, each with its term. -/
inductive Expression where
  | chain (first : Term) (rest : List (BinaryOp × Term))

/-- A call, with what stands before the dot if there is one. -/
inductive Call where
  | mk (owner : Option String) (name : String) (args : List Expression)

end

/-- A statement. -/
inductive Statement where
  /-- `let` with a variable. -/
  | assign (name : String) (value : Expression)
  /-- `let` with an element of an array. -/
  | assignElement (array : String) (index value : Expression)
  /-- `if` without `else`. -/
  | ifThen (condition : Expression) (block : List Statement)
  | ifElse (condition : Expression) (block other : List Statement)
  | whileLoop (condition : Expression) (block : List Statement)
  /-- `do`. -/
  | perform (target : Call)
  /-- `return`. -/
  | giveBack (value : Option Expression)

/-- Names declared with one type. -/
structure Group where
  /-- The type of all of them. -/
  type : TypeName
  /-- The first name. -/
  first : String
  /-- The names behind it. -/
  others : List String
  deriving DecidableEq, Repr

/-- The kinds of class variable. -/
inductive Sharing where
  | static
  | field
  deriving DecidableEq, Repr

/-- The reserved word that declares class variables of a kind. -/
def Sharing.keyword : Sharing → Keyword
  | static => .staticKw
  | field => .fieldKw

/-- A declaration of class variables. -/
structure ClassGroup where
  /-- Whether the objects of the class share them. -/
  sharing : Sharing
  /-- The names and their type. -/
  group : Group
  deriving DecidableEq, Repr

/-- A parameter. -/
structure Parameter where
  /-- Its type. -/
  type : TypeName
  /-- Its name. -/
  name : String
  deriving DecidableEq, Repr

/-- A subroutine. -/
structure Subroutine where
  /-- Constructor, function or method. -/
  kind : SubKind
  /-- The type of the result; none for `void`. -/
  returns : Option TypeName
  /-- Its name. -/
  name : String
  /-- Its parameters. -/
  parameters : List Parameter
  /-- Its `var` declarations. -/
  locals : List Group
  /-- Its statements. -/
  body : List Statement

/-- A class. -/
structure Class where
  /-- Its name. -/
  name : String
  /-- Its `static` and `field` declarations. -/
  groups : List ClassGroup
  /-- Its subroutines. -/
  subroutines : List Subroutine

/-! ## Spelling -/

mutual

/-- The tokens of a term. -/
def Term.tokens : Term → List Token
  | .integer value => [.integer value]
  | .string content => [.string content]
  | .constant word => [.keyword word.keyword]
  | .var name => [.identifier name]
  | .element array index => .identifier array :: .symbol '[' :: index.tokens ++ [.symbol ']']
  | .call target => target.tokens
  | .group inner => .symbol '(' :: inner.tokens ++ [.symbol ')']
  | .unary op operand => .symbol op.char :: operand.tokens

/-- The tokens of an expression. -/
def Expression.tokens : Expression → List Token
  | .chain first rest => first.tokens ++ operationTokens rest

/-- The tokens of the operators behind a term, each with its term. -/
def operationTokens : List (BinaryOp × Term) → List Token
  | [] => []
  | (op, operand) :: rest => .symbol op.char :: operand.tokens ++ operationTokens rest

/-- The tokens of a call. -/
def Call.tokens : Call → List Token
  | .mk none name args => .identifier name :: .symbol '(' :: argumentTokens args ++ [.symbol ')']
  | .mk (some owner) name args =>
    .identifier owner :: .symbol '.' :: .identifier name :: .symbol '(' :: argumentTokens args ++
      [.symbol ')']

/-- The tokens of arguments, with commas between them. -/
def argumentTokens : List Expression → List Token
  | [] => []
  | arg :: rest => arg.tokens ++ furtherTokens rest

/-- The tokens of arguments, with a comma in front of each. -/
def furtherTokens : List Expression → List Token
  | [] => []
  | arg :: rest => .symbol ',' :: arg.tokens ++ furtherTokens rest

end

mutual

/-- The tokens of a statement. -/
def Statement.tokens : Statement → List Token
  | .assign name value =>
    .keyword .letKw :: .identifier name :: .symbol '=' :: value.tokens ++ [.symbol ';']
  | .assignElement array index value =>
    .keyword .letKw :: .identifier array :: .symbol '[' :: index.tokens ++
      .symbol ']' :: .symbol '=' :: value.tokens ++ [.symbol ';']
  | .ifThen condition block =>
    .keyword .ifKw :: .symbol '(' :: condition.tokens ++
      .symbol ')' :: .symbol '{' :: blockTokens block ++ [.symbol '}']
  | .ifElse condition block other =>
    .keyword .ifKw :: .symbol '(' :: condition.tokens ++
      .symbol ')' :: .symbol '{' :: blockTokens block ++
      .symbol '}' :: .keyword .elseKw :: .symbol '{' :: blockTokens other ++ [.symbol '}']
  | .whileLoop condition block =>
    .keyword .whileKw :: .symbol '(' :: condition.tokens ++
      .symbol ')' :: .symbol '{' :: blockTokens block ++ [.symbol '}']
  | .perform target => .keyword .doKw :: target.tokens ++ [.symbol ';']
  | .giveBack none => [.keyword .returnKw, .symbol ';']
  | .giveBack (some value) => .keyword .returnKw :: value.tokens ++ [.symbol ';']

/-- The tokens of statements. -/
def blockTokens : List Statement → List Token
  | [] => []
  | s :: rest => s.tokens ++ blockTokens rest

end

/-- The tokens of names, with a comma in front of each. -/
def nameTokens (names : List String) : List Token :=
  names.flatMap fun name => [.symbol ',', .identifier name]

/-- The tokens of names declared with one type, up to the semicolon. -/
def Group.tokens (g : Group) : List Token :=
  g.type.token :: .identifier g.first :: nameTokens g.others ++ [.symbol ';']

/-- The tokens of a declaration of class variables. -/
def ClassGroup.tokens (g : ClassGroup) : List Token := .keyword g.sharing.keyword :: g.group.tokens

/-- The tokens of a parameter. -/
def Parameter.tokens (p : Parameter) : List Token := [p.type.token, .identifier p.name]

/-- The tokens of parameters, with commas between them. -/
def parameterTokens : List Parameter → List Token
  | [] => []
  | p :: rest => p.tokens ++ rest.flatMap fun q => .symbol ',' :: q.tokens

/-- The reserved word that begins a subroutine of a kind. -/
def subKeyword : SubKind → Keyword
  | .constructor => .constructorKw
  | .function => .functionKw
  | .method => .methodKw

/-- The token of what a subroutine returns. -/
def returnToken : Option TypeName → Token
  | none => .keyword .voidKw
  | some type => type.token

/-- The tokens of `var` declarations. -/
def localTokens (groups : List Group) : List Token :=
  groups.flatMap fun g => .keyword .varKw :: g.tokens

/-- The tokens of a subroutine. -/
def Subroutine.tokens (s : Subroutine) : List Token :=
  .keyword (subKeyword s.kind) :: returnToken s.returns :: .identifier s.name :: .symbol '(' ::
    parameterTokens s.parameters ++ .symbol ')' :: .symbol '{' :: localTokens s.locals ++
    blockTokens s.body ++ [.symbol '}']

/-- The tokens of a class. -/
def Class.tokens (c : Class) : List Token :=
  .keyword .classKw :: .identifier c.name :: .symbol '{' ::
    c.groups.flatMap ClassGroup.tokens ++ c.subroutines.flatMap Subroutine.tokens ++
    [.symbol '}']

end Tree

end JackStack
