import JackStack.Source.Cursor

/-!
# What the grammar reports

Recognising a class reports a sequence of actions, in the order in which the constructs are
recognised. Actions carry names, constants and positions but no scopes, addresses or code: what
they mean for the program is decided where they are carried out.
-/

namespace JackStack

/-- The kinds of variable. -/
inductive VarKind where
  | static
  | field
  | argument
  | local
  deriving DecidableEq, Repr

/-- The kinds of subroutine. -/
inductive SubKind where
  | constructor
  | function
  | method
  deriving DecidableEq, Repr

/-- The operators between two terms. -/
inductive BinaryOp where
  | add | sub | mul | div | and | or | lt | gt | eq
  deriving DecidableEq, Repr

/-- The operators in front of a term. -/
inductive UnaryOp where
  | neg | not
  deriving DecidableEq, Repr

/-- The operator between two terms that a token stands for, if any. -/
def BinaryOp.ofToken? : Option Token → Option BinaryOp
  | some (.symbol '+') => some .add
  | some (.symbol '-') => some .sub
  | some (.symbol '*') => some .mul
  | some (.symbol '/') => some .div
  | some (.symbol '&') => some .and
  | some (.symbol '|') => some .or
  | some (.symbol '<') => some .lt
  | some (.symbol '>') => some .gt
  | some (.symbol '=') => some .eq
  | _ => none

/-- One report of the grammar. -/
inductive Action where
  /-- A lexeme was drawn from the source. -/
  | scan (lexeme : Lexeme)
  /-- The name of the class was read. -/
  | nameClass (name : String)
  /-- A variable is declared. -/
  | declare (kind : VarKind) (type name : String) (pos : Position)
  /-- A subroutine begins. -/
  | openSub (kind : SubKind)
  /-- The name of the subroutine was read. -/
  | nameSub (name : String)
  /-- All declarations of the subroutine were read and its statements follow. -/
  | openBody
  /-- A variable is about to be used. -/
  | use (name : String) (pos : Position)
  /-- The value of a variable is wanted. -/
  | load (name : String)
  /-- A variable takes the last value. -/
  | store (name : String)
  /-- An array variable turns the last value, an index, into an address. -/
  | index (name : String)
  /-- The value at the last address is wanted. -/
  | loadElement
  /-- The last value goes to the address before it. -/
  | storeElement
  /-- An integer constant was met. -/
  | checkInteger (value : UInt32) (pos : Position)
  /-- The value of an integer constant is wanted. -/
  | loadInteger (value : UInt32)
  /-- A string constant was met. -/
  | checkString (content : String) (pos : Position)
  /-- A new string object is wanted. -/
  | loadString (content : String)
  /-- The value of `true` is wanted. -/
  | loadTrue
  /-- Zero is wanted: `false`, `null`, or the value of a bare `return`. -/
  | loadZero
  /-- The current object is wanted. -/
  | loadThis
  /-- A unary operator applies to the last value. -/
  | applyUnary (op : UnaryOp)
  /-- A binary operator applies to the last two values. -/
  | applyBinary (op : BinaryOp)
  /-- What stands before the dot of a call receives it, if it is a variable. -/
  | receive (name : String)
  /-- The current object, if there is one, receives a call without a dot. -/
  | receiveThis
  /-- A subroutine is called with a number of arguments. -/
  | call (owner : Option String) (name : String) (args : Nat)
  /-- The value of a call is thrown away. -/
  | discard
  /-- The last value is returned. -/
  | giveBack
  /-- A condition begins: an `if` or `while` takes two labels. -/
  | openBranch
  /-- The first label of the innermost branch stands here. -/
  | markFirst
  /-- Control goes to the second label of the innermost branch unless the last value is true. -/
  | leaveUnless
  /-- Control goes to the first label of the innermost branch, whose second label stands here. -/
  | turnBack
  /-- The innermost branch ends. -/
  | closeBranch
  deriving DecidableEq, Repr

end JackStack
