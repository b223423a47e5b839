import JackStack.Code.Scope

/-!
# The log

A record has a level, the part of the program it comes from, and a message. Notes are what the
compilation of a class has to say, before it is put into words.
-/

namespace JackStack

/-- The levels, from the most to the least urgent. -/
inductive Level where
  | error | warn | info | debug | trace
  deriving DecidableEq, Repr

namespace Level

/-- The name of a level. -/
def text : Level → String
  | error => "ERROR"
  | warn => "WARN"
  | info => "INFO"
  | debug => "DEBUG"
  | trace => "TRACE"

/-- How far down a level stands. -/
def rank : Level → Nat
  | error => 1
  | warn => 2
  | info => 3
  | debug => 4
  | trace => 5

end Level

/-- A record of the log. -/
structure Record where
  /-- How urgent it is. -/
  level : Level
  /-- The part of the program it comes from. -/
  origin : String
  /-- What it says. -/
  message : String
  deriving DecidableEq, Repr

namespace Record

/-- The record with its level in a column of a given width. -/
def text (r : Record) (width : Nat) : String :=
  Text.alignLeft width r.level.text ++ " [" ++ r.origin ++ "] " ++ r.message

/-- The record is let through when records down to a rank are wanted. -/
def within (r : Record) (rank : Nat) : Bool := r.level.rank ≤ rank

end Record

/-- The name of a kind of subroutine in the log. -/
def SubKind.text : SubKind → String
  | .constructor => "Constructor"
  | .function => "Function"
  | .method => "Method"

/-- What the compilation of a class has to say. -/
inductive Note where
  /-- A lexeme was drawn. -/
  | scanned (lexeme : Lexeme)
  /-- A class begins. -/
  | classBegun (name : String)
  /-- A subroutine of a class begins. -/
  | subBegun (kind : SubKind) (className name : String)
  /-- The declarations of a subroutine are complete. -/
  | scopeComplete (className name : String) (scope : Scope)
  deriving DecidableEq, Repr

/-- The note in words. -/
def Note.record : Note → Record
  | scanned lx =>
    ⟨.trace, "jack::scanner", lx.pos.text ++ ": " ++ lx.token.kind ++ " " ++ lx.token.text⟩
  | classBegun name => ⟨.debug, "jack::compiler", "compiling class " ++ name⟩
  | subBegun kind className name =>
    ⟨.debug, "jack::compiler", "compiling " ++ kind.text ++ " " ++ className ++ "." ++ name⟩
  | scopeComplete className name scope =>
    ⟨.trace, "jack::compiler", className ++ "." ++ name ++ " symbols:\n" ++ scope.table⟩

end JackStack
