import JackStack.Text.Column

/-!
# Instructions of the stack machine

The instructions that a class is compiled to, and the one line that each of them is written as.
-/

namespace JackStack

/-- The memory segments. -/
inductive Segment where
  | constant | argument | local | static | this | that | pointer | temp
  deriving DecidableEq, Repr

/-- The name of a segment. -/
def Segment.text : Segment → String
  | constant => "constant"
  | argument => "argument"
  | .local => "local"
  | static => "static"
  | this => "this"
  | that => "that"
  | pointer => "pointer"
  | temp => "temp"

/-- The commands on the values on top of the stack. -/
inductive Command where
  | add | sub | neg | eq | gt | lt | and | or | not
  deriving DecidableEq, Repr

/-- The name of a command. -/
def Command.text : Command → String
  | add => "add"
  | sub => "sub"
  | neg => "neg"
  | eq => "eq"
  | gt => "gt"
  | lt => "lt"
  | and => "and"
  | or => "or"
  | not => "not"

/-- An instruction. -/
inductive Instruction where
  | push (segment : Segment) (index : UInt32)
  | pop (segment : Segment) (index : UInt32)
  | arithmetic (command : Command)
  | label (name : String)
  | goto (name : String)
  | ifGoto (name : String)
  | call (name : String) (args : UInt32)
  | function (name : String) (locals : UInt32)
  | ret
  deriving DecidableEq, Repr

namespace Instruction

/-- The instruction as it is written. -/
def text : Instruction → String
  | push segment index => "push " ++ segment.text ++ " " ++ toString index.toNat
  | pop segment index => "pop " ++ segment.text ++ " " ++ toString index.toNat
  | arithmetic command => command.text
  | label name => "label " ++ name
  | goto name => "goto " ++ name
  | ifGoto name => "if-goto " ++ name
  | call name args => "call " ++ name ++ " " ++ toString args.toNat
  | function name locals => "function " ++ name ++ " " ++ toString locals.toNat
  | ret => "return"

/-- The instruction defines a label. -/
def isLabel : Instruction → Bool
  | label _ => true
  | _ => false

/-- The instruction opens a function. -/
def isFunction : Instruction → Bool
  | function _ _ => true
  | _ => false

/-- The line of an instruction under an indentation; labels are never indented. -/
def line (indent : Nat) (i : Instruction) : String :=
  Text.spaces (if i.isLabel then 0 else indent) ++ i.text ++ "\n"

/-- The line of an instruction inside a compiled class, where a function is not indented but its
body is. -/
def bodyLine (indent : Nat) (i : Instruction) : String :=
  i.line (if i.isFunction then 0 else indent)

end Instruction

end JackStack
