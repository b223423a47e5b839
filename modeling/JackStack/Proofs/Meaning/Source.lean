import JackStack.Proofs.Code.Reference
import Mathlib.Logic.Function.Basic

/-!
# What a class means

A subroutine works on words: its arguments, its local variables, the static variables of its class
and the heap, where the fields of the receiver are kept. Expressions have a value in every state.
Statements either finish in a state or return a value, and a loop may do neither; `Runs` is the
relation between a statement, the state in front of it and what it comes to. What other
subroutines do is not known here, so a call is an arbitrary function.
-/

namespace JackStack

/-- The values of the language. -/
abbrev Word := BitVec 16

/-- The truth value `true`. -/
def Word.yes : Word := 0xFFFF#16

/-- The word of a truth value. -/
def Word.ofBool (b : Bool) : Word := if b then yes else 0

/-- What the subroutines of a class share. -/
structure World where
  /-- The static variables. -/
  statics : Nat → Word
  /-- The heap. -/
  heap : Word → Word

/-- What a call comes to: for the name and the arguments the result and the world behind it. -/
abbrev Library := String → List Word → World → Word × World

namespace Tree

/-- What a subroutine keeps for itself. -/
structure Frame where
  /-- Its arguments, the receiver of a method included. -/
  arguments : Nat → Word
  /-- Its variables. -/
  locals : Nat → Word
  /-- The address of the current object. -/
  receiver : Word

/-- What a statement works on. -/
structure State where
  /-- The part of the subroutine. -/
  frame : Frame
  /-- The part of everyone. -/
  world : World

/-- The value in a slot. -/
def Slot.read (s : Slot) (f : Frame) (w : World) : Word :=
  match s.kind with
  | .static => w.statics s.index
  | .field => w.heap (f.receiver + .ofNat 16 s.index)
  | .argument => f.arguments s.index
  | .local => f.locals s.index

/-- The state with a value in a slot. -/
def Slot.write (s : Slot) (v : Word) (st : State) : State :=
  match s.kind with
  | .static =>
    { st with world.statics := Function.update st.world.statics s.index v }
  | .field =>
    { st with
      world.heap := Function.update st.world.heap (st.frame.receiver + .ofNat 16 s.index) v }
  | .argument =>
    { st with frame.arguments := Function.update st.frame.arguments s.index v }
  | .local => { st with frame.locals := Function.update st.frame.locals s.index v }

namespace Context

/-- The value of a variable; a name that is not declared has none, and zero stands for it. -/
def value (ctx : Context) (name : String) (f : Frame) (w : World) : Word :=
  match ctx.slot? name with
  | some s => s.read f w
  | none => 0

/-- The state behind the assignment of a value to a variable. -/
def assign (ctx : Context) (name : String) (v : Word) (st : State) : State :=
  match ctx.slot? name with
  | some s => s.write v st
  | none => st

/-- The receiver of a call, if it has one: the variable before the dot, or without a dot the
current object, which a function does not have. -/
def receiver (ctx : Context) (owner : Option String) (f : Frame) (w : World) : List Word :=
  match owner with
  | none => if ctx.kind = .function then [] else [f.receiver]
  | some first =>
    match ctx.slot? first with
    | some s => [s.read f w]
    | none => []

/-- The name of the subroutine that is called: a variable before the dot stands for its type, and
without a dot the class of the current object is meant. -/
def callee (ctx : Context) (owner : Option String) (name : String) : String :=
  match owner with
  | none => if ctx.kind = .function then name else ctx.className ++ "." ++ name
  | some first =>
    match ctx.slot? first with
    | some s => s.type ++ "." ++ name
    | none => first ++ "." ++ name

end Context

/-! ## Expressions -/

/-- What an operator between two values comes to; products and quotients are the library's. -/
def binaryValue (lib : Library) (op : BinaryOp) (x y : Word) (w : World) : Word × World :=
  match op with
  | .add => (x + y, w)
  | .sub => (x - y, w)
  | .mul => lib "Math.multiply" [x, y] w
  | .div => lib "Math.divide" [x, y] w
  | .and => (x &&& y, w)
  | .or => (x ||| y, w)
  | .lt => (Word.ofBool (x.slt y), w)
  | .gt => (Word.ofBool (y.slt x), w)
  | .eq => (Word.ofBool (x == y), w)

/-- The value of an operator in front of a value. -/
def unaryValue (op : UnaryOp) (x : Word) : Word :=
  match op with
  | .neg => -x
  | .not => ~~~x

/-- The value of a reserved word. -/
def Constant.value (f : Frame) : Constant → Word
  | yes => Word.yes
  | no => 0
  | null => 0
  | this => f.receiver

/-- Characters appended to a string object one by one. -/
def appendValue (lib : Library) : List Char → Word → World → Word × World
  | [], object, w => (object, w)
  | c :: rest, object, w =>
    let (object', w') := lib "String.appendChar" [object, .ofNat 16 c.toNat] w
    appendValue lib rest object' w'

mutual

/-- The value of a term and the world behind it. -/
def Term.eval (ctx : Context) (lib : Library) (f : Frame) : Term → World → Word × World
  | .integer value, w => (.ofNat 16 value.toNat, w)
  | .string content, w =>
    let (object, w') := lib "String.new" [.ofNat 16 content.length] w
    appendValue lib content.toList object w'
  | .constant word, w => (word.value f, w)
  | .var name, w => (ctx.value name f w, w)
  | .element array index, w =>
    let (i, w') := index.eval ctx lib f w
    (w'.heap (ctx.value array f w' + i), w')
  | .call target, w => target.eval ctx lib f w
  | .group inner, w => inner.eval ctx lib f w
  | .unary op operand, w =>
    let (x, w') := operand.eval ctx lib f w
    (unaryValue op x, w')

/-- The value of an expression and the world behind it. -/
def Expression.eval (ctx : Context) (lib : Library) (f : Frame) :
    Expression → World → Word × World
  | .chain first rest, w =>
    let (x, w') := first.eval ctx lib f w
    operationEval ctx lib f rest x w'

/-- What operators, each with its term, make of the value in front of them. -/
def operationEval (ctx : Context) (lib : Library) (f : Frame) :
    List (BinaryOp × Term) → Word → World → Word × World
  | [], x, w => (x, w)
  | (op, operand) :: rest, x, w =>
    let (y, w') := operand.eval ctx lib f w
    let (z, w'') := binaryValue lib op x y w'
    operationEval ctx lib f rest z w''

/-- The result of a call: the receiver comes before the arguments. -/
def Call.eval (ctx : Context) (lib : Library) (f : Frame) : Call → World → Word × World
  | .mk owner name args, w =>
    let (values, w') := argumentEval ctx lib f args w
    lib (ctx.callee owner name) (ctx.receiver owner f w ++ values) w'

/-- The values of arguments, from left to right. -/
def argumentEval (ctx : Context) (lib : Library) (f : Frame) :
    List Expression → World → List Word × World
  | [], w => ([], w)
  | arg :: rest, w =>
    let (v, w') := arg.eval ctx lib f w
    let (values, w'') := argumentEval ctx lib f rest w'
    (v :: values, w'')

end

/-- The value of an expression in a state, and the state behind it. -/
def Expression.evalIn (ctx : Context) (lib : Library) (e : Expression) (st : State) :
    Word × State :=
  let (v, w) := e.eval ctx lib st.frame st.world
  (v, { st with world := w })

/-! ## Statements -/

/-- What statements come to. -/
inductive Completion where
  /-- Control goes on behind them. -/
  | finished (st : State)
  /-- The subroutine returns. -/
  | returned (value : Word) (world : World)

mutual

/-- A statement, the state in front of it and what it comes to. -/
inductive Statement.Runs (ctx : Context) (lib : Library) : Statement → State → Completion → Prop
  | assign {name : String} {value : Expression} {st st' : State} {v : Word}
      (hvalue : value.evalIn ctx lib st = (v, st')) :
      Statement.Runs ctx lib (.assign name value) st (.finished (ctx.assign name v st'))
  /-- The address is known before the value is. -/
  | assignElement {array : String} {index value : Expression} {st st' st'' : State} {i v : Word}
      (hindex : index.evalIn ctx lib st = (i, st'))
      (hvalue : value.evalIn ctx lib st' = (v, st'')) :
      Statement.Runs ctx lib (.assignElement array index value) st (.finished
        { st'' with
          world.heap := Function.update st''.world.heap
            (ctx.value array st'.frame st'.world + i) v })
  | ifThen {condition : Expression} {block : List Statement} {st st' : State} {o : Completion}
      (hcondition : condition.evalIn ctx lib st = (Word.yes, st'))
      (hblock : BlockRuns ctx lib block st' o) :
      Statement.Runs ctx lib (.ifThen condition block) st o
  | ifThenSkip {condition : Expression} {block : List Statement} {st st' : State} {v : Word}
      (hcondition : condition.evalIn ctx lib st = (v, st')) (hv : v ≠ Word.yes) :
      Statement.Runs ctx lib (.ifThen condition block) st (.finished st')
  | ifElse {condition : Expression} {block other : List Statement} {st st' : State} {o : Completion}
      (hcondition : condition.evalIn ctx lib st = (Word.yes, st'))
      (hblock : BlockRuns ctx lib block st' o) :
      Statement.Runs ctx lib (.ifElse condition block other) st o
  | ifElseOther {condition : Expression} {block other : List Statement} {st st' : State}
      {v : Word} {o : Completion} (hcondition : condition.evalIn ctx lib st = (v, st'))
      (hv : v ≠ Word.yes) (hother : BlockRuns ctx lib other st' o) :
      Statement.Runs ctx lib (.ifElse condition block other) st o
  | whileDone {condition : Expression} {block : List Statement} {st st' : State} {v : Word}
      (hcondition : condition.evalIn ctx lib st = (v, st')) (hv : v ≠ Word.yes) :
      Statement.Runs ctx lib (.whileLoop condition block) st (.finished st')
  | whileAgain {condition : Expression} {block : List Statement} {st st' st'' : State}
      {o : Completion}
      (hcondition : condition.evalIn ctx lib st = (Word.yes, st'))
      (hblock : BlockRuns ctx lib block st' (.finished st''))
      (hagain : Statement.Runs ctx lib (.whileLoop condition block) st'' o) :
      Statement.Runs ctx lib (.whileLoop condition block) st o
  | whileReturned {condition : Expression} {block : List Statement} {st st' : State} {v : Word}
      {w : World} (hcondition : condition.evalIn ctx lib st = (Word.yes, st'))
      (hblock : BlockRuns ctx lib block st' (.returned v w)) :
      Statement.Runs ctx lib (.whileLoop condition block) st (.returned v w)
  | perform {target : Call} {st : State} {v : Word} {w : World}
      (htarget : target.eval ctx lib st.frame st.world = (v, w)) :
      Statement.Runs ctx lib (.perform target) st (.finished { st with world := w })
  | giveBackNone {st : State} : Statement.Runs ctx lib (.giveBack none) st (.returned 0 st.world)
  | giveBack {value : Expression} {st st' : State} {v : Word}
      (hvalue : value.evalIn ctx lib st = (v, st')) :
      Statement.Runs ctx lib (.giveBack (some value)) st (.returned v st'.world)

/-- Statements, the state in front of them and what they come to. -/
inductive BlockRuns (ctx : Context) (lib : Library) : List Statement → State → Completion → Prop
  | nil {st : State} : BlockRuns ctx lib [] st (.finished st)
  | cons {s : Statement} {rest : List Statement} {st st' : State} {o : Completion}
      (hs : s.Runs ctx lib st (.finished st')) (hrest : BlockRuns ctx lib rest st' o) :
      BlockRuns ctx lib (s :: rest) st o
  | returned {s : Statement} {rest : List Statement} {st : State} {v : Word} {w : World}
      (hs : s.Runs ctx lib st (.returned v w)) : BlockRuns ctx lib (s :: rest) st (.returned v w)

end

end Tree

/-! ## Subroutines -/

/-- How a subroutine ends. -/
structure Ending where
  /-- The value it returns; none if control falls off its end. -/
  value : Option Word
  /-- The world it leaves behind. -/
  world : World

namespace Tree

/-- How a subroutine ends whose statements come to an outcome. -/
def Completion.ending : Completion → Ending
  | finished st => ⟨none, st.world⟩
  | returned v w => ⟨some v, w⟩

/-- The state in front of the statements of a subroutine. The variables are zero. A method works
on its first argument, a constructor on a new object, and a function on what `this` is there. -/
def Context.entry (ctx : Context) (lib : Library) (arguments : Nat → Word) (this : Word)
    (w : World) : State :=
  match ctx.kind with
  | .function => ⟨⟨arguments, fun _ => 0, this⟩, w⟩
  | .method => ⟨⟨arguments, fun _ => 0, arguments 0⟩, w⟩
  | .constructor =>
    let (object, w') := lib "Memory.alloc" [.ofNat 16 (countKind .field ctx.shared)] w
    ⟨⟨arguments, fun _ => 0, object⟩, w'⟩

/-- A subroutine that is called with arguments ends this way. -/
def Subroutine.Ends (c : Class) (lib : Library) (s : Subroutine) (arguments : Nat → Word)
    (this : Word) (w : World) (e : Ending) : Prop :=
  ∃ o, BlockRuns (c.context s) lib s.body ((c.context s).entry lib arguments this w) o ∧
    o.ending = e

end Tree

end JackStack
