import JackStack.Code.Instruction
import JackStack.Log

/-!
# Carrying out the actions of the grammar

`Generator.step` carries out one action: it keeps the scopes, checks names and constants, hands
out labels, and answers with notes and instructions in their order. `generate` carries out a
sequence of actions and stops at the first one that fails.
-/

namespace JackStack

/-- What carrying out an action leads to. -/
inductive Event where
  | note (note : Note)
  | emit (instruction : Instruction)
  deriving DecidableEq, Repr

/-- What is known about the class and the subroutine so far. -/
structure Generator where
  /-- The name of the class. -/
  className : String := ""
  /-- The variables of the class. -/
  classScope : Scope := .empty
  /-- The name of the subroutine. -/
  subName : String := ""
  /-- The kind of the subroutine. -/
  subKind : SubKind := .function
  /-- The parameters and variables of the subroutine. -/
  subScope : Scope := .empty
  /-- The number of labels handed out. -/
  labels : Nat := 0
  /-- The number of the first label of each open branch, innermost first. -/
  branches : List Nat := []
  deriving DecidableEq, Repr

/-- The largest constant of the stack machine. -/
def maxConstant : UInt32 := 32767

/-- The segment that holds the variables of a kind. -/
def VarKind.segment : VarKind → Segment
  | .static => .static
  | .field => .this
  | .argument => .argument
  | .local => .local

/-- The instruction that puts a variable's value on the stack. -/
def Variable.push (v : Variable) : Instruction := .push v.kind.segment v.index

/-- The instruction that takes a variable's value from the stack. -/
def Variable.pop (v : Variable) : Instruction := .pop v.kind.segment v.index

/-- The instruction of a binary operator: a command or a call of the mathematics library. -/
def BinaryOp.instruction : BinaryOp → Instruction
  | add => .arithmetic .add
  | sub => .arithmetic .sub
  | mul => .call "Math.multiply" 2
  | div => .call "Math.divide" 2
  | and => .arithmetic .and
  | or => .arithmetic .or
  | lt => .arithmetic .lt
  | gt => .arithmetic .gt
  | eq => .arithmetic .eq

/-- The command of a unary operator. -/
def UnaryOp.instruction : UnaryOp → Instruction
  | neg => .arithmetic .neg
  | not => .arithmetic .not

/-- The instructions that build a string object, character by character. -/
def stringCode (content : String) : List Instruction :=
  .push .constant (UInt32.ofNat content.length) :: .call "String.new" 1 ::
    content.toList.flatMap fun c =>
      [.push .constant c.val, .call "String.appendChar" 2]

/-- What is wrong with a string constant: its first character that is too large, or else its
length. -/
def stringFault (content : String) (pos : Position) : Option Error :=
  match content.toList.find? (fun c => maxConstant < c.val) with
  | some c => some (.charOutOfRange pos c)
  | none =>
    let length := UInt32.ofNat content.length
    if maxConstant < length then some (.intOutOfRange pos length) else none

namespace Generator

/-- The variable of a name: that of the subroutine, or else that of the class. -/
def find? (g : Generator) (name : String) : Option Variable :=
  (g.subScope.find? name).or (g.classScope.find? name)

/-- The label with a number. -/
def label (g : Generator) (n : Nat) : String := g.className ++ "_" ++ toString n

/-- What the beginning of a body does, by the kind of the subroutine: a method takes its receiver
from the first argument, a constructor makes room for the fields of a new object. -/
def prologue (g : Generator) : List Instruction :=
  match g.subKind with
  | .method => [.push .argument 0, .pop .pointer 0]
  | .constructor =>
    [.push .constant (g.classScope.count .field), .call "Memory.alloc" 1, .pop .pointer 0]
  | .function => []

/-- The name of the called subroutine and whether a receiver goes in front of the arguments. A
variable before the dot receives the call of a method of its type, anything else before the dot
names a class. Without a dot the current object receives the call, and in a function, which has
none, the bare name is called. -/
def callee (g : Generator) (owner : Option String) (name : String) : String × Nat :=
  match owner with
  | some first =>
    match g.find? first with
    | some v => (v.type ++ "." ++ name, 1)
    | none => (first ++ "." ++ name, 0)
  | none =>
    if g.subKind = .function then (name, 0) else (g.className ++ "." ++ name, 1)

/-- Instructions as events. -/
def emitAll (code : List Instruction) : List Event := code.map .emit

/-- Code about the innermost open branch, given the labels of its pair. -/
def onBranch (g : Generator) (code : String → String → List Instruction) : List Event :=
  match g.branches with
  | [] => []
  | n :: _ => emitAll (code (g.label n) (g.label (n + 1)))

/-- Declares a variable in the scope that its kind belongs to. -/
def declare (g : Generator) (kind : VarKind) (type name : String) (pos : Position) :
    Except Error Generator :=
  match kind with
  | .static | .field =>
    match g.classScope.declare? kind type name with
    | some (_, scope) => .ok { g with classScope := scope }
    | none => .error (.redefined pos name)
  | .argument | .local =>
    match g.subScope.declare? kind type name with
    | some (_, scope) => .ok { g with subScope := scope }
    | none => .error (.redefined pos name)

/-- The scope a subroutine starts with: a method has its receiver as the first argument. -/
def freshScope (g : Generator) : SubKind → Scope
  | .method => Scope.empty.push ⟨"this", g.className, .argument, 0⟩
  | _ => .empty

/-- Carries out an action. -/
def step (g : Generator) : Action → Except Error (Generator × List Event)
  | .scan lx => .ok (g, [.note (.scanned lx)])
  | .nameClass name => .ok ({ g with className := name }, [.note (.classBegun name)])
  | .declare kind type name pos => do
    let g' ← g.declare kind type name pos
    return (g', [])
  | .openSub kind => .ok ({ g with subKind := kind, subScope := g.freshScope kind }, [])
  | .nameSub name =>
    .ok ({ g with subName := name }, [.note (.subBegun g.subKind g.className name)])
  | .openBody =>
    .ok (g, .note (.scopeComplete g.className g.subName g.subScope) ::
      emitAll (.function (g.className ++ "." ++ g.subName) (g.subScope.count .local) :: g.prologue))
  | .use name pos =>
    match g.find? name with
    | some _ => .ok (g, [])
    | none => .error (.undefined pos name)
  | .load name => .ok (g, emitAll ((g.find? name).toList.map Variable.push))
  | .store name => .ok (g, emitAll ((g.find? name).toList.map Variable.pop))
  | .index name =>
    .ok (g, emitAll ((g.find? name).toList.map Variable.push ++ [.arithmetic .add]))
  | .loadElement => .ok (g, emitAll [.pop .pointer 1, .push .that 0])
  | .storeElement =>
    .ok (g, emitAll [.pop .temp 0, .pop .pointer 1, .push .temp 0, .pop .that 0])
  | .checkInteger value pos =>
    if maxConstant < value then .error (.intOutOfRange pos value) else .ok (g, [])
  | .loadInteger value => .ok (g, emitAll [.push .constant value])
  | .checkString content pos =>
    match stringFault content pos with
    | some e => .error e
    | none => .ok (g, [])
  | .loadString content => .ok (g, emitAll (stringCode content))
  | .loadTrue => .ok (g, emitAll [.push .constant 1, .arithmetic .neg])
  | .loadZero => .ok (g, emitAll [.push .constant 0])
  | .loadThis => .ok (g, emitAll [.push .pointer 0])
  | .applyUnary op => .ok (g, emitAll [op.instruction])
  | .applyBinary op => .ok (g, emitAll [op.instruction])
  | .receive name => .ok (g, emitAll ((g.find? name).toList.map Variable.push))
  | .receiveThis =>
    .ok (g, emitAll (if g.subKind = .function then [] else [.push .pointer 0]))
  | .call owner name args =>
    let (callee, receivers) := g.callee owner name
    .ok (g, emitAll [.call callee (UInt32.ofNat (args + receivers))])
  | .discard => .ok (g, emitAll [.pop .temp 0])
  | .giveBack => .ok (g, emitAll [.ret])
  | .openBranch => .ok ({ g with labels := g.labels + 2, branches := g.labels :: g.branches }, [])
  | .markFirst => .ok (g, g.onBranch fun first _ => [.label first])
  | .leaveUnless => .ok (g, g.onBranch fun _ second => [.arithmetic .not, .ifGoto second])
  | .turnBack => .ok (g, g.onBranch fun first second => [.goto first, .label second])
  | .closeBranch => .ok ({ g with branches := g.branches.tail }, [])

/-- Carries out actions one after the other; `events` holds those before, last one first. -/
def run (g : Generator) (events : List Event) : List Action → List Event × Except Error Generator
  | [] => (events.reverse, .ok g)
  | a :: rest =>
    match g.step a with
    | .ok (g', new) => run g' (new.reverse ++ events) rest
    | .error e => (events.reverse, .error e)

/-- The events before stand in front, whatever they are. -/
theorem run_eq (g : Generator) (events : List Event) (actions : List Action) :
    g.run events actions = (events.reverse ++ (g.run [] actions).1, (g.run [] actions).2) := by
  induction actions generalizing g events with
  | nil => simp only [run, List.reverse_nil, List.append_nil]
  | cons a rest ih =>
    simp only [run]
    split
    · next g' new _ =>
      rw [ih g' (new.reverse ++ events), ih g' (new.reverse ++ [])]
      simp only [List.reverse_append, List.reverse_reverse, List.reverse_nil, List.nil_append,
        List.append_assoc]
    · simp only [List.reverse_nil, List.append_nil]

/-- Without actions nothing is emitted. -/
@[simp] theorem run_nil (g : Generator) : g.run [] [] = ([], .ok g) := rfl

/-- The first action is carried out and then the others, from where it leads. -/
theorem run_cons_of_ok {g g' : Generator} {a : Action} {new : List Event}
    (h : g.step a = .ok (g', new)) (rest : List Action) :
    g.run [] (a :: rest) = (new ++ (g'.run [] rest).1, (g'.run [] rest).2) := by
  simp only [run, h]
  rw [run_eq, List.append_nil, List.reverse_reverse]

/-- Nothing is carried out behind an action that fails. -/
theorem run_cons_of_error {g : Generator} {a : Action} {e : Error} (h : g.step a = .error e)
    (rest : List Action) : g.run [] (a :: rest) = ([], .error e) := by
  simp only [run, h, List.reverse_nil]

/-- Carrying out two sequences is carrying out the first and, from where it leads, the second. -/
theorem run_append (g : Generator) (front back : List Action) :
    g.run [] (front ++ back) =
      match g.run [] front with
      | (events, .error e) => (events, .error e)
      | (events, .ok g') => (events ++ (g'.run [] back).1, (g'.run [] back).2) := by
  induction front generalizing g with
  | nil => simp only [run_nil, List.nil_append]
  | cons a rest ih =>
    rcases h : g.step a with e | ⟨g', new⟩
    · rw [List.cons_append, run_cons_of_error h, run_cons_of_error h]
    · rw [List.cons_append, run_cons_of_ok h, run_cons_of_ok h, ih g']
      rcases g'.run [] rest with ⟨events, e | g''⟩
      · rfl
      · simp only [List.append_assoc]

end Generator

/-- Carries out the actions of a class: the events, and the first failure if there is one. -/
def generate (actions : List Action) : List Event × Except Error Generator :=
  Generator.run {} [] actions

end JackStack
