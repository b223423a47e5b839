import JackStack.Code.Instruction
import JackStack.Proofs.Grammar.Tree

/-!
# The code of a tree

`code` says what a tree is compiled to, by recursion on the tree: scopes are the lists of the
declarations of a class and of a subroutine, and a label is numbered by the number of labels in
front of it. `demands` collects what a tree asks of its surroundings, and a class is well-formed
when no scope declares a name twice and all demands are met.
-/

namespace JackStack.Tree

/-! ## Scopes -/

/-- A declared variable. -/
structure Declaration where
  /-- Its kind. -/
  kind : VarKind
  /-- The name of its type. -/
  type : String
  /-- Its name. -/
  name : String
  deriving DecidableEq, Repr

/-- The names that a group declares. -/
def Group.names (g : Group) : List String := g.first :: g.others

/-- The variables of a kind that a group declares. -/
def Group.declarations (kind : VarKind) (g : Group) : List Declaration :=
  g.names.map fun name => ⟨kind, g.type.text, name⟩

/-- The variables of a declaration of class variables. -/
def ClassGroup.declarations (g : ClassGroup) : List Declaration :=
  match g.sharing with
  | .static => g.group.declarations .static
  | .field => g.group.declarations .field

/-- The variables that a class declares, in order. -/
def Class.declarations (c : Class) : List Declaration := c.groups.flatMap ClassGroup.declarations

/-- The parameters and variables that a subroutine declares, in order. -/
def Subroutine.declarations (s : Subroutine) : List Declaration :=
  s.parameters.map (fun p => ⟨.argument, p.type.text, p.name⟩) ++
    s.locals.flatMap (Group.declarations .local)

/-- The number of variables of a kind among declarations. -/
def countKind (kind : VarKind) (ds : List Declaration) : Nat := ds.countP (·.kind = kind)

/-- Where a variable is kept. -/
structure Slot where
  /-- The name of its type. -/
  type : String
  /-- Its kind. -/
  kind : VarKind
  /-- Its number among the variables of its kind. -/
  index : Nat
  deriving DecidableEq, Repr

/-- The slot of a name among declarations, in front of which others stand. A variable is numbered
by the variables of its kind before it; `receivers` is the number of arguments that come before
the declared ones. -/
def slotAmong (receivers : Nat) (name : String) (front : List Declaration) :
    List Declaration → Option Slot
  | [] => none
  | d :: ds =>
    if d.name = name then
      some ⟨d.type, d.kind, (if d.kind = .argument then receivers else 0) + countKind d.kind front⟩
    else slotAmong receivers name (front ++ [d]) ds

/-- What code inside a subroutine can refer to. -/
structure Context where
  /-- The name of the class. -/
  className : String
  /-- The variables of the class. -/
  shared : List Declaration
  /-- The kind of the subroutine. -/
  kind : SubKind
  /-- The parameters and variables of the subroutine. -/
  own : List Declaration
  deriving DecidableEq, Repr

namespace Context

/-- The number of arguments in front of the declared ones: a method has its receiver there. -/
def receivers (ctx : Context) : Nat := if ctx.kind = .method then 1 else 0

/-- The slot of a name: that of the subroutine, or else that of the class. -/
def slot? (ctx : Context) (name : String) : Option Slot :=
  (slotAmong ctx.receivers name [] ctx.own).or (slotAmong 0 name [] ctx.shared)

/-- The name is declared in one of the two scopes. -/
def Declares (ctx : Context) (name : String) : Prop :=
  name ∈ ctx.own.map (·.name) ∨ name ∈ ctx.shared.map (·.name)

instance (ctx : Context) (name : String) : Decidable (ctx.Declares name) :=
  inferInstanceAs (Decidable (_ ∨ _))

/-- The label with a number. -/
def label (ctx : Context) (n : Nat) : String := ctx.className ++ "_" ++ toString n

end Context

/-- The context of a subroutine of a class. -/
def Class.context (c : Class) (s : Subroutine) : Context :=
  ⟨c.name, c.declarations, s.kind, s.declarations⟩

/-! ## Expressions -/

/-- The instruction that puts the value of a slot on the stack. -/
def Slot.push (s : Slot) : Instruction :=
  match s.kind with
  | .static => .push .static (.ofNat s.index)
  | .field => .push .this (.ofNat s.index)
  | .argument => .push .argument (.ofNat s.index)
  | .local => .push .local (.ofNat s.index)

/-- The instruction that takes the value of a slot from the stack. -/
def Slot.pop (s : Slot) : Instruction :=
  match s.kind with
  | .static => .pop .static (.ofNat s.index)
  | .field => .pop .this (.ofNat s.index)
  | .argument => .pop .argument (.ofNat s.index)
  | .local => .pop .local (.ofNat s.index)

/-- The code that puts the value of a variable on the stack. -/
def Context.pushVar (ctx : Context) (name : String) : List Instruction :=
  (ctx.slot? name).toList.map Slot.push

/-- The code that takes the value of a variable from the stack. -/
def Context.popVar (ctx : Context) (name : String) : List Instruction :=
  (ctx.slot? name).toList.map Slot.pop

/-- The code of an operator between two terms; there is no command for products and quotients. -/
def binaryCode : BinaryOp → Instruction
  | .add => .arithmetic .add
  | .sub => .arithmetic .sub
  | .mul => .call "Math.multiply" 2
  | .div => .call "Math.divide" 2
  | .and => .arithmetic .and
  | .or => .arithmetic .or
  | .lt => .arithmetic .lt
  | .gt => .arithmetic .gt
  | .eq => .arithmetic .eq

/-- The code of an operator in front of a term. -/
def unaryCode : UnaryOp → Instruction
  | .neg => .arithmetic .neg
  | .not => .arithmetic .not

/-- The code of a reserved word that is a constant. -/
def Constant.code : Constant → List Instruction
  | yes => [.push .constant 1, .arithmetic .neg]
  | no => [.push .constant 0]
  | null => [.push .constant 0]
  | this => [.push .pointer 0]

/-- The code that appends a character to a string object. -/
def appendCode (c : Char) : List Instruction :=
  [.push .constant (.ofNat c.toNat), .call "String.appendChar" 2]

/-- The code that puts the receiver of a call on the stack, if the call has one. -/
def Context.receiverCode (ctx : Context) : Option String → List Instruction
  | none => if ctx.kind = .function then [] else [.push .pointer 0]
  | some owner => ctx.pushVar owner

/-- The instruction of a call with a number of arguments. A variable before the dot receives the
call of a subroutine of its type, and any other name there is that of a class. Without a dot the
current object receives a call of its class; a function, which has no object, calls the bare
name. -/
def Context.callCode (ctx : Context) (owner : Option String) (name : String) (args : Nat) :
    Instruction :=
  match owner with
  | none =>
    if ctx.kind = .function then .call name (.ofNat args)
    else .call (ctx.className ++ "." ++ name) (.ofNat (args + 1))
  | some first =>
    match ctx.slot? first with
    | some s => .call (s.type ++ "." ++ name) (.ofNat (args + 1))
    | none => .call (first ++ "." ++ name) (.ofNat args)

mutual

/-- The code of a term. -/
def Term.code (ctx : Context) : Term → List Instruction
  | .integer value => [.push .constant value]
  | .string content =>
    .push .constant (.ofNat content.length) :: .call "String.new" 1 ::
      content.toList.flatMap appendCode
  | .constant word => word.code
  | .var name => ctx.pushVar name
  | .element array index =>
    index.code ctx ++ ctx.pushVar array ++
      [.arithmetic .add, .pop .pointer 1, .push .that 0]
  | .call target => target.code ctx
  | .group inner => inner.code ctx
  | .unary op operand => operand.code ctx ++ [unaryCode op]

/-- The code of an expression: operators apply from left to right. -/
def Expression.code (ctx : Context) : Expression → List Instruction
  | .chain first rest => first.code ctx ++ operationCode ctx rest

/-- The code of the operators behind a term, each with its term. -/
def operationCode (ctx : Context) : List (BinaryOp × Term) → List Instruction
  | [] => []
  | (op, operand) :: rest => operand.code ctx ++ binaryCode op :: operationCode ctx rest

/-- The code of a call. -/
def Call.code (ctx : Context) : Call → List Instruction
  | .mk owner name args =>
    ctx.receiverCode owner ++ argumentCode ctx args ++ [ctx.callCode owner name args.length]

/-- The code of arguments. -/
def argumentCode (ctx : Context) : List Expression → List Instruction
  | [] => []
  | arg :: rest => arg.code ctx ++ argumentCode ctx rest

end

/-! ## Statements -/

mutual

/-- The number of labels in a statement: two for each `if` and `while`. -/
def Statement.labels : Statement → Nat
  | .assign _ _ => 0
  | .assignElement _ _ _ => 0
  | .ifThen _ block => 2 + blockLabels block
  | .ifElse _ block other => 2 + blockLabels block + blockLabels other
  | .whileLoop _ block => 2 + blockLabels block
  | .perform _ => 0
  | .giveBack _ => 0

/-- The number of labels in statements. -/
def blockLabels : List Statement → Nat
  | [] => 0
  | s :: rest => s.labels + blockLabels rest

end

mutual

/-- The code of a statement that `n` labels stand in front of. -/
def Statement.code (ctx : Context) (n : Nat) : Statement → List Instruction
  | .assign name value => value.code ctx ++ ctx.popVar name
  | .assignElement array index value =>
    index.code ctx ++ ctx.pushVar array ++ .arithmetic .add :: value.code ctx ++
      [.pop .temp 0, .pop .pointer 1, .push .temp 0, .pop .that 0]
  | .ifThen condition block =>
    condition.code ctx ++ .arithmetic .not :: .ifGoto (ctx.label (n + 1)) ::
      blockCode ctx (n + 2) block ++
      [.goto (ctx.label n), .label (ctx.label (n + 1)), .label (ctx.label n)]
  | .ifElse condition block other =>
    condition.code ctx ++ .arithmetic .not :: .ifGoto (ctx.label (n + 1)) ::
      blockCode ctx (n + 2) block ++
      .goto (ctx.label n) :: .label (ctx.label (n + 1)) ::
      blockCode ctx (n + 2 + blockLabels block) other ++ [.label (ctx.label n)]
  | .whileLoop condition block =>
    .label (ctx.label n) :: condition.code ctx ++
      .arithmetic .not :: .ifGoto (ctx.label (n + 1)) :: blockCode ctx (n + 2) block ++
      [.goto (ctx.label n), .label (ctx.label (n + 1))]
  | .perform target => target.code ctx ++ [.pop .temp 0]
  | .giveBack none => [.push .constant 0, .ret]
  | .giveBack (some value) => value.code ctx ++ [.ret]

/-- The code of statements that `n` labels stand in front of. -/
def blockCode (ctx : Context) (n : Nat) : List Statement → List Instruction
  | [] => []
  | s :: rest => s.code ctx n ++ blockCode ctx (n + s.labels) rest

end

/-! ## Classes -/

/-- What the body of a subroutine begins with: a method takes its receiver from the first
argument, a constructor makes room for the fields of a new object. -/
def Context.prologue (ctx : Context) : List Instruction :=
  match ctx.kind with
  | .function => []
  | .method => [.push .argument 0, .pop .pointer 0]
  | .constructor =>
    [.push .constant (.ofNat (countKind .field ctx.shared)), .call "Memory.alloc" 1,
      .pop .pointer 0]

/-- The code of a subroutine behind its first line, with `n` labels in front. -/
def Subroutine.bodyCode (c : Class) (n : Nat) (s : Subroutine) : List Instruction :=
  (c.context s).prologue ++ blockCode (c.context s) n s.body

/-- The code of a subroutine that `n` labels stand in front of. -/
def Subroutine.code (c : Class) (n : Nat) (s : Subroutine) : List Instruction :=
  .function (c.name ++ "." ++ s.name) (.ofNat (s.locals.flatMap Group.names).length) ::
    s.bodyCode c n

/-- The code of subroutines that `n` labels stand in front of. -/
def subroutineCode (c : Class) (n : Nat) : List Subroutine → List Instruction
  | [] => []
  | s :: rest => s.code c n ++ subroutineCode c (n + blockLabels s.body) rest

/-- The code of a class. -/
def Class.code (c : Class) : List Instruction := subroutineCode c 0 c.subroutines

/-! ## Well-formed classes -/

/-- What a tree asks of its surroundings. -/
inductive Demand where
  /-- A variable term, an array or the target of a `let` is declared. -/
  | known (name : String)
  /-- An integer constant is in range. -/
  | integer (value : UInt32)
  /-- A string constant is in range. -/
  | string (content : String)
  /-- A call has this many arguments. -/
  | arguments (count : Nat)
  deriving DecidableEq, Repr

mutual

/-- The demands of a term. -/
def Term.demands : Term → List Demand
  | .integer value => [.integer value]
  | .string content => [.string content]
  | .constant _ => []
  | .var name => [.known name]
  | .element array index => .known array :: index.demands
  | .call target => target.demands
  | .group inner => inner.demands
  | .unary _ operand => operand.demands

/-- The demands of an expression. -/
def Expression.demands : Expression → List Demand
  | .chain first rest => first.demands ++ operationDemands rest

/-- The demands of the terms behind operators. -/
def operationDemands : List (BinaryOp × Term) → List Demand
  | [] => []
  | (_, operand) :: rest => operand.demands ++ operationDemands rest

/-- The demands of a call. -/
def Call.demands : Call → List Demand
  | .mk _ _ args => .arguments args.length :: argumentDemands args

/-- The demands of arguments. -/
def argumentDemands : List Expression → List Demand
  | [] => []
  | arg :: rest => arg.demands ++ argumentDemands rest

end

mutual

/-- The demands of a statement. -/
def Statement.demands : Statement → List Demand
  | .assign name value => .known name :: value.demands
  | .assignElement array index value => .known array :: index.demands ++ value.demands
  | .ifThen condition block => condition.demands ++ blockDemands block
  | .ifElse condition block other =>
    condition.demands ++ blockDemands block ++ blockDemands other
  | .whileLoop condition block => condition.demands ++ blockDemands block
  | .perform target => target.demands
  | .giveBack none => []
  | .giveBack (some value) => value.demands

/-- The demands of statements. -/
def blockDemands : List Statement → List Demand
  | [] => []
  | s :: rest => s.demands ++ blockDemands rest

end

/-- The demand is met: the name is declared, or the constant can be written into the code. -/
def Demand.Met (ctx : Context) : Demand → Prop
  | known name => ctx.Declares name
  | integer value => value.toNat ≤ 32767
  | string content => content.length ≤ 32767 ∧ ∀ c ∈ content.toList, c.toNat ≤ 32767
  | arguments _ => True

/-- Only the characters of the string itself are gone through, not all that there are. -/
instance (ctx : Context) (d : Demand) : Decidable (d.Met ctx) :=
  match d with
  | .known name => inferInstanceAs (Decidable (ctx.Declares name))
  | .integer value => inferInstanceAs (Decidable (value.toNat ≤ 32767))
  | .string content =>
    have := List.decidableBAll (fun c : Char => c.toNat ≤ 32767) content.toList
    inferInstanceAs (Decidable (content.length ≤ 32767 ∧ ∀ c ∈ content.toList, c.toNat ≤ 32767))
  | .arguments _ => inferInstanceAs (Decidable True)

/-- A subroutine is well-formed in a class: its parameters and variables have different names, and
all demands of its statements are met. -/
def Subroutine.WellFormed (c : Class) (s : Subroutine) : Prop :=
  (s.declarations.map (·.name)).Nodup ∧ ∀ d ∈ blockDemands s.body, d.Met (c.context s)

instance (c : Class) (s : Subroutine) : Decidable (s.WellFormed c) :=
  inferInstanceAs (Decidable (_ ∧ _))

/-- A class is well-formed: its variables have different names, and its subroutines are
well-formed. -/
def Class.WellFormed (c : Class) : Prop :=
  (c.declarations.map (·.name)).Nodup ∧ ∀ s ∈ c.subroutines, s.WellFormed c

instance (c : Class) : Decidable c.WellFormed := inferInstanceAs (Decidable (_ ∧ _))

/-- The largest number of a variable or of arguments is below this, so that every number of the
code fits its operand. -/
def operandLimit : Nat := UInt32.size

/-- The numbers in the code of a subroutine are what they count: variables and arguments are
few enough for an operand. -/
def Subroutine.Fits (s : Subroutine) : Prop :=
  s.declarations.length + 1 < operandLimit ∧
    ∀ n, .arguments n ∈ blockDemands s.body → n + 1 < operandLimit

/-- The numbers in the code of a class are what they count. -/
def Class.Fits (c : Class) : Prop :=
  c.declarations.length < operandLimit ∧ ∀ s ∈ c.subroutines, s.Fits

end JackStack.Tree
