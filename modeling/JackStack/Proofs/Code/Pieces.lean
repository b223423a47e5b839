import JackStack.Proofs.Code.Reference

/-!
# What code is made of

The code of expressions computes: it pushes constants and the values of variables, calculates and
calls, and reads the elements of arrays. The code of statements also changes variables and elements
and controls which instruction comes next. What holds of every instruction of some code follows from
what holds of the instructions of these two classes.
-/

namespace JackStack.Tree

/-! ## Instructions -/

/-- The instructions that the code of expressions is made of. -/
inductive Context.Computes (ctx : Context) : Instruction → Prop
  | constant (value : UInt32) : ctx.Computes (.push .constant value)
  | variable {name : String} {s : Slot} (found : ctx.slot? name = some s) : ctx.Computes s.push
  | object : ctx.Computes (.push .pointer 0)
  | address : ctx.Computes (.pop .pointer 1)
  | element : ctx.Computes (.push .that 0)
  | arithmetic (command : Command) : ctx.Computes (.arithmetic command)
  | call (name : String) (args : UInt32) : ctx.Computes (.call name args)

/-- The instructions that the code of statements is made of. -/
inductive Context.Performs (ctx : Context) : Instruction → Prop
  | computes {i : Instruction} (h : ctx.Computes i) : ctx.Performs i
  | variable {name : String} {s : Slot} (found : ctx.slot? name = some s) : ctx.Performs s.pop
  | element : ctx.Performs (.pop .that 0)
  | hold : ctx.Performs (.pop .temp 0)
  | held : ctx.Performs (.push .temp 0)
  | label (name : String) : ctx.Performs (.label name)
  | goto (name : String) : ctx.Performs (.goto name)
  | ifGoto (name : String) : ctx.Performs (.ifGoto name)
  | ret : ctx.Performs .ret

/-! ## Expressions -/

/-- The value of a variable is pushed from its slot. -/
theorem Context.computes_pushVar (ctx : Context) (name : String) :
    ∀ i ∈ ctx.pushVar name, ctx.Computes i := by
  refine List.forall_mem_map.mpr fun s hs => ?_
  exact .variable (Option.mem_toList.mp hs)

/-- A variable is changed in its slot. -/
theorem Context.performs_popVar (ctx : Context) (name : String) :
    ∀ i ∈ ctx.popVar name, ctx.Performs i := by
  refine List.forall_mem_map.mpr fun s hs => ?_
  exact .variable (Option.mem_toList.mp hs)

/-- The receiver of a call is a variable or the current object. -/
theorem Context.computes_receiverCode (ctx : Context) (owner : Option String) :
    ∀ i ∈ ctx.receiverCode owner, ctx.Computes i := by
  cases owner with
  | some first => exact ctx.computes_pushVar first
  | none =>
    by_cases hk : ctx.kind = .function
    · rw [Context.receiverCode, if_pos hk]
      exact nofun
    · rw [Context.receiverCode, if_neg hk]
      exact List.forall_mem_singleton.mpr .object

/-- A call is a call, whatever it calls. -/
theorem Context.computes_callCode (ctx : Context) (owner : Option String) (name : String)
    (args : Nat) : ctx.Computes (ctx.callCode owner name args) := by
  unfold Context.callCode
  split <;> split <;> exact .call _ _

mutual

/-- The code of a term computes. -/
theorem Term.computes (ctx : Context) : (t : Term) → ∀ i ∈ t.code ctx, ctx.Computes i
  | .integer value => List.forall_mem_singleton.mpr (.constant value)
  | .string content => by
    simp only [Term.code, List.forall_mem_cons, List.forall_mem_flatMap]
    refine ⟨.constant _, .call _ _, fun c _ => ?_⟩
    exact List.forall_mem_cons.mpr ⟨.constant _, List.forall_mem_singleton.mpr (.call _ _)⟩
  | .constant word => by
    cases word with
    | yes =>
      exact List.forall_mem_cons.mpr ⟨.constant 1, List.forall_mem_singleton.mpr (.arithmetic .neg)⟩
    | no | null => exact List.forall_mem_singleton.mpr (.constant 0)
    | this => exact List.forall_mem_singleton.mpr .object
  | .var name => ctx.computes_pushVar name
  | .element array index => by
    simp only [Term.code, List.forall_mem_append, List.forall_mem_cons]
    exact ⟨⟨Expression.computes ctx index, ctx.computes_pushVar array⟩,
      .arithmetic .add, .address, .element, nofun⟩
  | .call target => Call.computes ctx target
  | .group inner => Expression.computes ctx inner
  | .unary op operand => by
    refine List.forall_mem_append.mpr ⟨Term.computes ctx operand, ?_⟩
    cases op <;> exact List.forall_mem_singleton.mpr (.arithmetic _)

/-- The code of an expression computes. -/
theorem Expression.computes (ctx : Context) : (e : Expression) → ∀ i ∈ e.code ctx, ctx.Computes i
  | .chain first ops =>
    List.forall_mem_append.mpr ⟨Term.computes ctx first, operations_compute ctx ops⟩

/-- So does that of operators with their terms. -/
theorem operations_compute (ctx : Context) : (ops : List (BinaryOp × Term)) →
    ∀ i ∈ operationCode ctx ops, ctx.Computes i
  | [] => nofun
  | (op, operand) :: rest => by
    refine List.forall_mem_append.mpr ⟨Term.computes ctx operand, ?_⟩
    refine List.forall_mem_cons.mpr ⟨?_, operations_compute ctx rest⟩
    cases op with
    | mul | div => exact .call _ _
    | _ => exact .arithmetic _

/-- The code of a call computes. -/
theorem Call.computes (ctx : Context) : (target : Call) → ∀ i ∈ target.code ctx, ctx.Computes i
  | .mk owner name args => by
    simp only [Call.code, List.forall_mem_append]
    exact ⟨⟨ctx.computes_receiverCode owner, arguments_compute ctx args⟩,
      List.forall_mem_singleton.mpr (ctx.computes_callCode owner name args.length)⟩

/-- So does that of arguments. -/
theorem arguments_compute (ctx : Context) : (args : List Expression) →
    ∀ i ∈ argumentCode ctx args, ctx.Computes i
  | [] => nofun
  | arg :: rest =>
    List.forall_mem_append.mpr ⟨Expression.computes ctx arg, arguments_compute ctx rest⟩

end

/-! ## Statements -/

/-- The code of an expression is code of statements. -/
theorem Expression.performs (ctx : Context) (e : Expression) : ∀ i ∈ e.code ctx, ctx.Performs i :=
  fun i hi => .computes (e.computes ctx i hi)

mutual

/-- The code of a statement is made of the instructions of statements. -/
theorem Statement.performs (ctx : Context) (n : Nat) : (s : Statement) →
    ∀ i ∈ s.code ctx n, ctx.Performs i
  | .assign name value =>
    List.forall_mem_append.mpr ⟨value.performs ctx, ctx.performs_popVar name⟩
  | .assignElement array index value => by
    simp only [Statement.code, List.forall_mem_append, List.forall_mem_cons]
    have harray : ∀ i ∈ ctx.pushVar array, ctx.Performs i :=
      fun i hi => .computes (ctx.computes_pushVar array i hi)
    exact ⟨⟨⟨index.performs ctx, harray⟩, .computes (.arithmetic .add), value.performs ctx⟩,
      .hold, .computes .address, .held, .element, nofun⟩
  | .ifThen condition block => by
    simp only [Statement.code, List.forall_mem_append, List.forall_mem_cons]
    exact ⟨⟨condition.performs ctx, .computes (.arithmetic .not), .ifGoto _,
      block_performs ctx _ block⟩, .goto _, .label _, .label _, nofun⟩
  | .ifElse condition block other => by
    simp only [Statement.code, List.forall_mem_append, List.forall_mem_cons]
    exact ⟨⟨⟨condition.performs ctx, .computes (.arithmetic .not), .ifGoto _,
      block_performs ctx _ block⟩, .goto _, .label _, block_performs ctx _ other⟩,
      .label _, nofun⟩
  | .whileLoop condition block => by
    simp only [Statement.code, List.forall_mem_append, List.forall_mem_cons]
    exact ⟨⟨⟨.label _, condition.performs ctx⟩, .computes (.arithmetic .not), .ifGoto _,
      block_performs ctx _ block⟩, .goto _, .label _, nofun⟩
  | .perform target => by
    have htarget : ∀ i ∈ target.code ctx, ctx.Performs i :=
      fun i hi => .computes (target.computes ctx i hi)
    exact List.forall_mem_append.mpr ⟨htarget, List.forall_mem_singleton.mpr .hold⟩
  | .giveBack none =>
    List.forall_mem_cons.mpr ⟨.computes (.constant 0), List.forall_mem_singleton.mpr .ret⟩
  | .giveBack (some value) =>
    List.forall_mem_append.mpr ⟨value.performs ctx, List.forall_mem_singleton.mpr .ret⟩

/-- The code of statements is made of the instructions of statements. -/
theorem block_performs (ctx : Context) (n : Nat) : (b : List Statement) →
    ∀ i ∈ blockCode ctx n b, ctx.Performs i
  | [] => nofun
  | s :: rest =>
    List.forall_mem_append.mpr
      ⟨Statement.performs ctx n s, block_performs ctx (n + s.labels) rest⟩

end

end JackStack.Tree
