import JackStack.Proofs.Code.Depth
import JackStack.Proofs.Meaning.Machine

/-!
# Expressions on the machine

The code of an expression puts the value of the expression on the stack and leaves behind the world
that the expression leaves behind. On the way it may use the second pointer and the scratch cells,
so nothing is said about these.
-/

namespace JackStack

namespace Tree

open JackStack.Machine

variable {lib : Library} {scratch : Scratch} {ctx : Context} {f : Frame} {m : Machine}

/-- The machine has the cells of a frame. Of the local variables only those that the subroutine
has are known. -/
structure Matches (ctx : Context) (f : Frame) (m : Machine) : Prop where
  arguments : m.arguments = f.arguments
  locals : ∀ i < ctx.room .local, m.locals i = f.locals i
  this : m.this = f.receiver

/-- The stack, the scratch cells, the second pointer and the world are not part of a frame. -/
theorem Matches.with (h : Matches ctx f m) (stack : List Word) (that : Word) (temp : Nat → Word)
    (world : World) : Matches ctx f { m with stack, that, temp, world } :=
  ⟨h.arguments, h.locals, h.this⟩

/-- Code that is applied as a whole leaves this stack and this world behind, and the frame as it
was. -/
def Leaves (lib : Library) (scratch : Scratch) (line : List Instruction) (m : Machine)
    (stack : List Word) (w : World) : Prop :=
  ∃ that temp, applyAll lib scratch line m = some { m with stack, that, temp, world := w }

namespace Leaves

variable {i : Instruction} {front back line : List Instruction} {stack stack' : List Word}
  {w w' : World}

theorem nil : Leaves lib scratch [] m m.stack m.world := ⟨m.that, m.temp, rfl⟩

/-- What one line leaves is where the next one goes on; only the two registers in between are free.
-/
theorem append (h : Leaves lib scratch front m stack w)
    (h' : ∀ that temp, Leaves lib scratch back { m with stack, that, temp, world := w } stack' w') :
    Leaves lib scratch (front ++ back) m stack' w' := by
  obtain ⟨that, temp, hfront⟩ := h
  obtain ⟨that', temp', hback⟩ := h' that temp
  exact ⟨that', temp', by rw [applyAll_append, hfront, Option.bind_some, hback]⟩

theorem cons (h : Leaves lib scratch [i] m stack w)
    (h' : ∀ that temp, Leaves lib scratch line { m with stack, that, temp, world := w } stack' w') :
    Leaves lib scratch (i :: line) m stack' w' :=
  append h h'

/-- One instruction. -/
theorem single (that : Word) (temp : Nat → Word)
    (h : m.apply lib scratch i = some { m with stack, that, temp, world := w }) :
    Leaves lib scratch [i] m stack w :=
  ⟨that, temp, by rw [applyAll, h]; rfl⟩

end Leaves

/-! ## Instructions -/

/-- A constant is taken modulo the width of a word, which divides that of an operand. -/
theorem word_ofNat (n : Nat) : BitVec.ofNat 16 (UInt32.ofNat n).toNat = BitVec.ofNat 16 n := by
  apply BitVec.eq_of_toNat_eq
  simp only [BitVec.toNat_ofNat, UInt32.toNat_ofNat']
  exact Nat.mod_mod_of_dvd n (by decide)

/-- A pushed constant is its number in 16 bits. -/
theorem leaves_constant (n : Nat) :
    Leaves lib scratch [.push .constant (.ofNat n)] m (.ofNat 16 n :: m.stack) m.world := by
  rw [← word_ofNat]
  exact .single m.that m.temp rfl

/-- A call takes its arguments, the last of which is on top. -/
theorem leaves_call {name : String} {args rest : List Word} {n : Nat} (hstack : m.stack =
    args.reverse ++ rest) (hn : n = args.length) (hfits : n < operandLimit) :
    Leaves lib scratch [.call name (.ofNat n)] m ((lib name args m.world).1 :: rest)
      (lib name args m.world).2 := by
  have hcount : (UInt32.ofNat n).toNat = args.reverse.length := by
    rw [UInt32.toNat_ofNat_of_lt' hfits, hn, List.length_reverse]
  have htake : (m.stack.take (UInt32.ofNat n).toNat).reverse = args := by
    rw [hstack, hcount, List.take_left, List.reverse_reverse]
  have hdrop : m.stack.drop (UInt32.ofNat n).toNat = rest := by
    rw [hstack, hcount, List.drop_left]
  have hle : (UInt32.ofNat n).toNat ≤ m.stack.length := by
    rw [hstack, hcount, List.length_append]
    exact Nat.le_add_right _ _
  refine .single m.that (scratch name args m.world m.temp) ?_
  simp only [Machine.apply, if_pos hle, htake, hdrop]

/-- Pushing a slot leaves what is read from it. -/
theorem Slot.leaves_push {s : Slot} (hm : Matches ctx f m) (hroom : s.index < ctx.room s.kind)
    (hfits : ctx.room s.kind < operandLimit) :
    Leaves lib scratch [s.push] m (s.read f m.world :: m.stack) m.world := by
  have hindex : (UInt32.ofNat s.index).toNat = s.index :=
    UInt32.toNat_ofNat_of_lt' (Nat.lt_trans hroom hfits)
  obtain ⟨type, kind, index⟩ := s
  refine .single m.that m.temp ?_
  cases kind with
  | static => simp [Slot.push, Slot.read, Machine.apply, Machine.read, hindex]
  | field => simp [Slot.push, Slot.read, Machine.apply, Machine.read, hindex, hm.this]
  | argument => simp [Slot.push, Slot.read, Machine.apply, Machine.read, hindex, hm.arguments]
  | «local» => simp [Slot.push, Slot.read, Machine.apply, Machine.read, hindex, hm.locals _ hroom]

/-- A declared variable is put on the stack. -/
theorem Context.leaves_pushVar {name : String} (hctx : ctx.Roomy) (hm : Matches ctx f m)
    (hname : ∃ s, ctx.slot? name = some s) :
    Leaves lib scratch (ctx.pushVar name) m (ctx.value name f m.world :: m.stack) m.world := by
  obtain ⟨s, hs⟩ := hname
  simp only [Context.pushVar, Context.value, hs]
  exact Slot.leaves_push hm (hctx.bound hs) (hctx.fits s.kind)

/-- A binary operation leaves its value in place of its operands. -/
theorem leaves_binaryCode {op : BinaryOp} {x y : Word} {rest : List Word}
    (hstack : m.stack = y :: x :: rest) :
    Leaves lib scratch [binaryCode op] m ((binaryValue lib op x y m.world).1 :: rest)
      (binaryValue lib op x y m.world).2 := by
  cases op with
  | mul | div => exact leaves_call (by rw [hstack]; rfl) rfl (by decide)
  | _ =>
    refine .single m.that m.temp ?_
    simp [binaryCode, binaryValue, Machine.apply, Command.run, hstack]

/-- A unary operation leaves its value in place of its operand. -/
theorem leaves_unaryCode {op : UnaryOp} {x : Word} {rest : List Word}
    (hstack : m.stack = x :: rest) :
    Leaves lib scratch [unaryCode op] m (unaryValue op x :: rest) m.world := by
  refine .single m.that m.temp ?_
  cases op <;> simp [unaryCode, unaryValue, Machine.apply, Command.run, hstack]

/-- The address of an element: the index is below the array on the stack. -/
theorem leaves_address {array index : Word} {rest : List Word}
    (hstack : m.stack = array :: index :: rest) :
    Leaves lib scratch [.arithmetic .add] m ((array + index) :: rest) m.world := by
  have hadd : Leaves lib scratch [binaryCode .add] m _ _ := leaves_binaryCode hstack
  rwa [binaryValue, BitVec.add_comm] at hadd

/-- The element of an array is read through the second pointer. -/
theorem leaves_element {array index : Word} {rest : List Word}
    (hstack : m.stack = array :: index :: rest) :
    Leaves lib scratch [.arithmetic .add, .pop .pointer 1, .push .that 0] m
      (m.world.heap (array + index) :: rest) m.world := by
  refine .cons (leaves_address hstack) fun _ temp => ⟨array + index, temp, ?_⟩
  simp [applyAll, Machine.apply, Machine.read, Machine.write]

/-- Characters are appended one by one, each by a call that gives the string back. -/
theorem leaves_appendCode (content : List Char) {object : Word} {rest : List Word}
    (hstack : m.stack = object :: rest) :
    Leaves lib scratch (content.flatMap appendCode) m
      ((appendValue lib content object m.world).1 :: rest)
      (appendValue lib content object m.world).2 := by
  induction content generalizing m object with
  | nil =>
    have hnil : Leaves lib scratch [] m m.stack m.world := .nil
    rwa [hstack] at hnil
  | cons c content ih =>
    have happend : Leaves lib scratch (appendCode c) m
        ((lib "String.appendChar" [object, .ofNat 16 c.toNat] m.world).1 :: rest)
        (lib "String.appendChar" [object, .ofNat 16 c.toNat] m.world).2 :=
      (leaves_constant c.toNat).append fun _ _ =>
        leaves_call (by rw [hstack]; rfl) rfl (by decide)
    rw [List.flatMap_cons]
    exact happend.append fun _ _ => ih rfl

/-- The receiver of a call is put on the stack, if there is one. -/
theorem Context.leaves_receiverCode (hctx : ctx.Roomy) (hm : Matches ctx f m)
    (owner : Option String) :
    Leaves lib scratch (ctx.receiverCode owner) m
      ((ctx.receiver owner f m.world).reverse ++ m.stack) m.world := by
  cases owner with
  | none =>
    by_cases hk : ctx.kind = .function
    · simp only [Context.receiverCode, Context.receiver, if_pos hk]
      exact .nil
    · simp only [Context.receiverCode, Context.receiver, if_neg hk, ← hm.this]
      exact .single m.that m.temp rfl
  | some first =>
    cases hs : ctx.slot? first with
    | none =>
      simp only [Context.receiverCode, Context.pushVar, Context.receiver, hs]
      exact .nil
    | some s =>
      have hpush : Leaves lib scratch (ctx.pushVar first) m _ _ :=
        Context.leaves_pushVar hctx hm ⟨s, hs⟩
      simp only [Context.value, hs] at hpush
      simp only [Context.receiverCode, Context.receiver, hs]
      exact hpush

/-- The instruction of a call names the subroutine that is called, and counts the receiver. -/
theorem Context.callCode_eq (ctx : Context) (owner : Option String) (name : String) (args : Nat)
    (f : Frame) (w : World) : ctx.callCode owner name args =
      .call (ctx.callee owner name) (.ofNat (args + (ctx.receiver owner f w).length)) := by
  cases owner with
  | none =>
    by_cases hk : ctx.kind = .function
    · simp [Context.callCode, Context.callee, Context.receiver, hk]
    · simp [Context.callCode, Context.callee, Context.receiver, hk]
  | some first =>
    cases hs : ctx.slot? first <;>
      simp [Context.callCode, Context.callee, Context.receiver, hs]

/-- A call passes at most one receiver. -/
theorem Context.length_receiver_le (ctx : Context) (owner : Option String) (f : Frame)
    (w : World) : (ctx.receiver owner f w).length ≤ 1 := by
  unfold Context.receiver
  split <;> split <;> simp

/-! ## Trees -/

/-- Every argument is evaluated to one value. -/
theorem argumentEval_length (ctx : Context) (lib : Library) (f : Frame) (args : List Expression)
    (w : World) : (argumentEval ctx lib f args w).1.length = args.length := by
  induction args generalizing w with
  | nil => rfl
  | cons arg rest ih => exact congrArg (· + 1) (ih _)

mutual

/-- The value of a term is put on the stack. -/
theorem Term.leaves (hctx : ctx.Roomy) {m : Machine} (hm : Matches ctx f m) : (t : Term) →
    Demand.Sound ctx t.demands →
      Leaves lib scratch (t.code ctx) m ((t.eval ctx lib f m.world).1 :: m.stack)
        (t.eval ctx lib f m.world).2
  | .integer _, _ => .single m.that m.temp rfl
  | .string content, _ => by
    have hnew : Leaves lib scratch
        [.push .constant (.ofNat content.length), .call "String.new" 1] m
        ((lib "String.new" [.ofNat 16 content.length] m.world).1 :: m.stack)
        (lib "String.new" [.ofNat 16 content.length] m.world).2 :=
      (leaves_constant content.length).append fun _ _ => leaves_call rfl rfl (by decide)
    exact hnew.append fun _ _ => leaves_appendCode content.toList rfl
  | .constant word, _ => by
    cases word with
    | yes => exact (leaves_constant 1).append fun that temp => .single that temp rfl
    | no => exact leaves_constant 0
    | null => exact leaves_constant 0
    | this =>
      rw [Term.eval, Constant.value, ← hm.this]
      exact .single m.that m.temp rfl
  | .var name, h => Context.leaves_pushVar hctx hm h.slot
  | .element array index, h => by
    have hindex := Expression.leaves hctx hm index h.tail
    exact (hindex.append fun _ _ =>
      Context.leaves_pushVar hctx (hm.with _ _ _ _) h.slot).append fun _ _ =>
        leaves_element rfl
  | .call target, h => Call.leaves hctx hm target h
  | .group inner, h => Expression.leaves hctx hm inner h
  | .unary op operand, h =>
    (Term.leaves hctx hm operand h).append fun _ _ => leaves_unaryCode rfl

/-- The code of an expression leaves its value, and the world that evaluating it leads to. -/
theorem Expression.leaves (hctx : ctx.Roomy) {m : Machine} (hm : Matches ctx f m) :
    (e : Expression) → Demand.Sound ctx e.demands →
      Leaves lib scratch (e.code ctx) m ((e.eval ctx lib f m.world).1 :: m.stack)
        (e.eval ctx lib f m.world).2
  | .chain first ops, h =>
    (Term.leaves hctx hm first h.left).append fun _ _ =>
      operations_leaves hctx (hm.with _ _ _ _) ops h.right rfl

/-- The code of operations leaves their value in place of the first operand. -/
theorem operations_leaves (hctx : ctx.Roomy) {m : Machine} (hm : Matches ctx f m) {x : Word}
    {rest : List Word} : (ops : List (BinaryOp × Term)) →
    Demand.Sound ctx (operationDemands ops) → m.stack = x :: rest →
      Leaves lib scratch (operationCode ctx ops) m
        ((operationEval ctx lib f ops x m.world).1 :: rest)
        (operationEval ctx lib f ops x m.world).2
  | [], _, hstack => by
    rw [operationCode, operationEval, ← hstack]
    exact .nil
  | (op, operand) :: ops, h, hstack => by
    have hoperand := Term.leaves hctx hm operand h.left
    rw [hstack] at hoperand
    exact hoperand.append fun _ _ => .cons (leaves_binaryCode rfl) fun _ _ =>
      operations_leaves hctx (hm.with _ _ _ _) ops h.right rfl

/-- The code of a call leaves what the library gives for its arguments. -/
theorem Call.leaves (hctx : ctx.Roomy) {m : Machine} (hm : Matches ctx f m) : (target : Call) →
    Demand.Sound ctx target.demands →
      Leaves lib scratch (target.code ctx) m ((target.eval ctx lib f m.world).1 :: m.stack)
        (target.eval ctx lib f m.world).2
  | .mk owner name args, h => by
    have hreceiver : Leaves lib scratch (ctx.receiverCode owner) m _ _ :=
      Context.leaves_receiverCode hctx hm owner
    have hfits := h.fits args.length List.mem_cons_self
    have hone := ctx.length_receiver_le owner f m.world
    rw [Call.code, ctx.callCode_eq owner name args.length f m.world]
    have hargs : Leaves lib scratch (ctx.receiverCode owner ++ argumentCode ctx args) m
        ((argumentEval ctx lib f args m.world).1.reverse ++
          ((ctx.receiver owner f m.world).reverse ++ m.stack))
        (argumentEval ctx lib f args m.world).2 :=
      hreceiver.append fun _ _ => arguments_leaves hctx (hm.with _ _ _ _) args h.tail
    refine hargs.append fun _ _ => leaves_call ?_ ?_ (by omega)
    · simp
    · simp [argumentEval_length, Nat.add_comm]

/-- The code of arguments leaves their values, the last one on top. -/
theorem arguments_leaves (hctx : ctx.Roomy) {m : Machine} (hm : Matches ctx f m) :
    (args : List Expression) → Demand.Sound ctx (argumentDemands args) →
      Leaves lib scratch (argumentCode ctx args) m
        ((argumentEval ctx lib f args m.world).1.reverse ++ m.stack)
        (argumentEval ctx lib f args m.world).2
  | [], _ => .nil
  | arg :: rest, h => by
    rw [argumentEval, List.reverse_cons, List.append_assoc]
    exact (Expression.leaves hctx hm arg h.left).append fun _ _ =>
      arguments_leaves hctx (hm.with _ _ _ _) rest h.right

end

end Tree

end JackStack
