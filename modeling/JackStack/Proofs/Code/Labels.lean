import JackStack.Proofs.Code.Pieces

/-!
# Labels

Expressions are compiled to straight code, which has no labels and no jumps. A statement defines
the labels that its own numbers stand for, each of them once, and labels with different numbers
are different names.
-/

namespace JackStack

namespace Instruction

/-- The instruction passes control to the one behind it and nothing jumps there. -/
def isStraight : Instruction → Bool
  | push _ _ | pop _ _ | arithmetic _ | call _ _ => true
  | _ => false

/-- The name of the label that an instruction defines. -/
def labelName? : Instruction → Option String
  | label name => some name
  | _ => none

/-- Straight instructions write no label. -/
theorem labelName?_of_isStraight {i : Instruction} (h : i.isStraight = true) :
    i.labelName? = none := by
  cases i <;> first | rfl | cases h

end Instruction

/-- The names of the labels that are defined in code, in order. -/
def labelNames (code : List Instruction) : List String := code.filterMap Instruction.labelName?

@[simp] theorem labelNames_nil : labelNames [] = [] := rfl

@[simp] theorem labelNames_append (front back : List Instruction) :
    labelNames (front ++ back) = labelNames front ++ labelNames back :=
  List.filterMap_append

/-- A label is one of the labels written. -/
@[simp] theorem labelNames_label (name : String) (code : List Instruction) :
    labelNames (.label name :: code) = name :: labelNames code := rfl

/-- An instruction that is no label adds none. -/
theorem labelNames_cons {i : Instruction} (h : i.labelName? = none) (code : List Instruction) :
    labelNames (i :: code) = labelNames code :=
  List.filterMap_cons_none h

@[simp] theorem labelNames_goto (name : String) (code : List Instruction) :
    labelNames (.goto name :: code) = labelNames code := labelNames_cons rfl code

@[simp] theorem labelNames_ifGoto (name : String) (code : List Instruction) :
    labelNames (.ifGoto name :: code) = labelNames code := labelNames_cons rfl code

@[simp] theorem labelNames_not (code : List Instruction) :
    labelNames (.arithmetic .not :: code) = labelNames code := labelNames_cons rfl code

/-- Straight code runs from its first instruction to behind its last one. -/
def Straight (code : List Instruction) : Prop := ∀ i ∈ code, i.isStraight = true

/-- Straight code defines no labels. -/
theorem Straight.labelNames_eq_nil {code : List Instruction} (h : Straight code) :
    labelNames code = [] :=
  List.filterMap_eq_nil_iff.mpr fun i hi => i.labelName?_of_isStraight (h i hi)

namespace Tree

/-! ## Expressions -/

/-- What computes is straight. -/
theorem Context.Computes.isStraight {ctx : Context} {i : Instruction} (h : ctx.Computes i) :
    i.isStraight = true := by
  cases h with
  | «variable» found =>
    unfold Slot.push
    split <;> rfl
  | _ => rfl

/-- Expressions are compiled to straight code. -/
theorem Expression.straight (ctx : Context) (e : Expression) : Straight (e.code ctx) :=
  fun i hi => (e.computes ctx i hi).isStraight

/-- Calls are compiled to straight code. -/
theorem Call.straight (ctx : Context) (target : Call) : Straight (target.code ctx) :=
  fun i hi => (target.computes ctx i hi).isStraight

/-- The code that changes a variable is straight. -/
theorem Context.straight_popVar (ctx : Context) (name : String) : Straight (ctx.popVar name) := by
  refine List.forall_mem_map.mpr fun s _ => ?_
  unfold Slot.pop
  split <;> rfl

/-- An expression defines no labels. -/
@[simp] theorem Expression.labelNames_code (ctx : Context) (e : Expression) :
    labelNames (e.code ctx) = [] :=
  (Expression.straight ctx e).labelNames_eq_nil

/-! ## Statements -/

/-- The labels with `count` numbers from `n` on. -/
def Context.labelRange (ctx : Context) (n count : Nat) : List String :=
  (List.range' n count).map ctx.label

/-- Labels in a row, and those behind them, are labels in a row. -/
theorem Context.labelRange_append (ctx : Context) (n j k : Nat) :
    ctx.labelRange n j ++ ctx.labelRange (n + j) k = ctx.labelRange n (j + k) := by
  rw [Context.labelRange, Context.labelRange, Context.labelRange, ← List.map_append,
    List.range'_append_1]

/-- Two labels in a row and those behind them: the shape that a branching statement leaves. -/
theorem Context.labelRange_two_add (ctx : Context) (n k : Nat) :
    ctx.labelRange n (2 + k) = ctx.label n :: ctx.label (n + 1) :: ctx.labelRange (n + 2) k := by
  rw [Nat.add_comm]
  rfl

/-- Different numbers give different labels. -/
theorem Context.label_injective (ctx : Context) : Function.Injective ctx.label := by
  intro a b h
  have hdigits : Nat.toDigits 10 a = Nat.toDigits 10 b := by
    rw [← Nat.toList_repr, ← Nat.toList_repr]
    exact congrArg String.toList ((String.append_right_inj _).mp h)
  rw [← Nat.ofDigitChars_ten_toDigits (n := a), hdigits, Nat.ofDigitChars_ten_toDigits]

/-- No label stands twice among labels in a row. -/
theorem Context.nodup_labelRange (ctx : Context) (n count : Nat) :
    (ctx.labelRange n count).Nodup :=
  List.Pairwise.map _ (fun _ _ hne heq => hne (ctx.label_injective heq)) List.nodup_range'

mutual

/-- A statement defines the labels with its numbers, each once, though not in order. -/
theorem Statement.labelNames_perm (ctx : Context) (n : Nat) : (s : Statement) →
    (labelNames (s.code ctx n)).Perm (ctx.labelRange n s.labels)
  | .assign name value => by
    rw [Statement.code, labelNames_append, Expression.labelNames_code,
      (ctx.straight_popVar name).labelNames_eq_nil]
    exact .nil
  | .assignElement array index value => by
    have harray : Straight (ctx.pushVar array) :=
      fun i hi => (ctx.computes_pushVar array i hi).isStraight
    rw [Statement.code, labelNames_append, labelNames_append, labelNames_append,
      Expression.labelNames_code, harray.labelNames_eq_nil, labelNames_cons rfl,
      Expression.labelNames_code]
    exact .nil
  | .ifThen condition block => by
    have hblock := block_labelNames_perm ctx (n + 2) block
    simp only [Statement.code, Statement.labels, labelNames_append, Expression.labelNames_code,
      labelNames_not, labelNames_ifGoto, labelNames_goto, labelNames_label, labelNames_nil,
      List.nil_append, ctx.labelRange_two_add]
    refine (hblock.append_right _).trans (List.perm_append_comm.trans ?_)
    exact .swap _ _ _
  | .ifElse condition block other => by
    have hblock := block_labelNames_perm ctx (n + 2) block
    have hother := block_labelNames_perm ctx (n + 2 + blockLabels block) other
    simp only [Statement.code, Statement.labels, labelNames_append, Expression.labelNames_code,
      labelNames_not, labelNames_ifGoto, labelNames_goto, labelNames_label, labelNames_nil,
      List.nil_append, Nat.add_assoc 2, ctx.labelRange_two_add, ← ctx.labelRange_append]
    refine (List.perm_append_singleton _ _).trans (.cons _ ?_)
    exact List.perm_middle.trans (.cons _ (hblock.append hother))
  | .whileLoop condition block => by
    have hblock := block_labelNames_perm ctx (n + 2) block
    simp only [Statement.code, Statement.labels, labelNames_append, Expression.labelNames_code,
      labelNames_not, labelNames_ifGoto, labelNames_goto, labelNames_label, labelNames_nil,
      ctx.labelRange_two_add]
    exact .cons _ ((List.perm_append_singleton _ _).trans (.cons _ hblock))
  | .perform target => by
    rw [Statement.code, labelNames_append, (target.straight ctx).labelNames_eq_nil]
    exact .nil
  | .giveBack none => .nil
  | .giveBack (some value) => by
    rw [Statement.code, labelNames_append, Expression.labelNames_code]
    exact .nil

/-- A block writes the labels of its numbers, each once, in some order. -/
theorem block_labelNames_perm (ctx : Context) (n : Nat) : (b : List Statement) →
    (labelNames (blockCode ctx n b)).Perm (ctx.labelRange n (blockLabels b))
  | [] => .nil
  | s :: rest => by
    rw [blockCode, blockLabels, labelNames_append, ← ctx.labelRange_append]
    exact (Statement.labelNames_perm ctx n s).append
      (block_labelNames_perm ctx (n + s.labels) rest)

end

/-! ## Subroutines -/

/-- What stands in front of the statements of a subroutine writes no label and does not jump. -/
theorem Context.straight_prologue (ctx : Context) : Straight ctx.prologue := by
  unfold Context.prologue
  cases ctx.kind with
  | function => exact List.forall_mem_nil _
  | method => simp [Straight, Instruction.isStraight]
  | constructor => simp [Straight, Instruction.isStraight]

/-- No label is defined twice in a subroutine. -/
theorem Subroutine.nodup_labelNames (c : Class) (n : Nat) (s : Subroutine) :
    (labelNames (s.code c n)).Nodup := by
  rw [Subroutine.code, labelNames_cons rfl, Subroutine.bodyCode, labelNames_append,
    (c.context s).straight_prologue.labelNames_eq_nil, List.nil_append]
  exact (block_labelNames_perm _ _ _).nodup_iff.mpr ((c.context s).nodup_labelRange _ _)

end Tree

end JackStack
