import JackStack.Proofs.Grammar.Scripts

/-!
# What scripts are made of

A script is made of plain parts and of constants, each of which is looked at and then loaded.
`Made` says so of scripts whose plain parts belong to some class of parts; there is one such class
for expressions, one for statements and one for whole classes. What holds of every part of a script,
or of every action that it reports, follows from what holds of the parts of these classes.
-/

namespace JackStack.Tree

/-! ## Parts -/

/-- The plain parts of expressions. -/
def Item.inExpression : Item → Bool
  | token (.integer _) | token (.string _) => false
  | token _ => true
  | marked (.operand _) => true
  | marked _ => false
  | report (.load _) | report (.index _) | report .loadElement => true
  | report .loadTrue | report .loadZero | report .loadThis => true
  | report (.applyUnary _) | report (.applyBinary _) => true
  | report (.receive _) | report .receiveThis | report (.call _ _ _) => true
  | report _ => false

/-- The plain parts of statements. -/
def Item.inStatement : Item → Bool
  | marked (.target _) => true
  | report (.store _) | report .storeElement | report .discard | report .giveBack => true
  | report .openBranch | report .markFirst | report .leaveUnless => true
  | report .turnBack | report .closeBranch => true
  | i => i.inExpression

/-- The plain parts of classes. -/
def Item.inClass : Item → Bool
  | marked (.declared _ _ _) => true
  | report (.nameClass _) | report (.openSub _) | report (.nameSub _) | report .openBody => true
  | i => i.inStatement

/-- A constant, or the action that loads it. -/
def Item.isConstant : Item → Bool
  | marked (.integer _) | marked (.string _) => true
  | report (.loadInteger _) | report (.loadString _) => true
  | _ => false

/-- The plain parts of expressions are plain parts of statements. -/
theorem Item.inStatement_of_inExpression {i : Item} (h : i.inExpression = true) :
    i.inStatement = true := by
  unfold inStatement
  split <;> first | rfl | exact h

/-- The plain parts of statements are plain parts of classes. -/
theorem Item.inClass_of_inStatement {i : Item} (h : i.inStatement = true) : i.inClass = true := by
  unfold inClass
  split <;> first | rfl | exact h

/-- The token of a type is a plain part. -/
theorem TypeName.inExpression_token (t : TypeName) : (Item.token t.token).inExpression = true := by
  cases t <;> rfl

/-- A script of plain parts and of constants that are looked at and then loaded. -/
inductive Made (plain : Item → Bool) : List Item → Prop
  | nil : Made plain []
  | cons {i : Item} {script : List Item} (head : plain i = true) (tail : Made plain script) :
      Made plain (i :: script)
  | integer {value : UInt32} {script : List Item} (tail : Made plain script) :
      Made plain (.marked (.integer value) :: .report (.loadInteger value) :: script)
  | string {content : String} {script : List Item} (tail : Made plain script) :
      Made plain (.marked (.string content) :: .report (.loadString content) :: script)

namespace Made

variable {plain plain' : Item → Bool} {front back script : List Item}

/-- Scripts one behind the other make a script. -/
theorem append (hfront : Made plain front) (hback : Made plain back) :
    Made plain (front ++ back) := by
  induction hfront with
  | nil => exact hback
  | cons head _ ih => exact .cons head ih
  | integer _ ih => exact .integer ih
  | string _ ih => exact .string ih

/-- The scripts of any number of things make a script. -/
theorem flatMap {α : Type} {xs : List α} {f : α → List Item} (h : ∀ x ∈ xs, Made plain (f x)) :
    Made plain (xs.flatMap f) := by
  induction xs with
  | nil => exact .nil
  | cons x xs ih =>
    obtain ⟨hx, hxs⟩ := List.forall_mem_cons.mp h
    exact hx.append (ih hxs)

/-- What is made of some parts is made of more of them. -/
theorem mono (h : Made plain script) (hplain : ∀ i, plain i = true → plain' i = true) :
    Made plain' script := by
  induction h with
  | nil => exact .nil
  | cons head _ ih => exact .cons (hplain _ head) ih
  | integer _ ih => exact .integer ih
  | string _ ih => exact .string ih

/-- Every part is plain or belongs to a constant. -/
theorem mem (h : Made plain script) : ∀ i ∈ script, plain i = true ∨ i.isConstant = true := by
  induction h with
  | nil => exact nofun
  | cons head _ ih => exact List.forall_mem_cons.mpr ⟨.inl head, ih⟩
  | integer _ ih | string _ ih =>
    exact List.forall_mem_cons.mpr ⟨.inr rfl, List.forall_mem_cons.mpr ⟨.inr rfl, ih⟩⟩

/-- Every action is that of a plain part or belongs to a constant. -/
theorem mem_actionsOf (h : Made plain script) {a : Action} (ha : a ∈ actionsOf script) :
    ∃ i : Item, i.action? = some a ∧ (plain i = true ∨ i.isConstant = true) := by
  obtain ⟨i, hi, ha⟩ := List.mem_filterMap.mp ha
  exact ⟨i, ha, h.mem i hi⟩

end Made

/-! ## Trees -/

mutual

/-- The script of a term is made of parts of expressions. -/
theorem Term.made : (t : Term) → Made Item.inExpression t.script
  | .integer _ => .integer .nil
  | .string _ => .string .nil
  | .constant word => by cases word <;> exact .cons rfl (.cons rfl .nil)
  | .var _ => .cons rfl (.cons rfl .nil)
  | .element _ index =>
    .append (.cons rfl (.cons rfl (Expression.made index)))
      (.cons rfl (.cons rfl (.cons rfl .nil)))
  | .call target => Call.made target
  | .group inner => .append (.cons rfl (Expression.made inner)) (.cons rfl .nil)
  | .unary _ operand => .append (.cons rfl (Term.made operand)) (.cons rfl .nil)

/-- The script of an expression is made of parts of expressions. -/
theorem Expression.made : (e : Expression) → Made Item.inExpression e.script
  | .chain first rest => (Term.made first).append (operations_made rest)

/-- So is that of operators with their terms. -/
theorem operations_made : (ops : List (BinaryOp × Term)) →
    Made Item.inExpression (operationScript ops)
  | [] => .nil
  | (_, operand) :: rest =>
    .append (.cons rfl (Term.made operand)) (.cons rfl (operations_made rest))

/-- The script of a call is made of parts of expressions. -/
theorem Call.made : (target : Call) → Made Item.inExpression target.script
  | .mk none _ args =>
    .append (.cons rfl (.cons rfl (.cons rfl (arguments_made args)))) (.cons rfl (.cons rfl .nil))
  | .mk (some _) _ args =>
    .append (.cons rfl (.cons rfl (.cons rfl (.cons rfl (.cons rfl (arguments_made args))))))
      (.cons rfl (.cons rfl .nil))

/-- So is that of arguments. -/
theorem arguments_made : (args : List Expression) → Made Item.inExpression (argumentScript args)
  | [] => .nil
  | arg :: rest => (Expression.made arg).append (further_made rest)

/-- So is that of arguments with a comma in front of each. -/
theorem further_made : (args : List Expression) → Made Item.inExpression (furtherScript args)
  | [] => .nil
  | arg :: rest => .append (.cons rfl (Expression.made arg)) (further_made rest)

end

/-- The script of an expression is made of parts of statements. -/
theorem Expression.made_inStatement (e : Expression) : Made Item.inStatement e.script :=
  e.made.mono fun _ => Item.inStatement_of_inExpression

/-- The script of a call is made of parts of statements. -/
theorem Call.made_inStatement (target : Call) : Made Item.inStatement target.script :=
  target.made.mono fun _ => Item.inStatement_of_inExpression

mutual

/-- The script of a statement is made of parts of statements. -/
theorem Statement.made : (s : Statement) → Made Item.inStatement s.script
  | .assign _ value =>
    .append (.cons rfl (.cons rfl (.cons rfl value.made_inStatement)))
      (.cons rfl (.cons rfl .nil))
  | .assignElement _ index value =>
    .append (.append (.cons rfl (.cons rfl (.cons rfl index.made_inStatement)))
      (.cons rfl (.cons rfl (.cons rfl value.made_inStatement)))) (.cons rfl (.cons rfl .nil))
  | .ifThen condition block =>
    .append (.append (.cons rfl (.cons rfl (.cons rfl condition.made_inStatement)))
      (.cons rfl (.cons rfl (.cons rfl (block_made block)))))
      (.cons rfl (.cons rfl (.cons rfl (.cons rfl .nil))))
  | .ifElse condition block other =>
    .append (.append (.append (.cons rfl (.cons rfl (.cons rfl condition.made_inStatement)))
      (.cons rfl (.cons rfl (.cons rfl (block_made block)))))
      (.cons rfl (.cons rfl (.cons rfl (.cons rfl (block_made other))))))
      (.cons rfl (.cons rfl (.cons rfl .nil)))
  | .whileLoop condition block =>
    .append (.append (.cons rfl (.cons rfl (.cons rfl (.cons rfl condition.made_inStatement))))
      (.cons rfl (.cons rfl (.cons rfl (block_made block)))))
      (.cons rfl (.cons rfl (.cons rfl .nil)))
  | .perform target =>
    .append (.cons rfl target.made_inStatement) (.cons rfl (.cons rfl .nil))
  | .giveBack none => .cons rfl (.cons rfl (.cons rfl (.cons rfl .nil)))
  | .giveBack (some value) =>
    .append (.cons rfl value.made_inStatement) (.cons rfl (.cons rfl .nil))

/-- The script of statements is made of parts of statements. -/
theorem block_made : (b : List Statement) → Made Item.inStatement (blockScript b)
  | [] => .nil
  | s :: rest => (Statement.made s).append (block_made rest)

end

/-- The script of names with one type is made of parts of classes. -/
theorem Group.made (kind : VarKind) (g : Group) : Made Item.inClass (g.script kind) := by
  have htype : (Item.token g.type.token).inClass = true :=
    Item.inClass_of_inStatement (Item.inStatement_of_inExpression g.type.inExpression_token)
  refine .append (.cons htype (.cons rfl (.flatMap ?_))) (.cons rfl .nil)
  exact fun name _ => .cons rfl (.cons rfl .nil)

/-- The script of a parameter is made of parts of classes. -/
theorem Parameter.made (p : Parameter) : Made Item.inClass p.script :=
  .cons (Item.inClass_of_inStatement (Item.inStatement_of_inExpression p.type.inExpression_token))
    (.cons rfl .nil)

/-- The script of parameters is made of parts of classes. -/
theorem parameters_made (ps : List Parameter) : Made Item.inClass (parameterScript ps) := by
  cases ps with
  | nil => exact .nil
  | cons p rest => exact p.made.append (.flatMap fun q _ => .cons rfl q.made)

/-- The script of a subroutine is made of parts of classes. -/
theorem Subroutine.made (s : Subroutine) : Made Item.inClass s.script := by
  have hreturns : (Item.token (returnToken s.returns)).inClass = true := by
    cases s.returns with
    | none => rfl
    | some t =>
      exact Item.inClass_of_inStatement (Item.inStatement_of_inExpression t.inExpression_token)
  have hlocals : Made Item.inClass
      (s.locals.flatMap fun g => .token (.keyword .varKw) :: g.script .local) :=
    .flatMap fun g _ => .cons rfl (g.made .local)
  have hbody : Made Item.inClass (blockScript s.body) :=
    (block_made s.body).mono fun _ => Item.inClass_of_inStatement
  have hnames : Made Item.inClass (.token (.keyword (subKeyword s.kind)) ::
      .report (.openSub s.kind) :: .token (returnToken s.returns) :: .token (.identifier s.name) ::
      .report (.nameSub s.name) :: .token (.symbol '(') :: parameterScript s.parameters) :=
    .cons rfl (.cons rfl (.cons hreturns (.cons rfl (.cons rfl (.cons rfl (parameters_made _))))))
  have hhead : Made Item.inClass s.headScript := hnames.append (.cons rfl (.cons rfl hlocals))
  exact (hhead.append (.cons rfl hbody)).append (.cons rfl .nil)

/-- The script of a class is made of parts of classes. -/
theorem Class.made (c : Class) : Made Item.inClass c.script := by
  have hgroups : Made Item.inClass (c.groups.flatMap ClassGroup.script) :=
    .flatMap fun g _ => .cons rfl (g.group.made g.sharing.varKind)
  have hhead : Made Item.inClass c.headScript :=
    .cons rfl (.cons rfl (.cons rfl (.cons rfl hgroups)))
  have hsubs : Made Item.inClass (c.subroutines.flatMap Subroutine.script) :=
    .flatMap fun s _ => s.made
  exact (hhead.append hsubs).append (.cons rfl .nil)

end JackStack.Tree
