import JackStack.Proofs.Grammar.Tree

/-!
# What the grammar reports of a tree

The actions of a tree are those that recognising it reports, in order. Places are of no
consequence here, so all of them are the first one. The soundness and the completeness of the
grammar tie these actions to its recognisers, and the generator's laws are about them.
-/

namespace JackStack.Tree

/-- The action of a constant. -/
def Constant.action : Constant → Action
  | yes => .loadTrue
  | no => .loadZero
  | null => .loadZero
  | this => .loadThis

mutual

/-- The actions of a term. -/
def Term.actions : Term → List Action
  | .integer value => [.checkInteger value .start, .loadInteger value]
  | .string content => [.checkString content .start, .loadString content]
  | .constant word => [word.action]
  | .var name => [.use name .start, .load name]
  | .element array index => .use array .start :: index.actions ++ [.index array, .loadElement]
  | .call target => target.actions
  | .group inner => inner.actions
  | .unary op operand => operand.actions ++ [.applyUnary op]

/-- The actions of an expression. -/
def Expression.actions : Expression → List Action
  | .chain first rest => first.actions ++ operationActions rest

/-- The actions of the operators behind a term, each with its term. -/
def operationActions : List (BinaryOp × Term) → List Action
  | [] => []
  | (op, operand) :: rest => operand.actions ++ .applyBinary op :: operationActions rest

/-- The actions of a call. -/
def Call.actions : Call → List Action
  | .mk none name args => .receiveThis :: argumentActions args ++ [.call none name args.length]
  | .mk (some owner) name args =>
    .receive owner :: argumentActions args ++ [.call (some owner) name args.length]

/-- The actions of arguments. -/
def argumentActions : List Expression → List Action
  | [] => []
  | arg :: rest => arg.actions ++ argumentActions rest

end

mutual

/-- The actions of a statement. -/
def Statement.actions : Statement → List Action
  | .assign name value => .use name .start :: value.actions ++ [.store name]
  | .assignElement array index value =>
    .use array .start :: index.actions ++ .index array :: value.actions ++ [.storeElement]
  | .ifThen condition block =>
    .openBranch :: condition.actions ++ .leaveUnless :: blockActions block ++
      [.turnBack, .markFirst, .closeBranch]
  | .ifElse condition block other =>
    .openBranch :: condition.actions ++ .leaveUnless :: blockActions block ++
      .turnBack :: blockActions other ++ [.markFirst, .closeBranch]
  | .whileLoop condition block =>
    .openBranch :: .markFirst :: condition.actions ++ .leaveUnless :: blockActions block ++
      [.turnBack, .closeBranch]
  | .perform target => target.actions ++ [.discard]
  | .giveBack none => [.loadZero, .giveBack]
  | .giveBack (some value) => value.actions ++ [.giveBack]

/-- The actions of statements. -/
def blockActions : List Statement → List Action
  | [] => []
  | s :: rest => s.actions ++ blockActions rest

end

/-- The actions of names declared with one type. -/
def Group.actions (kind : VarKind) (g : Group) : List Action :=
  (g.first :: g.others).map fun name => .declare kind g.type.text name .start

/-- The kind of variable that a declaration of class variables makes. -/
def Sharing.varKind : Sharing → VarKind
  | static => .static
  | field => .field

/-- The actions of a declaration of class variables. -/
def ClassGroup.actions (g : ClassGroup) : List Action := g.group.actions g.sharing.varKind

/-- The actions of a parameter. -/
def Parameter.actions (p : Parameter) : List Action :=
  [.declare .argument p.type.text p.name .start]

/-- The actions of a subroutine. -/
def Subroutine.actions (s : Subroutine) : List Action :=
  .openSub s.kind :: .nameSub s.name :: s.parameters.flatMap Parameter.actions ++
    s.locals.flatMap (Group.actions .local) ++ .openBody :: blockActions s.body

/-- The actions of a class. -/
def Class.actions (c : Class) : List Action :=
  .nameClass c.name :: c.groups.flatMap ClassGroup.actions ++
    c.subroutines.flatMap Subroutine.actions

/-! ## Lists of parts as lists of tokens and actions -/

/-- The tokens of operations: each operator and then its operand. -/
theorem operationTokens_eq (rest : List (BinaryOp × Term)) :
    operationTokens rest = rest.flatMap fun x => .symbol x.1.char :: x.2.tokens := by
  induction rest with
  | nil => rfl
  | cons x rest ih => rw [operationTokens, ih, List.flatMap_cons]

/-- The actions of operations: each operand and then its operator. -/
theorem operationActions_eq (rest : List (BinaryOp × Term)) :
    operationActions rest = rest.flatMap fun x => x.2.actions ++ [.applyBinary x.1] := by
  induction rest with
  | nil => rfl
  | cons x rest ih =>
    rw [operationActions, ih, List.flatMap_cons, List.append_assoc, List.singleton_append]

/-- The tokens of arguments behind the first one: each behind its comma. -/
theorem furtherTokens_eq (args : List Expression) :
    furtherTokens args = args.flatMap fun arg => .symbol ',' :: arg.tokens := by
  induction args with
  | nil => rfl
  | cons arg rest ih => rw [furtherTokens, ih, List.flatMap_cons]

/-- The actions of arguments are those of each of them in a row. -/
theorem argumentActions_eq (args : List Expression) :
    argumentActions args = args.flatMap Expression.actions := by
  induction args with
  | nil => rfl
  | cons arg rest ih => rw [argumentActions, ih, List.flatMap_cons]

/-- The tokens of a block are those of its statements in a row. -/
theorem blockTokens_eq (block : List Statement) :
    blockTokens block = block.flatMap Statement.tokens := by
  induction block with
  | nil => rfl
  | cons s rest ih => rw [blockTokens, ih, List.flatMap_cons]

/-- The actions of a block are those of its statements in a row. -/
theorem blockActions_eq (block : List Statement) :
    blockActions block = block.flatMap Statement.actions := by
  induction block with
  | nil => rfl
  | cons s rest ih => rw [blockActions, ih, List.flatMap_cons]

end JackStack.Tree
