import JackStack.Proofs.Grammar.Reports

/-!
# Tokens and actions of a tree in one sequence

The script of a tree has the tokens of the tree and the actions that recognising it reports, in
one order. Actions that name a place are not apart from the token whose place they name: such a
token is marked, and the mark says what the token stands for. So a script tells which token of a
class an action looks at, and what stands before that token.
-/

namespace JackStack.Tree

/-- What a token stands for whose place is named by an action. -/
inductive Mark where
  /-- The name of a declared variable. -/
  | declared (kind : VarKind) (type name : String)
  /-- The variable that a `let` changes. -/
  | target (name : String)
  /-- A variable, or an array in front of its index, as a term. -/
  | operand (name : String)
  | integer (value : UInt32)
  | string (content : String)
  deriving DecidableEq, Repr

namespace Mark

/-- The marked token. -/
def token : Mark → Token
  | declared _ _ name | target name | operand name => .identifier name
  | integer value => .integer value
  | string content => .string content

/-- The action that looks at the token, without its place. -/
def action : Mark → Action
  | declared kind type name => .declare kind type name .start
  | target name | operand name => .use name .start
  | integer value => .checkInteger value .start
  | string content => .checkString content .start

end Mark

/-- A part of a script. -/
inductive Item where
  | token (t : Token)
  | marked (m : Mark)
  | report (a : Action)
  deriving DecidableEq, Repr

/-- The token of a part. -/
def Item.token? : Item → Option Token
  | token t => some t
  | marked m => some m.token
  | report _ => none

/-- The action of a part. -/
def Item.action? : Item → Option Action
  | token _ => none
  | marked m => some m.action
  | report a => some a

/-- The tokens of a script. -/
def tokensOf (script : List Item) : List Token := script.filterMap Item.token?

/-- The actions of a script. -/
def actionsOf (script : List Item) : List Action := script.filterMap Item.action?

@[simp] theorem tokensOf_nil : tokensOf [] = [] := rfl

@[simp] theorem tokensOf_append (front back : List Item) :
    tokensOf (front ++ back) = tokensOf front ++ tokensOf back := List.filterMap_append

@[simp] theorem tokensOf_token (t : Token) (script : List Item) :
    tokensOf (.token t :: script) = t :: tokensOf script := rfl

/-- A marked token is one of the tokens. -/
@[simp] theorem tokensOf_marked (m : Mark) (script : List Item) :
    tokensOf (.marked m :: script) = m.token :: tokensOf script := rfl

/-- A report adds no token. -/
@[simp] theorem tokensOf_report (a : Action) (script : List Item) :
    tokensOf (.report a :: script) = tokensOf script := rfl

@[simp] theorem tokensOf_flatMap {α : Type} (xs : List α) (f : α → List Item) :
    tokensOf (xs.flatMap f) = xs.flatMap fun x => tokensOf (f x) := List.filterMap_flatMap

@[simp] theorem actionsOf_nil : actionsOf [] = [] := rfl

@[simp] theorem actionsOf_append (front back : List Item) :
    actionsOf (front ++ back) = actionsOf front ++ actionsOf back := List.filterMap_append

/-- A bare token reports nothing. -/
@[simp] theorem actionsOf_token (t : Token) (script : List Item) :
    actionsOf (.token t :: script) = actionsOf script := rfl

/-- A marked token reports the action of its mark. -/
@[simp] theorem actionsOf_marked (m : Mark) (script : List Item) :
    actionsOf (.marked m :: script) = m.action :: actionsOf script := rfl

@[simp] theorem actionsOf_report (a : Action) (script : List Item) :
    actionsOf (.report a :: script) = a :: actionsOf script := rfl

@[simp] theorem actionsOf_flatMap {α : Type} (xs : List α) (f : α → List Item) :
    actionsOf (xs.flatMap f) = xs.flatMap fun x => actionsOf (f x) := List.filterMap_flatMap

/-- An element of two lists one behind the other is one of the first or one of the second. -/
theorem eq_append_cons_cases {α : Type} {front back xs ys : List α} {x : α}
    (h : front ++ back = xs ++ x :: ys) :
    (∃ zs, front = xs ++ x :: zs ∧ ys = zs ++ back) ∨
      ∃ zs, xs = front ++ zs ∧ back = zs ++ x :: ys := by
  rcases List.append_eq_append_iff.mp h with ⟨zs, hxs, hback⟩ | ⟨zs, hfront, hys⟩
  · exact Or.inr ⟨zs, hxs, hback⟩
  · cases zs with
    | nil => exact Or.inr ⟨[], by simpa using hfront.symm, by simpa using hys.symm⟩
    | cons z zs =>
      obtain ⟨rfl, rfl⟩ := List.cons.inj hys
      exact Or.inl ⟨zs, hfront, rfl⟩

/-! ## Expressions -/

mutual

/-- The script of a term. -/
def Term.script : Term → List Item
  | .integer value => [.marked (.integer value), .report (.loadInteger value)]
  | .string content => [.marked (.string content), .report (.loadString content)]
  | .constant word => [.token (.keyword word.keyword), .report word.action]
  | .var name => [.marked (.operand name), .report (.load name)]
  | .element array index =>
    .marked (.operand array) :: .token (.symbol '[') :: index.script ++
      [.report (.index array), .report .loadElement, .token (.symbol ']')]
  | .call target => target.script
  | .group inner => .token (.symbol '(') :: inner.script ++ [.token (.symbol ')')]
  | .unary op operand => .token (.symbol op.char) :: operand.script ++ [.report (.applyUnary op)]

/-- The script of an expression. -/
def Expression.script : Expression → List Item
  | .chain first rest => first.script ++ operationScript rest

/-- The script of the operators behind a term, each with its term. -/
def operationScript : List (BinaryOp × Term) → List Item
  | [] => []
  | (op, operand) :: rest =>
    .token (.symbol op.char) :: operand.script ++ .report (.applyBinary op) :: operationScript rest

/-- The script of a call. -/
def Call.script : Call → List Item
  | .mk none name args =>
    .token (.identifier name) :: .report .receiveThis :: .token (.symbol '(') ::
      argumentScript args ++ [.token (.symbol ')'), .report (.call none name args.length)]
  | .mk (some owner) name args =>
    .token (.identifier owner) :: .token (.symbol '.') :: .token (.identifier name) ::
      .report (.receive owner) :: .token (.symbol '(') :: argumentScript args ++
      [.token (.symbol ')'), .report (.call (some owner) name args.length)]

/-- The script of arguments, with commas between them. -/
def argumentScript : List Expression → List Item
  | [] => []
  | arg :: rest => arg.script ++ furtherScript rest

/-- The script of arguments, with a comma in front of each. -/
def furtherScript : List Expression → List Item
  | [] => []
  | arg :: rest => .token (.symbol ',') :: arg.script ++ furtherScript rest

end

/-- The script of the operations behind a term: each operator, its operand, and then the operation.
-/
theorem operationScript_eq (rest : List (BinaryOp × Term)) :
    operationScript rest = rest.flatMap fun x =>
      .token (.symbol x.1.char) :: x.2.script ++ [.report (.applyBinary x.1)] := by
  induction rest with
  | nil => rfl
  | cons x rest ih => simp [operationScript, ih]

/-- The script of the arguments behind the first one: each behind its comma. -/
theorem furtherScript_eq (args : List Expression) :
    furtherScript args = args.flatMap fun arg => .token (.symbol ',') :: arg.script := by
  induction args with
  | nil => rfl
  | cons arg rest ih => simp [furtherScript, ih]

mutual

/-- A script has the tokens and the actions of its tree. -/
theorem Term.script_eq : (x : Term) → tokensOf x.script = x.tokens ∧ actionsOf x.script = x.actions
  | .integer _ | .string _ | .constant _ | .var _ => ⟨rfl, rfl⟩
  | .element array index => by
    have h := index.script_eq
    simp [Term.script, Term.tokens, Term.actions, h, Mark.token, Mark.action]
  | .call target => target.script_eq
  | .group inner => by
    have h := inner.script_eq
    simp [Term.script, Term.tokens, Term.actions, h]
  | .unary op operand => by
    have h := operand.script_eq
    simp [Term.script, Term.tokens, Term.actions, h]

/-- The script of an expression has its tokens and its actions. -/
theorem Expression.script_eq : (x : Expression) →
    tokensOf x.script = x.tokens ∧ actionsOf x.script = x.actions
  | .chain first rest => by
    have hfirst := first.script_eq
    have hrest := operationScript_sound rest
    simp [Expression.script, Expression.tokens, Expression.actions, hfirst, hrest]

theorem operationScript_sound : (rest : List (BinaryOp × Term)) →
    tokensOf (operationScript rest) = operationTokens rest ∧
      actionsOf (operationScript rest) = operationActions rest
  | [] => ⟨rfl, rfl⟩
  | (op, operand) :: rest => by
    have hoperand := operand.script_eq
    have hrest := operationScript_sound rest
    simp [operationScript, operationTokens, operationActions, hoperand, hrest]

/-- The script of a call has its tokens and its actions. -/
theorem Call.script_eq : (x : Call) → tokensOf x.script = x.tokens ∧ actionsOf x.script = x.actions
  | .mk none name args => by
    have hargs := argumentScript_sound args
    simp [Call.script, Call.tokens, Call.actions, hargs]
  | .mk (some owner) name args => by
    have hargs := argumentScript_sound args
    simp [Call.script, Call.tokens, Call.actions, hargs]

theorem argumentScript_sound : (args : List Expression) →
    tokensOf (argumentScript args) = argumentTokens args ∧
      actionsOf (argumentScript args) = argumentActions args
  | [] => ⟨rfl, rfl⟩
  | arg :: rest => by
    have harg := arg.script_eq
    have hrest := furtherScript_sound rest
    simp [argumentScript, argumentTokens, argumentActions, harg, hrest]

theorem furtherScript_sound : (args : List Expression) →
    tokensOf (furtherScript args) = furtherTokens args ∧
      actionsOf (furtherScript args) = argumentActions args
  | [] => ⟨rfl, rfl⟩
  | arg :: rest => by
    have harg := arg.script_eq
    have hrest := furtherScript_sound rest
    simp [furtherScript, furtherTokens, argumentActions, harg, hrest]

end

/-! ## Statements -/

mutual

/-- The script of a statement. -/
def Statement.script : Statement → List Item
  | .assign name value =>
    .token (.keyword .letKw) :: .marked (.target name) :: .token (.symbol '=') :: value.script ++
      [.report (.store name), .token (.symbol ';')]
  | .assignElement array index value =>
    .token (.keyword .letKw) :: .marked (.target array) :: .token (.symbol '[') :: index.script ++
      .report (.index array) :: .token (.symbol ']') :: .token (.symbol '=') :: value.script ++
      [.report .storeElement, .token (.symbol ';')]
  | .ifThen condition block =>
    .token (.keyword .ifKw) :: .token (.symbol '(') :: .report .openBranch :: condition.script ++
      .report .leaveUnless :: .token (.symbol ')') :: .token (.symbol '{') :: blockScript block ++
      [.token (.symbol '}'), .report .turnBack, .report .markFirst, .report .closeBranch]
  | .ifElse condition block other =>
    .token (.keyword .ifKw) :: .token (.symbol '(') :: .report .openBranch :: condition.script ++
      .report .leaveUnless :: .token (.symbol ')') :: .token (.symbol '{') :: blockScript block ++
      .token (.symbol '}') :: .report .turnBack :: .token (.keyword .elseKw) ::
      .token (.symbol '{') :: blockScript other ++
      [.token (.symbol '}'), .report .markFirst, .report .closeBranch]
  | .whileLoop condition block =>
    .token (.keyword .whileKw) :: .token (.symbol '(') :: .report .openBranch ::
      .report .markFirst :: condition.script ++
      .report .leaveUnless :: .token (.symbol ')') :: .token (.symbol '{') :: blockScript block ++
      [.token (.symbol '}'), .report .turnBack, .report .closeBranch]
  | .perform target =>
    .token (.keyword .doKw) :: target.script ++ [.report .discard, .token (.symbol ';')]
  | .giveBack none =>
    [.token (.keyword .returnKw), .report .loadZero, .report .giveBack, .token (.symbol ';')]
  | .giveBack (some value) =>
    .token (.keyword .returnKw) :: value.script ++ [.report .giveBack, .token (.symbol ';')]

/-- The script of statements. -/
def blockScript : List Statement → List Item
  | [] => []
  | s :: rest => s.script ++ blockScript rest

end

/-- The script of a block is that of its statements in a row. -/
theorem blockScript_eq (block : List Statement) :
    blockScript block = block.flatMap Statement.script := by
  induction block with
  | nil => rfl
  | cons s rest ih => rw [blockScript, ih, List.flatMap_cons]

mutual

/-- The script of a statement has its tokens and its actions. -/
theorem Statement.script_eq : (x : Statement) →
    tokensOf x.script = x.tokens ∧ actionsOf x.script = x.actions
  | .assign name value => by
    have hvalue := value.script_eq
    simp [Statement.script, Statement.tokens, Statement.actions, hvalue, Mark.token, Mark.action]
  | .assignElement array index value => by
    have hindex := index.script_eq
    have hvalue := value.script_eq
    simp [Statement.script, Statement.tokens, Statement.actions, hindex, hvalue, Mark.token,
      Mark.action]
  | .ifThen condition block => by
    have hcondition := condition.script_eq
    have hblock := blockScript_sound block
    simp [Statement.script, Statement.tokens, Statement.actions, hcondition, hblock]
  | .ifElse condition block other => by
    have hcondition := condition.script_eq
    have hblock := blockScript_sound block
    have hother := blockScript_sound other
    simp [Statement.script, Statement.tokens, Statement.actions, hcondition, hblock, hother]
  | .whileLoop condition block => by
    have hcondition := condition.script_eq
    have hblock := blockScript_sound block
    simp [Statement.script, Statement.tokens, Statement.actions, hcondition, hblock]
  | .perform target => by
    have htarget := target.script_eq
    simp [Statement.script, Statement.tokens, Statement.actions, htarget]
  | .giveBack none => ⟨rfl, rfl⟩
  | .giveBack (some value) => by
    have hvalue := value.script_eq
    simp [Statement.script, Statement.tokens, Statement.actions, hvalue]

theorem blockScript_sound : (block : List Statement) →
    tokensOf (blockScript block) = blockTokens block ∧
      actionsOf (blockScript block) = blockActions block
  | [] => ⟨rfl, rfl⟩
  | s :: rest => by
    have hs := s.script_eq
    have hrest := blockScript_sound rest
    simp [blockScript, blockTokens, blockActions, hs, hrest]

end

/-! ## Classes -/

/-- The script of names declared with one type, up to the semicolon. -/
def Group.script (kind : VarKind) (g : Group) : List Item :=
  .token g.type.token :: .marked (.declared kind g.type.text g.first) ::
    g.others.flatMap (fun name =>
      [.token (.symbol ','), .marked (.declared kind g.type.text name)]) ++ [.token (.symbol ';')]

/-- The script of a declaration of class variables. -/
def ClassGroup.script (g : ClassGroup) : List Item :=
  .token (.keyword g.sharing.keyword) :: g.group.script g.sharing.varKind

/-- The script of a parameter. -/
def Parameter.script (p : Parameter) : List Item :=
  [.token p.type.token, .marked (.declared .argument p.type.text p.name)]

/-- The script of parameters, with commas between them. -/
def parameterScript : List Parameter → List Item
  | [] => []
  | p :: rest => p.script ++ rest.flatMap fun q => .token (.symbol ',') :: q.script

/-- The script of a subroutine up to its statements. -/
def Subroutine.headScript (s : Subroutine) : List Item :=
  .token (.keyword (subKeyword s.kind)) :: .report (.openSub s.kind) ::
    .token (returnToken s.returns) :: .token (.identifier s.name) :: .report (.nameSub s.name) ::
    .token (.symbol '(') :: parameterScript s.parameters ++
    .token (.symbol ')') :: .token (.symbol '{') ::
    s.locals.flatMap (fun g => .token (.keyword .varKw) :: g.script .local)

/-- The script of a subroutine. -/
def Subroutine.script (s : Subroutine) : List Item :=
  s.headScript ++ .report .openBody :: blockScript s.body ++ [.token (.symbol '}')]

/-- The script of a class up to its subroutines. -/
def Class.headScript (c : Class) : List Item :=
  .token (.keyword .classKw) :: .token (.identifier c.name) :: .report (.nameClass c.name) ::
    .token (.symbol '{') :: c.groups.flatMap ClassGroup.script

/-- The script of a class. -/
def Class.script (c : Class) : List Item :=
  c.headScript ++ c.subroutines.flatMap Subroutine.script ++ [.token (.symbol '}')]

/-- The script of a group of variables has its tokens and its actions. -/
theorem Group.script_eq (kind : VarKind) (g : Group) :
    tokensOf (g.script kind) = g.tokens ∧ actionsOf (g.script kind) = g.actions kind := by
  constructor
  · simp [Group.script, Group.tokens, nameTokens, Mark.token]
  · simp [Group.script, Group.actions, Mark.action, List.map_eq_flatMap]

/-- The script of a group of class variables has its tokens and its actions. -/
theorem ClassGroup.script_eq (g : ClassGroup) :
    tokensOf g.script = g.tokens ∧ actionsOf g.script = g.actions := by
  have hgroup := g.group.script_eq g.sharing.varKind
  simp [ClassGroup.script, ClassGroup.tokens, ClassGroup.actions, hgroup]

/-- The script of a parameter has its tokens and its actions. -/
theorem Parameter.script_eq (p : Parameter) :
    tokensOf p.script = p.tokens ∧ actionsOf p.script = p.actions := ⟨rfl, rfl⟩

/-- The script of parameters has their tokens and their actions. -/
theorem parameterScript_sound (ps : List Parameter) :
    tokensOf (parameterScript ps) = parameterTokens ps ∧
      actionsOf (parameterScript ps) = ps.flatMap Parameter.actions := by
  cases ps with
  | nil => exact ⟨rfl, rfl⟩
  | cons p rest =>
    simp [parameterScript, parameterTokens, Parameter.script_eq]

/-- The script of a subroutine has its tokens and its actions. -/
theorem Subroutine.script_eq (s : Subroutine) :
    tokensOf s.script = s.tokens ∧ actionsOf s.script = s.actions := by
  have hparameters := parameterScript_sound s.parameters
  have hbody := blockScript_sound s.body
  have hlocals := Group.script_eq .local
  simp [Subroutine.script, Subroutine.headScript, Subroutine.tokens, Subroutine.actions,
    localTokens, hparameters, hbody, hlocals]

/-- The script of a class has its tokens and its actions, so a script adds nothing but their order.
-/
theorem Class.script_eq (c : Class) :
    tokensOf c.script = c.tokens ∧ actionsOf c.script = c.actions := by
  simp [Class.script, Class.headScript, Class.tokens, Class.actions, ClassGroup.script_eq,
    Subroutine.script_eq]

end JackStack.Tree
