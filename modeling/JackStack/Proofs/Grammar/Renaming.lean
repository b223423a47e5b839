import JackStack.Proofs.Code.Reference
import JackStack.Proofs.Grammar.Reports
import JackStack.Proofs.Source.Respelling

/-!
# Renaming variables

A variable is used where a `let` changes it, in front of an index, as a term, and in front of the
dot of a call. Renaming it in a tree replaces its name in these four places and where it is
declared; the names of types, classes and subroutines stay. The tokens of the tree then stay the
same but for some identifiers, and so do the actions but for the names they look up.
-/

namespace JackStack

/-! ## Actions -/

namespace Action

/-- The names that an action looks up. -/
def lookups : Action → List String
  | use name _ | load name | store name | index name | receive name => [name]
  | call (some owner) _ _ => [owner]
  | _ => []

/-- The action with other names to look up. -/
def rename (ρ : String → String) : Action → Action
  | use name pos => use (ρ name) pos
  | load name => load (ρ name)
  | store name => store (ρ name)
  | index name => index (ρ name)
  | receive name => receive (ρ name)
  | call owner name args => call (owner.map ρ) name args
  | a => a

/-- Renaming every name to itself changes no action. -/
theorem rename_id : rename id = id := by
  funext a
  cases a with
  | call owner name args => cases owner <;> rfl
  | _ => rfl

end Action

/-- The names that actions look up. -/
def lookupsOf (actions : List Action) : List String := actions.flatMap Action.lookups

@[simp, grind =] theorem lookupsOf_nil : lookupsOf [] = [] := rfl

@[simp, grind =] theorem lookupsOf_cons (a : Action) (actions : List Action) :
    lookupsOf (a :: actions) = a.lookups ++ lookupsOf actions := rfl

/-- The names looked up by two pieces of actions are those of the first and then those of the
second. -/
@[simp, grind =] theorem lookupsOf_append (front back : List Action) :
    lookupsOf (front ++ back) = lookupsOf front ++ lookupsOf back := List.flatMap_append

namespace Tree

/-! ## Expressions -/

mutual

/-- The term with other names for its variables. -/
def Term.rename (ρ : String → String) : Term → Term
  | .integer value => .integer value
  | .string content => .string content
  | .constant word => .constant word
  | .var name => .var (ρ name)
  | .element array index => .element (ρ array) (index.rename ρ)
  | .call target => .call (target.rename ρ)
  | .group inner => .group (inner.rename ρ)
  | .unary op operand => .unary op (operand.rename ρ)

/-- The expression with other names for its variables. -/
def Expression.rename (ρ : String → String) : Expression → Expression
  | .chain first rest => .chain (first.rename ρ) (renameOperations ρ rest)

/-- The operators behind a term, each with its term, with other names for the variables. -/
def renameOperations (ρ : String → String) : List (BinaryOp × Term) → List (BinaryOp × Term)
  | [] => []
  | (op, operand) :: rest => (op, operand.rename ρ) :: renameOperations ρ rest

/-- The call with other names for the variables; what is called keeps its name. -/
def Call.rename (ρ : String → String) : Call → Call
  | .mk owner name args => .mk (owner.map ρ) name (renameArguments ρ args)

/-- Arguments with other names for the variables. -/
def renameArguments (ρ : String → String) : List Expression → List Expression
  | [] => []
  | arg :: rest => arg.rename ρ :: renameArguments ρ rest

end

/-- Renaming leaves the number of arguments as it is, and so the call that they belong to. -/
theorem length_renameArguments (ρ : String → String) (args : List Expression) :
    (renameArguments ρ args).length = args.length := by
  induction args with
  | nil => rfl
  | cons arg rest ih => rw [renameArguments, List.length_cons, ih, List.length_cons]

section Expressions

variable (ρ : String → String)

mutual

/-- Renaming changes the names that actions look up, and nothing else of them. -/
theorem Term.actions_rename : (x : Term) → (x.rename ρ).actions = x.actions.map (Action.rename ρ)
  | .integer _ | .string _ | .var _ => rfl
  | .constant word => by cases word <;> rfl
  | .element _ index => by simp [Term.rename, Term.actions, Action.rename, index.actions_rename]
  | .call target => target.actions_rename
  | .group inner => inner.actions_rename
  | .unary _ operand => by simp [Term.rename, Term.actions, Action.rename, operand.actions_rename]

/-- A renamed expression reports the actions of the expression, renamed. -/
theorem Expression.actions_rename : (x : Expression) →
    (x.rename ρ).actions = x.actions.map (Action.rename ρ)
  | .chain first rest => by
    simp [Expression.rename, Expression.actions, first.actions_rename,
      operations_actions_rename rest]

theorem operations_actions_rename : (rest : List (BinaryOp × Term)) →
    operationActions (renameOperations ρ rest) = (operationActions rest).map (Action.rename ρ)
  | [] => rfl
  | (_, operand) :: rest => by
    simp [renameOperations, operationActions, Action.rename, operand.actions_rename,
      operations_actions_rename rest]

/-- A renamed call reports the actions of the call, renamed; the number of its arguments stays. -/
theorem Call.actions_rename : (x : Call) → (x.rename ρ).actions = x.actions.map (Action.rename ρ)
  | .mk none _ args => by
    simp [Call.rename, Call.actions, Action.rename, length_renameArguments,
      arguments_actions_rename args]
  | .mk (some _) _ args => by
    simp [Call.rename, Call.actions, Action.rename, length_renameArguments,
      arguments_actions_rename args]

theorem arguments_actions_rename : (args : List Expression) →
    argumentActions (renameArguments ρ args) = (argumentActions args).map (Action.rename ρ)
  | [] => rfl
  | arg :: rest => by
    simp [renameArguments, argumentActions, arg.actions_rename, arguments_actions_rename rest]

end

mutual

/-- Renaming changes some identifiers among the tokens. -/
theorem Term.respells : (x : Term) → Respells ρ x.tokens (x.rename ρ).tokens
  | .integer _ | .string _ | .constant _ => .refl _
  | .var name => .name name .nil
  | .element array index => (Respells.name array (.same _ index.respells)).snoc _
  | .call target => target.respells
  | .group inner => (Respells.same _ inner.respells).snoc _
  | .unary _ operand => .same _ operand.respells

/-- The tokens of a renamed expression respell those of the expression. -/
theorem Expression.respells : (x : Expression) → Respells ρ x.tokens (x.rename ρ).tokens
  | .chain first rest => first.respells.append (operations_respell rest)

/-- The operators keep their tokens, and the operands behind them are respelled. -/
theorem operations_respell : (rest : List (BinaryOp × Term)) →
    Respells ρ (operationTokens rest) (operationTokens (renameOperations ρ rest))
  | [] => .nil
  | (_, operand) :: rest => (Respells.same _ operand.respells).append (operations_respell rest)

/-- A call keeps the name of its subroutine; its receiver and its arguments are respelled. -/
theorem Call.respells : (x : Call) → Respells ρ x.tokens (x.rename ρ).tokens
  | .mk none _ args => (Respells.same _ (.same _ (arguments_respell args))).snoc _
  | .mk (some owner) _ args =>
    (Respells.name owner (.same _ (.same _ (.same _ (arguments_respell args))))).snoc _

theorem arguments_respell : (args : List Expression) →
    Respells ρ (argumentTokens args) (argumentTokens (renameArguments ρ args))
  | [] => .nil
  | arg :: rest => arg.respells.append (further_respell rest)

/-- The commas keep their places between respelled arguments. -/
theorem further_respell : (args : List Expression) →
    Respells ρ (furtherTokens args) (furtherTokens (renameArguments ρ args))
  | [] => .nil
  | arg :: rest => (Respells.same _ arg.respells).append (further_respell rest)

end

end Expressions

mutual

/-- What is looked up for a tree is named in it. -/
theorem Term.mem_tokens_of_lookup {n : String} : (x : Term) → n ∈ lookupsOf x.actions →
    .identifier n ∈ x.tokens
  | .integer _, h | .string _, h => by simp [Term.actions, Action.lookups] at h
  | .constant word, h => by cases word <;> simp [Term.actions, Constant.action, Action.lookups] at h
  | .var _, h => by simpa [Term.actions, Term.tokens, Action.lookups] using h
  | .element array index, h => by
    have hindex := index.mem_tokens_of_lookup (n := n)
    grind [Term.actions, Term.tokens, Action.lookups]
  | .call target, h => target.mem_tokens_of_lookup h
  | .group inner, h => by
    have hinner := inner.mem_tokens_of_lookup h
    simp [Term.tokens, hinner]
  | .unary _ operand, h => by
    have hoperand := operand.mem_tokens_of_lookup (n := n)
    grind [Term.actions, Term.tokens, Action.lookups]

/-- A name that an expression looks up stands among its tokens. -/
theorem Expression.mem_tokens_of_lookup {n : String} : (x : Expression) →
    n ∈ lookupsOf x.actions → .identifier n ∈ x.tokens
  | .chain first rest, h => by
    have hfirst := first.mem_tokens_of_lookup (n := n)
    have hrest := operations_mem_tokens_of_lookup (n := n) rest
    grind [Expression.actions, Expression.tokens]

theorem operations_mem_tokens_of_lookup {n : String} : (rest : List (BinaryOp × Term)) →
    n ∈ lookupsOf (operationActions rest) → .identifier n ∈ operationTokens rest
  | [], h => by simp [operationActions] at h
  | (_, operand) :: rest, h => by
    have hoperand := operand.mem_tokens_of_lookup (n := n)
    have hrest := operations_mem_tokens_of_lookup (n := n) rest
    grind [operationActions, operationTokens, Action.lookups]

/-- A name that a call looks up is its receiver or stands in an argument. -/
theorem Call.mem_tokens_of_lookup {n : String} : (x : Call) → n ∈ lookupsOf x.actions →
    .identifier n ∈ x.tokens
  | .mk none _ args, h => by
    have hargs := arguments_mem_tokens_of_lookup (n := n) args
    grind [Call.actions, Call.tokens, Action.lookups]
  | .mk (some _) _ args, h => by
    have hargs := arguments_mem_tokens_of_lookup (n := n) args
    grind [Call.actions, Call.tokens, Action.lookups]

theorem arguments_mem_tokens_of_lookup {n : String} : (args : List Expression) →
    n ∈ lookupsOf (argumentActions args) → .identifier n ∈ argumentTokens args
  | [], h => by simp [argumentActions] at h
  | arg :: rest, h => by
    have harg := arg.mem_tokens_of_lookup (n := n)
    have hrest := further_mem_tokens_of_lookup (n := n) rest
    grind [argumentActions, argumentTokens]

/-- A name that arguments look up stands among their tokens also where commas begin them. -/
theorem further_mem_tokens_of_lookup {n : String} : (args : List Expression) →
    n ∈ lookupsOf (argumentActions args) → .identifier n ∈ furtherTokens args
  | [], h => by simp [argumentActions] at h
  | arg :: rest, h => by
    have harg := arg.mem_tokens_of_lookup (n := n)
    have hrest := further_mem_tokens_of_lookup (n := n) rest
    grind [argumentActions, furtherTokens]

end

/-! ## Statements -/

mutual

/-- The statement with other names for its variables. -/
def Statement.rename (ρ : String → String) : Statement → Statement
  | .assign name value => .assign (ρ name) (value.rename ρ)
  | .assignElement array index value =>
    .assignElement (ρ array) (index.rename ρ) (value.rename ρ)
  | .ifThen condition block => .ifThen (condition.rename ρ) (renameBlock ρ block)
  | .ifElse condition block other =>
    .ifElse (condition.rename ρ) (renameBlock ρ block) (renameBlock ρ other)
  | .whileLoop condition block => .whileLoop (condition.rename ρ) (renameBlock ρ block)
  | .perform target => .perform (target.rename ρ)
  | .giveBack none => .giveBack none
  | .giveBack (some value) => .giveBack (some (value.rename ρ))

/-- Statements with other names for their variables. -/
def renameBlock (ρ : String → String) : List Statement → List Statement
  | [] => []
  | s :: rest => s.rename ρ :: renameBlock ρ rest

end

section Statements

variable (ρ : String → String)

mutual

/-- A renamed statement reports the actions of the statement, renamed. -/
theorem Statement.actions_rename : (s : Statement) →
    (s.rename ρ).actions = s.actions.map (Action.rename ρ)
  | .assign _ value => by
    simp [Statement.rename, Statement.actions, Action.rename, value.actions_rename]
  | .assignElement _ index value => by
    simp [Statement.rename, Statement.actions, Action.rename, index.actions_rename,
      value.actions_rename]
  | .ifThen condition block => by
    simp [Statement.rename, Statement.actions, Action.rename, condition.actions_rename,
      block_actions_rename block]
  | .ifElse condition block other => by
    simp [Statement.rename, Statement.actions, Action.rename, condition.actions_rename,
      block_actions_rename block, block_actions_rename other]
  | .whileLoop condition block => by
    simp [Statement.rename, Statement.actions, Action.rename, condition.actions_rename,
      block_actions_rename block]
  | .perform target => by
    simp [Statement.rename, Statement.actions, Action.rename, target.actions_rename]
  | .giveBack none => rfl
  | .giveBack (some value) => by
    simp [Statement.rename, Statement.actions, Action.rename, value.actions_rename]

theorem block_actions_rename : (block : List Statement) →
    blockActions (renameBlock ρ block) = (blockActions block).map (Action.rename ρ)
  | [] => rfl
  | s :: rest => by
    simp [renameBlock, blockActions, s.actions_rename, block_actions_rename rest]

end

mutual

/-- The tokens of a renamed statement respell those of the statement. -/
theorem Statement.respells : (s : Statement) → Respells ρ s.tokens (s.rename ρ).tokens
  | .assign name value => (Respells.same _ (.name name (.same _ (value.respells ρ)))).snoc _
  | .assignElement array index value =>
    ((Respells.same _ (.name array (.same _ (index.respells ρ)))).append
      (.same _ (.same _ (value.respells ρ)))).snoc _
  | .ifThen condition block =>
    ((Respells.same _ (.same _ (condition.respells ρ))).append
      (.same _ (.same _ (block_respells block)))).snoc _
  | .ifElse condition block other =>
    (((Respells.same _ (.same _ (condition.respells ρ))).append
      (.same _ (.same _ (block_respells block)))).append
      (.same _ (.same _ (.same _ (block_respells other))))).snoc _
  | .whileLoop condition block =>
    ((Respells.same _ (.same _ (condition.respells ρ))).append
      (.same _ (.same _ (block_respells block)))).snoc _
  | .perform target => (Respells.same _ (target.respells ρ)).snoc _
  | .giveBack none => .refl _
  | .giveBack (some value) => (Respells.same _ (value.respells ρ)).snoc _

theorem block_respells : (block : List Statement) →
    Respells ρ (blockTokens block) (blockTokens (renameBlock ρ block))
  | [] => .nil
  | s :: rest => s.respells.append (block_respells rest)

end

end Statements

mutual

/-- A name that a statement looks up stands among its tokens. -/
theorem Statement.mem_tokens_of_lookup {n : String} : (s : Statement) → n ∈ lookupsOf s.actions →
    .identifier n ∈ s.tokens
  | .assign _ value, h => by
    have hvalue := value.mem_tokens_of_lookup (n := n)
    grind [Statement.actions, Statement.tokens, Action.lookups]
  | .assignElement _ index value, h => by
    have hindex := index.mem_tokens_of_lookup (n := n)
    have hvalue := value.mem_tokens_of_lookup (n := n)
    grind [Statement.actions, Statement.tokens, Action.lookups]
  | .ifThen condition block, h | .whileLoop condition block, h => by
    have hparts : n ∈ lookupsOf condition.actions ∨ n ∈ lookupsOf (blockActions block) := by
      simpa [Statement.actions, Action.lookups] using h
    have htokens := hparts.imp condition.mem_tokens_of_lookup (block_mem_tokens_of_lookup block)
    simpa [Statement.tokens] using htokens
  | .ifElse condition block other, h => by
    have hparts : n ∈ lookupsOf condition.actions ∨ n ∈ lookupsOf (blockActions block) ∨
        n ∈ lookupsOf (blockActions other) := by
      simpa [Statement.actions, Action.lookups] using h
    have htokens := hparts.imp condition.mem_tokens_of_lookup
      (Or.imp (block_mem_tokens_of_lookup block) (block_mem_tokens_of_lookup other))
    simpa [Statement.tokens] using htokens
  | .perform target, h => by
    have htarget := target.mem_tokens_of_lookup (n := n)
    grind [Statement.actions, Statement.tokens, Action.lookups]
  | .giveBack none, h => by simp [Statement.actions, Action.lookups] at h
  | .giveBack (some value), h => by
    have hvalue := value.mem_tokens_of_lookup (n := n)
    grind [Statement.actions, Statement.tokens, Action.lookups]

theorem block_mem_tokens_of_lookup {n : String} : (block : List Statement) →
    n ∈ lookupsOf (blockActions block) → .identifier n ∈ blockTokens block
  | [], h => by simp [blockActions] at h
  | s :: rest, h => by
    have hs := s.mem_tokens_of_lookup (n := n)
    have hrest := block_mem_tokens_of_lookup (n := n) rest
    grind [blockActions, blockTokens]

end

/-! ## Declarations -/

/-- The names of a group are other ones. -/
def Group.rename (ρ : String → String) (g : Group) : Group :=
  { g with first := ρ g.first, others := g.others.map ρ }

/-- The names of a declaration of class variables are other ones. -/
def ClassGroup.rename (ρ : String → String) (g : ClassGroup) : ClassGroup :=
  { g with group := g.group.rename ρ }

/-- The name of a parameter is another one. -/
def Parameter.rename (ρ : String → String) (p : Parameter) : Parameter :=
  { p with name := ρ p.name }

/-- The name of a declared variable is another one. -/
def Declaration.rename (ρ : String → String) (d : Declaration) : Declaration :=
  { d with name := ρ d.name }

/-- The statements of a subroutine use other names for their variables. -/
def Subroutine.renameUses (ρ : String → String) (s : Subroutine) : Subroutine :=
  { s with body := renameBlock ρ s.body }

/-- The parameters and variables of a subroutine have other names. -/
def Subroutine.rename (ρ : String → String) (s : Subroutine) : Subroutine :=
  { s with
    parameters := s.parameters.map (Parameter.rename ρ)
    locals := s.locals.map (Group.rename ρ)
    body := renameBlock ρ s.body }

/-- In a group of variables the type stays and the names are respelled. -/
theorem Group.respells (ρ : String → String) (g : Group) :
    Respells ρ g.tokens (g.rename ρ).tokens := by
  have hothers : Respells ρ (nameTokens g.others) (nameTokens (g.others.map ρ)) := by
    rw [nameTokens, nameTokens, List.flatMap_map]
    exact .flatMap fun name _ => .same _ (.name name .nil)
  exact (Respells.same _ (.name g.first hothers)).snoc _

/-- The word in front of a group of class variables stays, and the group is respelled. -/
theorem ClassGroup.respells (ρ : String → String) (g : ClassGroup) :
    Respells ρ g.tokens (g.rename ρ).tokens := .same _ (g.group.respells ρ)

/-- The type of a parameter stays, and its name is respelled. -/
theorem Parameter.respells (ρ : String → String) (p : Parameter) :
    Respells ρ p.tokens (p.rename ρ).tokens := .same _ (.name p.name .nil)

/-- The tokens of renamed parameters respell those of the parameters. -/
theorem parameters_respell (ρ : String → String) (ps : List Parameter) :
    Respells ρ (parameterTokens ps) (parameterTokens (ps.map (Parameter.rename ρ))) := by
  cases ps with
  | nil => exact .nil
  | cons p rest =>
    refine (p.respells ρ).append ?_
    rw [List.flatMap_map]
    exact .flatMap fun q _ => .same _ (q.respells ρ)

/-- Where only the uses in a subroutine are renamed, what stands in front of its statements stays.
-/
theorem Subroutine.respells_uses (ρ : String → String) (s : Subroutine) :
    Respells ρ s.tokens (s.renameUses ρ).tokens :=
  ((Respells.refl _).append (block_respells ρ s.body)).snoc _

/-- A subroutine keeps its name and its types; what it declares and uses is respelled. -/
theorem Subroutine.respells (ρ : String → String) (s : Subroutine) :
    Respells ρ s.tokens (s.rename ρ).tokens := by
  have hlocals :
      Respells ρ (localTokens s.locals) (localTokens (s.locals.map (Group.rename ρ))) := by
    rw [localTokens, localTokens, List.flatMap_map]
    exact .flatMap fun g _ => .same _ (g.respells ρ)
  have hhead := Respells.same (.keyword (subKeyword s.kind)) (.same (returnToken s.returns)
    (.same (.identifier s.name) (.same (.symbol '(') (parameters_respell ρ s.parameters))))
  exact ((hhead.append (.same _ (.same _ hlocals))).append (block_respells ρ s.body)).snoc _

/-- A renamed group declares the same variables under their new names. -/
theorem Group.declarations_rename (ρ : String → String) (kind : VarKind) (g : Group) :
    (g.rename ρ).declarations kind = (g.declarations kind).map (Declaration.rename ρ) := by
  simp [Group.declarations, Group.names, Group.rename, Declaration.rename]

/-- A renamed group of a class declares the same variables under their new names. -/
theorem ClassGroup.declarations_rename (ρ : String → String) (g : ClassGroup) :
    (g.rename ρ).declarations = g.declarations.map (Declaration.rename ρ) := by
  obtain ⟨_ | _, group⟩ := g <;> exact group.declarations_rename ρ _

/-- A renamed subroutine declares the same variables under their new names. -/
theorem Subroutine.declarations_rename (ρ : String → String) (s : Subroutine) :
    (s.rename ρ).declarations = s.declarations.map (Declaration.rename ρ) := by
  simp [Subroutine.declarations, Subroutine.rename, Parameter.rename, Declaration.rename,
    List.map_flatMap, List.flatMap_map, Group.declarations_rename]

/-! ## Classes -/

/-- A variable of a class: one of the class, or one of the subroutine with a number. -/
inductive Binder where
  | shared (name : String)
  | own (sub : Nat) (name : String)
  deriving DecidableEq, Repr

/-- The name of the variable. -/
def Binder.name : Binder → String
  | shared name | own _ name => name

/-- The class declares the variable. -/
def Class.Binds (c : Class) : Binder → Prop
  | .shared name => name ∈ c.declarations.map (·.name)
  | .own sub name => ∃ s, c.subroutines[sub]? = some s ∧ name ∈ s.declarations.map (·.name)

/-- The class with another name for one of its variables. A variable of the class is used in the
subroutines that declare no variable of its name, a variable of a subroutine in that subroutine. -/
def Class.rename (c : Class) (fresh : String) : Binder → Class
  | .shared name =>
    { c with
      groups := c.groups.map (ClassGroup.rename (Function.update id name fresh))
      subroutines := c.subroutines.map fun s =>
        if name ∈ s.declarations.map (·.name) then s
        else s.renameUses (Function.update id name fresh) }
  | .own sub name =>
    { c with
      subroutines := c.subroutines.modify sub (.rename (Function.update id name fresh)) }

/-- Where one subroutine of a class is respelled, the subroutines together are. -/
theorem subroutines_respell {ρ : String → String} {f : Subroutine → Subroutine}
    (hf : ∀ s, Respells ρ s.tokens (f s).tokens) (sub : Nat) (subs : List Subroutine) :
    Respells ρ (subs.flatMap Subroutine.tokens)
      ((subs.modify sub f).flatMap Subroutine.tokens) := by
  induction subs generalizing sub with
  | nil =>
    rw [List.modify_nil]
    exact .nil
  | cons s subs ih =>
    cases sub with
    | zero => exact (hf s).snoc _
    | succ sub => exact (Respells.refl _).append (ih sub)

/-- A class is respelled where its variables and its subroutines are and its name stays. -/
theorem Class.respells_of_parts {ρ : String → String} {c c' : Class} (hname : c'.name = c.name)
    (hgroups : Respells ρ (c.groups.flatMap ClassGroup.tokens)
      (c'.groups.flatMap ClassGroup.tokens))
    (hsubs : Respells ρ (c.subroutines.flatMap Subroutine.tokens)
      (c'.subroutines.flatMap Subroutine.tokens)) : Respells ρ c.tokens c'.tokens := by
  rw [Class.tokens, Class.tokens, hname]
  exact ((Respells.same _ (.same _ (.same _ hgroups))).append hsubs).snoc _

/-- Renaming a variable changes some identifiers among the tokens of a class. -/
theorem Class.respells (c : Class) (fresh : String) (b : Binder) :
    Respells (Function.update id b.name fresh) c.tokens (c.rename fresh b).tokens := by
  cases b with
  | shared name =>
    refine respells_of_parts rfl ?_ ?_
    · rw [Class.rename, List.flatMap_map]
      exact .flatMap fun g _ => g.respells _
    · rw [Class.rename, List.flatMap_map]
      refine .flatMap fun s _ => ?_
      split
      · exact .refl _
      · exact s.respells_uses _
  | own sub name =>
    exact respells_of_parts rfl (.refl _) (subroutines_respell (Subroutine.respells _) sub _)

end Tree

end JackStack
