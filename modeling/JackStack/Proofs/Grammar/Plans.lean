import JackStack.Syntax.Class

/-!
# Plans of productions

A production is recognised step by step, and some of the steps recognise other productions. A plan
says what the steps are and leaves open how these productions are recognised, with no limit to
anything: where a loop goes on, it is another visit of the loop. Running a plan with recognisers for
all productions tells which of them are visited, and where.
-/

namespace JackStack

namespace Syntax

open JackStack.Parser

/-! ## Productions -/

/-- The loops of the grammar. -/
inductive Loop where
  /-- The operators behind a term. -/
  | operators
  /-- The arguments behind the first one. -/
  | arguments
  /-- The names behind the first one of a declaration. -/
  | names (kind : VarKind) (type : String)
  /-- The parameters behind the first one. -/
  | parameters
  /-- The declarations of variables of a subroutine. -/
  | locals
  /-- The declarations of variables of a class. -/
  | classVariables
  | subroutines
  | statements

/-- What is recognised on its own and may be visited on the way. -/
inductive Production where
  | program
  | classDeclaration
  | classVariables
  | subroutine
  | parameters
  | body
  | localVariables
  | statement
  | letStatement
  | ifStatement
  | whileStatement
  | doStatement
  | returnStatement
  | expression
  | term
  | call
  | arguments
  | loop (l : Loop)

namespace Production

/-- Arguments and the rounds of a loop are counted. -/
@[reducible] def Value : Production → Type
  | arguments | loop _ => Nat
  | _ => Unit

end Production

/-- Recognisers for all productions. -/
abbrev Recognisers : Type := (q : Production) → Parser q.Value

/-- A production and where it is visited. -/
structure Visit where
  production : Production
  cursor : Cursor

/-- The steps of a recogniser, with the visits of productions among them left open. -/
inductive Plan (α : Type) : Type 1 where
  | done (value : α)
  | step {β : Type} (p : Parser β) (next : β → Plan α)
  | visit (q : Production) (next : q.Value → Plan α)

namespace Plan

variable {α β : Type}

protected def bind : Plan α → (α → Plan β) → Plan β
  | done a, f => f a
  | step p next, f => step p fun b => (next b).bind f
  | visit q next, f => visit q fun v => (next v).bind f

instance : Monad Plan where
  pure := done
  bind := Plan.bind

instance : MonadLift Parser Plan := ⟨fun p => step p done⟩

/-- Visits a production, the value of which is of no consequence. -/
def enter (q : Production) : Plan Unit := visit q fun _ => done ()

/-- Visits a loop and counts its rounds. -/
def count (l : Loop) : Plan Nat := visit (.loop l) done

/-- Visits the arguments of a call and counts them. -/
def countArguments : Plan Nat := visit .arguments done

/-- Follows the plan with recognisers for the productions. -/
def run (nested : Recognisers) : Plan α → Parser α
  | done a => pure a
  | step p next => p >>= fun b => (next b).run nested
  | visit q next => nested q >>= fun v => (next v).run nested

/-- The visits on the way. -/
def visits (nested : Recognisers) : Plan α → Cursor → List Visit
  | done _, _ => []
  | step p next, c =>
    match (p c).outcome with
    | .ok (b, c') => (next b).visits nested c'
    | .error _ => []
  | visit q next, c =>
    ⟨q, c⟩ :: match (nested q c).outcome with
      | .ok (v, c') => (next v).visits nested c'
      | .error _ => []

/-! ## Following a plan -/

section Run

variable (nested : Recognisers)

@[simp] theorem run_pure (a : α) : (pure a : Plan α).run nested = pure a := rfl

/-- A step of a plan is the recogniser itself. -/
@[simp] theorem run_lift (p : Parser α) : (liftM p : Plan α).run nested = p := by
  change (p >>= fun b => pure b) = p
  exact bind_pure p

/-- Entering a production follows its recogniser and drops the value. -/
@[simp] theorem run_enter (q : Production) :
    (enter q).run nested = nested q >>= fun _ => pure () := rfl

/-- Counting the rounds of a loop follows its recogniser. -/
@[simp] theorem run_count (l : Loop) : (count l).run nested = nested (.loop l) :=
  bind_pure (nested (.loop l))

@[simp] theorem run_countArguments : countArguments.run nested = nested .arguments :=
  bind_pure (nested .arguments)

/-- Two plans one after the other are followed one after the other. -/
@[simp] theorem run_bind (m : Plan α) (f : α → Plan β) :
    (m >>= f).run nested = m.run nested >>= fun a => (f a).run nested := by
  induction m with
  | done a =>
    change (f a).run nested = (pure a : Parser α) >>= _
    rw [pure_bind]
  | step p next ih =>
    change (p >>= fun b => (next b >>= f).run nested) = (p >>= fun b => (next b).run nested) >>= _
    rw [bind_assoc]
    exact congrArg _ (funext ih)
  | visit q next ih =>
    change (nested q >>= fun b => (next b >>= f).run nested) =
      (nested q >>= fun b => (next b).run nested) >>= _
    rw [bind_assoc]
    exact congrArg _ (funext ih)

@[simp] theorem run_ite {P : Prop} [Decidable P] (m m' : Plan α) :
    (if P then m else m').run nested = if P then m.run nested else m'.run nested := by
  split <;> rfl

end Run

/-- The visits of two plans one after the other are those of the first and, behind its success,
those of the second. -/
theorem mem_visits_bind {nested : Recognisers} {m : Plan α} {f : α → Plan β} {c : Cursor}
    {x : Visit} (h : x ∈ (m >>= f).visits nested c) : x ∈ m.visits nested c ∨
      ∃ a c', (m.run nested c).outcome = .ok (a, c') ∧ x ∈ (f a).visits nested c' := by
  induction m generalizing c with
  | done a => exact .inr ⟨a, c, rfl, h⟩
  | step p next ih =>
    change x ∈ (step p fun b => next b >>= f).visits nested c at h
    rw [visits] at h ⊢
    rcases hp : p c with ⟨actions, e | ⟨b, c₁⟩⟩
    · rw [hp] at h
      cases h
    · rw [hp] at h
      have hrun := bind_apply_of_ok hp fun b => (next b).run nested
      rcases ih b h with hfirst | ⟨a, c', hok, hrest⟩
      · exact .inl hfirst
      · exact .inr ⟨a, c', (congrArg Parse.outcome hrun).trans hok, hrest⟩
  | visit q next ih =>
    change x ∈ (visit q fun v => next v >>= f).visits nested c at h
    rw [visits] at h ⊢
    rcases List.mem_cons.mp h with rfl | h
    · exact .inl List.mem_cons_self
    rcases hq : nested q c with ⟨actions, e | ⟨v, c₁⟩⟩
    · rw [hq] at h
      cases h
    · rw [hq] at h
      have hrun := bind_apply_of_ok hq fun v => (next v).run nested
      rcases ih v h with hfirst | ⟨a, c', hok, hrest⟩
      · exact .inl (List.mem_cons_of_mem _ hfirst)
      · exact .inr ⟨a, c', (congrArg Parse.outcome hrun).trans hok, hrest⟩

/-- Looking at the current token is no visit. -/
theorem visits_look_bind (nested : Recognisers) (f : Option Token → Plan α) (c : Cursor) :
    ((liftM look : Plan (Option Token)) >>= f).visits nested c = (f c.token).visits nested c := rfl

/-- Entering a production is the only visit on the way to it. -/
theorem eq_of_mem_visits_enter {nested : Recognisers} {q : Production} {c : Cursor} {x : Visit}
    (h : x ∈ (enter q).visits nested c) : x = ⟨q, c⟩ := by
  rw [enter, visits] at h
  rcases List.mem_cons.mp h with hx | hx
  · exact hx
  · split at hx <;> cases hx

/-- Recognisers that do the same at every visit lead to the same result. -/
theorem run_congr {nested nested' : Recognisers} {m : Plan α} {c : Cursor}
    (h : ∀ x ∈ m.visits nested c,
      nested x.production x.cursor = nested' x.production x.cursor) :
    m.run nested c = m.run nested' c := by
  induction m generalizing c with
  | done a => rfl
  | step p next ih =>
    rw [visits] at h
    rcases hp : p c with ⟨actions, e | ⟨b, c₁⟩⟩
    · exact (bind_apply_of_error hp _).trans (bind_apply_of_error hp _).symm
    · rw [hp] at h
      refine (bind_apply_of_ok hp _).trans (Eq.trans ?_ (bind_apply_of_ok hp _).symm)
      rw [ih b h]
  | visit q next ih =>
    rw [visits] at h
    obtain ⟨hsame, hrest⟩ := List.forall_mem_cons.mp h
    rcases hq : nested q c with ⟨actions, e | ⟨v, c₁⟩⟩
    · exact (bind_apply_of_error hq _).trans (bind_apply_of_error (hsame.symm.trans hq) _).symm
    · rw [hq] at hrest
      refine (bind_apply_of_ok hq _).trans
        (Eq.trans ?_ (bind_apply_of_ok (hsame.symm.trans hq) _).symm)
      rw [ih v hrest]

/-! ## Expressions -/

/-- The arguments of a call up to the closing parenthesis; gives their number. -/
def arguments : Plan Nat := do
  if atSymbol ')' (← look) then
    return 0
  else
    enter .expression
    let more ← count .arguments
    return more + 1

/-- The arguments of a call in parentheses, and the call of the subroutine. -/
def callWith (owner : Option String) (name : String) : Plan Unit := do
  expect '('
  let args ← countArguments
  expect ')'
  report (.call owner name args)

/-- A call: a name, or a name with an owner before a dot, and the arguments. -/
def call : Plan Unit := do
  let first ← identifier
  if ← accept '.' then
    let name ← identifier
    report (.receive first)
    callWith (some first) name
  else
    report .receiveThis
    callWith none first

/-- A term that begins with an identifier. A call is visited with the identifier still there. -/
def named (name : String) (pos : Position) : Plan Unit := do
  let next ← peek
  if atSymbol '(' next || atSymbol '.' next then
    enter .call
  else
    report (.use name pos)
    advance
    if atSymbol '[' next then
      expect '['
      enter .expression
      report (.index name)
      report .loadElement
      expect ']'
    else
      report (.load name)

/-- A term that begins with a symbol. -/
def symbolTerm : Char → Plan Unit
  | '(' => do
    advance
    enter .expression
    expect ')'
  | '-' => do
    advance
    enter .term
    report (.applyUnary .neg)
  | '~' => do
    advance
    enter .term
    report (.applyUnary .not)
  | _ => fail (α := Unit) .term

/-- A term. -/
def term : Plan Unit := do
  let pos ← here
  match ← look with
  | some (.identifier name) => named name pos
  | some (.symbol c) => symbolTerm c
  | some (.integer value) =>
    report (.checkInteger value pos)
    advance
    report (.loadInteger value)
  | some (.string content) =>
    report (.checkString content pos)
    advance
    report (.loadString content)
  | some (.keyword word) => keywordTerm word
  | none => fail .term

/-- An expression. -/
def expression : Plan Unit := do
  enter .term
  enter (.loop .operators)

/-! ## Statements -/

/-- A block of statements in braces. -/
def block : Plan Unit := do
  expect '{'
  enter (.loop .statements)
  closeBlock

/-- The right side of a `let`. -/
def assignment (store : Action) : Plan Unit := do
  expect '='
  enter .expression
  report store
  expect ';'

def letStatement : Plan Unit := do
  advance
  let pos ← here
  let name ← identifier
  report (.use name pos)
  if ← accept '[' then
    enter .expression
    report (.index name)
    expect ']'
    assignment .storeElement
  else
    assignment (.store name)

def ifStatement : Plan Unit := do
  advance
  expect '('
  report .openBranch
  enter .expression
  report .leaveUnless
  expect ')'
  block
  report .turnBack
  if atKeyword .elseKw (← look) then
    advance
    block
  report .markFirst
  report .closeBranch

def whileStatement : Plan Unit := do
  advance
  expect '('
  report .openBranch
  report .markFirst
  enter .expression
  report .leaveUnless
  expect ')'
  block
  report .turnBack
  report .closeBranch

def doStatement : Plan Unit := do
  advance
  enter .call
  report .discard
  expect ';'

def returnStatement : Plan Unit := do
  advance
  if atSymbol ';' (← look) then
    report .loadZero
  else
    enter .expression
  report .giveBack
  expect ';'

/-- A statement, which its first word tells. -/
def statement : Plan Unit := do
  match ← look with
  | some (.keyword .letKw) => enter .letStatement
  | some (.keyword .ifKw) => enter .ifStatement
  | some (.keyword .whileKw) => enter .whileStatement
  | some (.keyword .doKw) => enter .doStatement
  | some (.keyword .returnKw) => enter .returnStatement
  | _ => fail .statement

/-! ## Classes -/

/-- A type and the variables declared with it, up to the semicolon. -/
def declarations (kind : VarKind) : Plan Unit := do
  let type ← type
  declaration kind type
  enter (.loop (.names kind type))
  expect ';'

/-- The variables of one `static` or `field` declaration. -/
def classVariables : Plan Unit := do
  match classVarKind? (← look) with
  | some kind =>
    advance
    declarations kind
  | none => fail .member

/-- The parameters up to the closing parenthesis. -/
def parameters : Plan Unit := do
  if atSymbol ')' (← look) then
    return ()
  else
    parameter
    enter (.loop .parameters)

/-- The variables of one `var` declaration. -/
def localVariables : Plan Unit := do
  advance
  declarations .local

/-- The body of a subroutine: its variables and then its statements. -/
def body : Plan Unit := do
  expect '{'
  enter (.loop .locals)
  report .openBody
  enter (.loop .statements)
  closeBlock

def subroutine : Plan Unit := do
  match subKind? (← look) with
  | some kind =>
    advance
    report (.openSub kind)
    returnType
    let name ← identifier
    report (.nameSub name)
    expect '('
    enter .parameters
    expect ')'
    enter .body
  | none => fail .member

def classDeclaration : Plan Unit := do
  expectKeyword .classKw
  let name ← identifier
  report (.nameClass name)
  expect '{'
  enter (.loop .classVariables)
  enter (.loop .subroutines)
  unless ← accept '}' do fail .member

/-- A class and the end of the input behind it. -/
def program : Plan Unit := do
  enter .classDeclaration
  if (← look).isSome then fail .endOfInput

end Plan

/-! ## Loops -/

namespace Loop

/-- A round of the loop begins here. -/
def test : Loop → Option Token → Bool
  | operators => atOperator
  | arguments | names _ _ | parameters => atSymbol ','
  | locals => atKeyword .varKw
  | classVariables => fun t => (classVarKind? t).isSome
  | subroutines => fun t => (subKind? t).isSome
  | statements => atStatement

open Plan (enter)

/-- A round of the loop, which begins with a token. -/
def plan : Loop → Option Token → Plan Unit
  | operators, t =>
    match BinaryOp.ofToken? t with
    | some op => do
      advance
      enter .term
      report (.applyBinary op)
    | none => return ()
  | arguments, _ => do
    advance
    enter .expression
  | names kind type, _ => do
    advance
    declaration kind type
  | parameters, _ => do
    advance
    parameter
  | locals, _ => enter .localVariables
  | classVariables, _ => enter .classVariables
  | subroutines, _ => enter .subroutine
  | statements, _ => enter .statement

end Loop

/-- The rounds of a loop; gives their number. -/
def Plan.rounds (l : Loop) : Plan Nat := do
  let token ← look
  if l.test token then
    l.plan token
    let more ← count l
    return more + 1
  else
    return 0

/-- The plan of a production. -/
def Production.plan : (p : Production) → Plan p.Value
  | program => Plan.program
  | classDeclaration => Plan.classDeclaration
  | classVariables => Plan.classVariables
  | subroutine => Plan.subroutine
  | parameters => Plan.parameters
  | body => Plan.body
  | localVariables => Plan.localVariables
  | statement => Plan.statement
  | letStatement => Plan.letStatement
  | ifStatement => Plan.ifStatement
  | whileStatement => Plan.whileStatement
  | doStatement => Plan.doStatement
  | returnStatement => Plan.returnStatement
  | expression => Plan.expression
  | term => Plan.term
  | call => Plan.call
  | arguments => Plan.arguments
  | loop l => Plan.rounds l

end Syntax

end JackStack
