import JackStack.Proofs.Grammar.Predictive
import JackStack.Proofs.Grammar.Soundness

/-!
# The grammar stops at the earliest token

Every production predicts the phrases of its trees. So where the grammar refuses a token, what was
read before it begins a class, and what was reported before it are the first actions of that class.
-/

namespace JackStack.Syntax

open JackStack.Parser JackStack.Tree

variable {size limit limit' : Nat} {p q : Parser Unit}

/-! ## Expressions -/

/-- The phrases of terms. -/
abbrev terms : Phrases Unit := .of Term.tokens Term.actions

/-- The phrases of expressions. -/
abbrev expressions : Phrases Unit := .of Expression.tokens Expression.actions

/-- A term that stands for any other one. -/
theorem terms_possible : terms.Possible := ⟨_, _, (), .integer 0, rfl, rfl⟩

/-- In front of an operator, an operation predicts the operator and a term. -/
theorem operation_predicts (h : Predicts size anyToken 0 p q terms) :
    Predicts size (atOperator · = true) 1 (operation p) (operation q)
      (.of (fun x : BinaryOp × Term => .symbol x.1.char :: x.2.tokens)
        (fun x => x.2.actions ++ [.applyBinary x.1])) := by
  unfold operation
  refine predicts_look_bind ⟨_, _, (), (.add, .integer 0), rfl, rfl⟩ ?_
  intro t ht
  obtain ⟨op, hop⟩ := Option.isSome_iff_exists.mp ht
  rw [hop]
  rw [BinaryOp.ofToken?_eq_some_iff] at hop
  subst hop
  refine predicts_advance_bind (Nat.le_succ size) (h.bind (Nat.le_refl size) ?_)
  rintro ts acts _ ⟨x, rfl, rfl⟩
  exact predicts_report ⟨(op, x), by simp, rfl⟩

/-- A chain predicts expressions, if what it calls predicts terms. -/
theorem chain_predicts (h : Predicts size anyToken 0 p q terms) (hlimit : size ≤ limit)
    (hlimit' : size ≤ limit') :
    Predicts size anyToken 0 (chain p limit) (chain q limit') expressions := by
  unfold chain
  refine h.bind (Nat.le_refl size) ?_
  rintro ts acts _ ⟨first, rfl, rfl⟩
  have hrounds := predicts_repeatWhile (operation_predicts h) rfl hlimit hlimit'
  refine hrounds.bind (Nat.le_refl size) ?_
  rintro ts acts _ ⟨rest, rfl, rfl, rfl⟩
  refine predicts_pure ⟨.chain first rest, ?_, ?_⟩
  · rw [Expression.tokens, operationTokens_eq, List.append_nil]
  · rw [Expression.actions, operationActions_eq, List.append_nil]

/-- Arguments are predicted, and their number. -/
theorem arguments_predicts (h : Predicts size anyToken 0 p q expressions) (hlimit : size ≤ limit)
    (hlimit' : size ≤ limit') :
    Predicts size anyToken 0 (arguments p limit) (arguments q limit')
      (fun ts acts n => ∃ args : List Expression,
        ts = argumentTokens args ∧ acts = argumentActions args ∧ n = args.length) := by
  unfold arguments
  refine predicts_look_bind ⟨[], [], 0, [], rfl, rfl, rfl⟩ ?_
  intro t _
  split
  · exact predicts_pure ⟨[], rfl, rfl, rfl⟩
  · refine ((predicts_commaSeparated h hlimit hlimit').imp ?_).restrict
    rintro ts acts n ⟨arg, args, rfl, rfl, rfl⟩
    refine ⟨arg :: args, ?_, ?_, rfl⟩
    · rw [argumentTokens, furtherTokens_eq]
    · rw [argumentActions_eq, List.flatMap_cons]

/-- Behind the name of a call, arguments in parentheses are predicted. -/
theorem callWith_predicts (h : Predicts size anyToken 0 p q expressions) (hlimit : size ≤ limit)
    (hlimit' : size ≤ limit') (owner : Option String) (name : String) :
    Predicts size anyToken 0 (callWith p limit owner name) (callWith q limit' owner name)
      (.of (fun args => .symbol '(' :: argumentTokens args ++ [.symbol ')'])
        (fun args => argumentActions args ++ [.call owner name args.length])) := by
  unfold callWith
  refine predicts_expect_bind ((arguments_predicts h hlimit hlimit').bind (Nat.le_refl size) ?_)
  rintro ts acts _ ⟨args, rfl, rfl, rfl⟩
  exact predicts_expect_bind (predicts_report ⟨args, by simp, rfl⟩)

/-- The phrases of calls behind the first name. -/
theorem callBehind_predicts (h : Predicts size anyToken 0 p q expressions)
    (hlimit : size ≤ limit) (hlimit' : size ≤ limit') (first : String) :
    Predicts size anyToken 0
      (do
        if ← accept '.' then
          let name ← identifier
          report (.receive first)
          callWith p limit (some first) name
        else
          report .receiveThis
          callWith p limit none first)
      (do
        if ← accept '.' then
          let name ← identifier
          report (.receive first)
          callWith q limit' (some first) name
        else
          report .receiveThis
          callWith q limit' none first)
      ((Phrases.of Call.tokens Call.actions).behind [.identifier first] []) := by
  refine predicts_accept_bind ?_ ?_
  · refine predicts_identifier_bind fun name => predicts_report_bind ?_
    refine (callWith_predicts h hlimit hlimit' (some first) name).imp ?_
    rintro ts acts _ ⟨args, rfl, rfl⟩
    exact ⟨.mk (some first) name args, rfl, rfl⟩
  · refine predicts_report_bind ?_
    refine ((callWith_predicts h hlimit hlimit' none first).imp ?_).restrict
    rintro ts acts _ ⟨args, rfl, rfl⟩
    exact ⟨.mk none first args, rfl, rfl⟩

/-- Calls are predicted, with or without a dot. -/
theorem call_predicts (h : Predicts size anyToken 0 p q expressions) (hlimit : size ≤ limit)
    (hlimit' : size ≤ limit') :
    Predicts size anyToken 0 (call p limit) (call q limit') (.of Call.tokens Call.actions) :=
  predicts_identifier_bind fun first => callBehind_predicts h hlimit hlimit' first

/-- The token behind the name decides, and the name itself is taken in any case. -/
theorem named_predicts (h : Predicts size anyToken 0 p q expressions) (hlimit : size ≤ limit)
    (hlimit' : size ≤ limit') (name : String) (pos : Position) :
    Predicts (size + 1) (· = some (.identifier name)) 1 (named p limit name pos)
      (named q limit' name pos) terms := by
  unfold named
  refine predicts_peek_bind fun next => ?_
  split
  · refine (predicts_named_bind (Nat.le_refl _) (callBehind_predicts h hlimit hlimit' name)).imp ?_
    rintro ts acts _ ⟨target, rfl, rfl⟩
    exact ⟨.call target, rfl, rfl⟩
  · refine predicts_report_bind (predicts_advance_bind (Nat.le_refl _) ?_)
    split
    · refine predicts_expect_bind (h.bind (Nat.le_refl size) ?_)
      rintro ts acts _ ⟨index, rfl, rfl⟩
      refine predicts_report_bind (predicts_report_bind (predicts_expect ?_))
      exact ⟨.element name index, by simp [Term.tokens], by simp [Term.actions]; rfl⟩
    · exact predicts_report ⟨.var name, rfl, rfl⟩

/-- A token that is a term by itself. -/
theorem single_predicts {t : Token} {x : Action} (y : Term) (htokens : y.tokens = [t])
    (hactions : y.actions = Action.unplaced [x]) :
    Predicts size (· = some t) 0 (do advance; report x) (do advance; report x) terms :=
  (predicts_advance_bind (Nat.le_succ size)
    (predicts_report ⟨y, htokens.symm, hactions.symm⟩)).lax

/-- A reserved word is refused unless it is one of the four constants. -/
theorem keywordTerm_predicts (word : Keyword) :
    Predicts size (· = some (.keyword word)) 0 (keywordTerm word) (keywordTerm word) terms := by
  unfold keywordTerm
  split
  · exact single_predicts (.constant .yes) rfl rfl
  · exact single_predicts (.constant .no) rfl rfl
  · exact single_predicts (.constant .null) rfl rfl
  · exact single_predicts (.constant .this) rfl rfl
  · exact predicts_fail terms_possible

/-- A unary operator and its term. -/
theorem unary_predicts (h : Predicts size anyToken 0 p q terms) (op : UnaryOp) :
    Predicts (size + 1) (· = some (.symbol op.char)) 0 (do advance; p; report (.applyUnary op))
      (do advance; q; report (.applyUnary op)) terms := by
  refine (predicts_advance_bind (Nat.le_refl _) (h.bind (Nat.le_refl size) ?_)).lax
  rintro ts acts _ ⟨x, rfl, rfl⟩
  exact predicts_report ⟨.unary op x, by simp [Term.tokens], rfl⟩

/-- A symbol is refused unless a term begins with it. -/
theorem symbolTerm_predicts (h : Predicts size anyToken 0 p q terms) (hlimit : size ≤ limit)
    (hlimit' : size ≤ limit') (c : Char) :
    Predicts (size + 1) (· = some (.symbol c)) 0 (symbolTerm p limit c) (symbolTerm q limit' c)
      terms := by
  unfold symbolTerm
  split
  · refine (predicts_advance_bind (Nat.le_refl _)
      ((chain_predicts h hlimit hlimit').bind (Nat.le_refl size) ?_)).lax
    rintro ts acts _ ⟨inner, rfl, rfl⟩
    exact predicts_expect ⟨.group inner, by simp [Term.tokens], by simp [Term.actions]⟩
  · exact unary_predicts h .neg
  · exact unary_predicts h .not
  · exact predicts_fail terms_possible

/-- If terms are predicted in front of fewer lexemes, they are in front of one more. -/
theorem termWith_predicts (h : Predicts size anyToken 0 p q terms) (hlimit : size ≤ limit)
    (hlimit' : size ≤ limit') :
    Predicts (size + 1) anyToken 0 (termWith p limit) (termWith q limit') terms := by
  unfold termWith
  refine predicts_here_bind fun pos => predicts_look_bind terms_possible ?_
  intro t _
  split
  · next name _ =>
    exact (named_predicts (chain_predicts h hlimit hlimit') hlimit hlimit' name pos).lax
  · next c _ => exact symbolTerm_predicts h hlimit hlimit' c
  · next value _ =>
    refine predicts_report_bind (predicts_advance_bind (Nat.le_succ _) ?_).lax
    exact predicts_report ⟨.integer value, rfl, rfl⟩
  · next content _ =>
    refine predicts_report_bind (predicts_advance_bind (Nat.le_succ _) ?_).lax
    exact predicts_report ⟨.string content, rfl, rfl⟩
  · next word _ => exact keywordTerm_predicts word
  · exact predicts_fail terms_possible

/-- At the end of the input there is no term, whatever the limit. -/
theorem term_of_none {c : Cursor} (h : c.token = none) (limit : Nat) :
    term limit c = fail .term c := by
  cases limit with
  | zero => rfl
  | succ limit =>
    rw [term, termWith, here_bind_apply, look_bind_apply, h]

/-- Terms are predicted where the limits are not below the number of lexemes. -/
theorem term_predicts {size limit limit' : Nat} (hlimit : size ≤ limit) (hlimit' : size ≤ limit') :
    Predicts size anyToken 0 (term limit) (term limit') terms := by
  induction size generalizing limit limit' with
  | zero =>
    have hfail : Predicts 0 (· = none) 0 (fail .term) (fail .term) terms :=
      predicts_fail terms_possible
    refine (hfail.congr ?_ ?_).of_none
    · exact fun c hc => term_of_none hc limit
    · exact fun d hd => term_of_none hd limit'
  | succ size ih =>
    obtain ⟨limit, rfl⟩ : ∃ k, limit = k + 1 := ⟨limit - 1, by omega⟩
    obtain ⟨limit', rfl⟩ : ∃ k, limit' = k + 1 := ⟨limit' - 1, by omega⟩
    have hinner := ih (Nat.le_of_succ_le_succ hlimit) (Nat.le_of_succ_le_succ hlimit')
    exact termWith_predicts hinner (Nat.le_of_succ_le_succ hlimit) (Nat.le_of_succ_le_succ hlimit')

/-- Expressions are predicted where the limits are not below the number of lexemes. -/
theorem expression_predicts (hlimit : size ≤ limit) (hlimit' : size ≤ limit') :
    Predicts size anyToken 0 (expression limit) (expression limit') expressions :=
  chain_predicts (term_predicts hlimit hlimit') hlimit hlimit'

/-! ## Statements -/

/-- The phrases of statements. -/
abbrev statements : Phrases Unit := .of Statement.tokens Statement.actions

/-- The phrases of blocks. -/
abbrev blocks : Phrases Unit :=
  .of (fun b : List Statement => .symbol '{' :: blockTokens b ++ [.symbol '}']) blockActions

/-- A closing brace has to stand here, where something else could stand as well. -/
theorem closing_predicts {expected : Expectation} {L : Phrases Unit} (h : L [.symbol '}'] [] ()) :
    Predicts size anyToken 0 (do unless ← accept '}' do fail expected)
      (do unless ← accept '}' do fail expected) L := by
  refine predicts_accept_bind ?_ ?_
  · exact predicts_pure h
  · exact predicts_fail ⟨_, _, (), h⟩

/-- Blocks are predicted, if the statements in them are. -/
theorem block_predicts (h : Predicts size (atStatement · = true) 1 p q statements)
    (hlimit : size ≤ limit) (hlimit' : size ≤ limit') :
    Predicts size anyToken 0 (block p limit) (block q limit') blocks := by
  unfold block
  have hrounds := predicts_repeatWhile h rfl hlimit hlimit'
  refine predicts_expect_bind (hrounds.bind (Nat.le_refl size) ?_)
  rintro ts acts _ ⟨b, rfl, rfl, rfl⟩
  exact closing_predicts ⟨b, by simp [blockTokens_eq], by simp [blockActions_eq]⟩

/-- The right side of an assignment is predicted. -/
theorem assignment_predicts (hlimit : size ≤ limit) (hlimit' : size ≤ limit') (store : Action) :
    Predicts size anyToken 0 (assignment limit store) (assignment limit' store)
      (.of (fun value : Expression => .symbol '=' :: value.tokens ++ [.symbol ';'])
        (fun value => value.actions ++ Action.unplaced [store])) := by
  unfold assignment
  have hvalue := expression_predicts hlimit hlimit'
  refine predicts_expect_bind (hvalue.bind (Nat.le_refl size) ?_)
  rintro ts acts _ ⟨value, rfl, rfl⟩
  exact predicts_report_bind (predicts_expect ⟨value, by simp, by simp⟩)

/-- Behind the word `let` assignments are predicted. -/
theorem letStatement_predicts (hlimit : size ≤ limit) (hlimit' : size ≤ limit') :
    Predicts (size + 1) (· = some (.keyword .letKw)) 1 (letStatement limit) (letStatement limit')
      statements := by
  unfold letStatement
  refine predicts_advance_bind (Nat.le_refl _) (predicts_here_bind fun pos => ?_)
  refine predicts_identifier_bind fun name => predicts_report_bind (predicts_accept_bind ?_ ?_)
  · refine (expression_predicts hlimit hlimit').bind (Nat.le_refl size) ?_
    rintro ts acts _ ⟨index, rfl, rfl⟩
    refine predicts_report_bind (predicts_expect_bind ?_)
    refine (assignment_predicts hlimit hlimit' .storeElement).imp ?_
    rintro ts acts _ ⟨value, rfl, rfl⟩
    exact ⟨.assignElement name index value, by simp [Statement.tokens],
      by simp [Statement.actions]; rfl⟩
  · refine ((assignment_predicts hlimit hlimit' (.store name)).imp ?_).restrict
    rintro ts acts _ ⟨value, rfl, rfl⟩
    exact ⟨.assign name value, by simp [Statement.tokens], rfl⟩

/-- Behind the word `if` branching statements are predicted, with one branch or two. -/
theorem ifStatement_predicts (h : Predicts size (atStatement · = true) 1 p q statements)
    (hlimit : size ≤ limit) (hlimit' : size ≤ limit') :
    Predicts (size + 1) (· = some (.keyword .ifKw)) 1 (ifStatement p limit) (ifStatement q limit')
      statements := by
  have hblock := block_predicts h hlimit hlimit'
  unfold ifStatement
  refine predicts_advance_bind (Nat.le_refl _) (predicts_expect_bind (predicts_report_bind ?_))
  refine (expression_predicts hlimit hlimit').bind (Nat.le_refl size) ?_
  rintro ts acts _ ⟨condition, rfl, rfl⟩
  refine predicts_report_bind (predicts_expect_bind (hblock.bind (Nat.le_refl size) ?_))
  rintro ts acts _ ⟨block, rfl, rfl⟩
  refine predicts_report_bind (predicts_look_bind ?_ ?_)
  · exact ⟨[], _, (), .ifThen condition block, by simp [Statement.tokens],
      by simp [Statement.actions]; rfl⟩
  intro t _
  split
  · next helse =>
    obtain rfl : t = some (.keyword .elseKw) := of_decide_eq_true helse
    refine (predicts_advance_bind (Nat.le_succ size) (hblock.bind (Nat.le_refl size) ?_)).lax
    rintro ts acts _ ⟨other, rfl, rfl⟩
    refine predicts_report_bind (predicts_report ⟨.ifElse condition block other, ?_, ?_⟩)
    · simp [Statement.tokens]
    · simp [Statement.actions]
      rfl
  · refine predicts_report_bind (predicts_report ⟨.ifThen condition block, ?_, ?_⟩)
    · simp [Statement.tokens]
    · simp [Statement.actions]
      rfl

/-- Behind the word `while` loops are predicted. -/
theorem whileStatement_predicts (h : Predicts size (atStatement · = true) 1 p q statements)
    (hlimit : size ≤ limit) (hlimit' : size ≤ limit') :
    Predicts (size + 1) (· = some (.keyword .whileKw)) 1 (whileStatement p limit)
      (whileStatement q limit') statements := by
  unfold whileStatement
  refine predicts_advance_bind (Nat.le_refl _) (predicts_expect_bind ?_)
  refine predicts_report_bind (predicts_report_bind ?_)
  refine (expression_predicts hlimit hlimit').bind (Nat.le_refl size) ?_
  rintro ts acts _ ⟨condition, rfl, rfl⟩
  refine predicts_report_bind (predicts_expect_bind ?_)
  refine (block_predicts h hlimit hlimit').bind (Nat.le_refl size) ?_
  rintro ts acts _ ⟨block, rfl, rfl⟩
  refine predicts_report_bind (predicts_report ⟨.whileLoop condition block, ?_, ?_⟩)
  · simp [Statement.tokens]
  · simp [Statement.actions]
    rfl

/-- Behind the word `do` calls are predicted. -/
theorem doStatement_predicts (hlimit : size ≤ limit) (hlimit' : size ≤ limit') :
    Predicts (size + 1) (· = some (.keyword .doKw)) 1 (doStatement limit) (doStatement limit')
      statements := by
  unfold doStatement
  refine predicts_advance_bind (Nat.le_refl _) ?_
  refine (call_predicts (expression_predicts hlimit hlimit') hlimit hlimit').bind
    (Nat.le_refl size) ?_
  rintro ts acts _ ⟨target, rfl, rfl⟩
  refine predicts_report_bind (predicts_expect ⟨.perform target, ?_, ?_⟩)
  · simp [Statement.tokens]
  · simp [Statement.actions]
    rfl

/-- Behind the word `return` a semicolon or a value is predicted. -/
theorem returnStatement_predicts (hlimit : size ≤ limit) (hlimit' : size ≤ limit') :
    Predicts (size + 1) (· = some (.keyword .returnKw)) 1 (returnStatement limit)
      (returnStatement limit') statements := by
  unfold returnStatement
  refine predicts_advance_bind (Nat.le_refl _) (predicts_look_bind ?_ ?_)
  · exact ⟨[.symbol ';'], _, (), .giveBack none, rfl, rfl⟩
  intro t _
  split
  · refine predicts_report_bind (predicts_report_bind (predicts_expect ?_)).restrict
    exact ⟨.giveBack none, rfl, rfl⟩
  · refine ((expression_predicts hlimit hlimit').bind (Nat.le_refl size) ?_).restrict
    rintro ts acts _ ⟨value, rfl, rfl⟩
    refine predicts_report_bind (predicts_expect ⟨.giveBack (some value), ?_, ?_⟩)
    · simp [Statement.tokens]
    · simp [Statement.actions]
      rfl

/-- Statements are predicted where the limits are not below the number of lexemes. -/
theorem statement_predicts {size limit limit' : Nat} (hlimit : size ≤ limit)
    (hlimit' : size ≤ limit') :
    Predicts size (atStatement · = true) 1 (statement limit) (statement limit') statements := by
  have hpossible : statements.Possible := ⟨_, _, (), .giveBack none, rfl, rfl⟩
  induction size generalizing limit limit' with
  | zero =>
    refine ⟨hpossible, ?_⟩
    intro c hc hlength hstart
    have hnil : c.lexemes = [] := List.eq_nil_of_length_eq_zero (Nat.le_zero.mp hlength)
    rw [Cursor.token, hc.settled.current_eq, hnil] at hstart
    cases hstart
  | succ size ih =>
    obtain ⟨limit, rfl⟩ : ∃ k, limit = k + 1 := ⟨limit - 1, by omega⟩
    obtain ⟨limit', rfl⟩ : ∃ k, limit' = k + 1 := ⟨limit' - 1, by omega⟩
    have hl := Nat.le_of_succ_le_succ hlimit
    have hl' := Nat.le_of_succ_le_succ hlimit'
    rw [statement, statement]
    refine predicts_look_bind hpossible ?_
    intro t ht
    split
    · exact letStatement_predicts hl hl'
    · exact ifStatement_predicts (ih hl hl') hl hl'
    · exact whileStatement_predicts (ih hl hl') hl hl'
    · exact doStatement_predicts hl hl'
    · exact returnStatement_predicts hl hl'
    · next hlet hif hwhile hdo hreturn =>
      simp only [atStatement, atKeyword, Bool.or_eq_true, decide_eq_true_eq] at ht
      tauto

/-! ## Classes -/

/-- A token is refused where a type has to stand unless it is one. -/
theorem type_bind_predicts {β : Type} {M : Phrases β} {f g : String → Parser β}
    (h : ∀ type : TypeName,
      Predicts size anyToken 0 (f type.text) (g type.text) (M.behind [type.token] [])) :
    Predicts size anyToken 0 (type >>= f) (type >>= g) M := by
  have hfail : ∀ k : String → Parser β, (fail .type >>= k) = fail .type := fun _ => rfl
  have hpossible := (h .int).possible.of_behind
  simp only [Syntax.type, bind_assoc]
  refine predicts_look_bind hpossible ?_
  intro t _
  split
  · next name hname =>
    obtain ⟨type, rfl, rfl⟩ := typeName?_eq_some_iff.mp hname
    simp only [bind_assoc, pure_bind]
    exact (predicts_advance_bind (Nat.le_succ size) (h type)).lax
  · rw [hfail]
    exact predicts_fail hpossible

/-- A token is refused in front of the name of a subroutine unless it is `void` or a type. -/
theorem returnType_bind_predicts {β : Type} {M : Phrases β} {f g : Unit → Parser β}
    (h : ∀ returns : Option TypeName,
      Predicts size anyToken 0 (f ()) (g ()) (M.behind [returnToken returns] [])) :
    Predicts size anyToken 0 (returnType >>= f) (returnType >>= g) M := by
  have hfail : ∀ k : Unit → Parser β, (fail .returnType >>= k) = fail .returnType := fun _ => rfl
  have hpossible := (h none).possible.of_behind
  simp only [returnType, bind_assoc]
  refine predicts_look_bind hpossible ?_
  intro t _
  split
  · next ht =>
    obtain ⟨returns, rfl⟩ : ∃ returns, t = some (returnToken returns) := by
      rcases Bool.or_eq_true_iff.mp ht with hvoid | htype
      · exact ⟨none, of_decide_eq_true hvoid⟩
      · obtain ⟨name, hname⟩ := Option.isSome_iff_exists.mp htype
        obtain ⟨type, htoken, -⟩ := typeName?_eq_some_iff.mp hname
        exact ⟨some type, htoken⟩
    exact (predicts_advance_bind (Nat.le_succ size) (h returns)).lax
  · rw [hfail]
    exact predicts_fail hpossible

/-- A token is refused where a variable is declared unless it is a name. -/
theorem declaration_predicts (kind : VarKind) (type : String) :
    Predicts size anyToken 0 (declaration kind type) (declaration kind type)
      (.of (fun name => [.identifier name]) (fun name => [.declare kind type name .start])) := by
  unfold declaration
  refine predicts_here_bind fun pos => predicts_identifier_bind fun name => ?_
  exact predicts_report ⟨name, rfl, rfl⟩

/-- Groups of variables are predicted: a type, names with commas between them, and a semicolon. -/
theorem declarations_predicts (kind : VarKind) (hlimit : size ≤ limit) (hlimit' : size ≤ limit') :
    Predicts size anyToken 0 (declarations kind limit) (declarations kind limit')
      (.of Group.tokens (Group.actions kind)) := by
  unfold declarations
  refine type_bind_predicts fun type => ?_
  refine (predicts_commaSeparated (declaration_predicts kind type.text) hlimit hlimit').bind
    (Nat.le_refl size) ?_
  rintro ts acts _ ⟨first, others, rfl, rfl, rfl⟩
  refine predicts_expect ⟨⟨type, first, others⟩, ?_, ?_⟩
  · simp [Group.tokens, nameTokens]
  · simp [Group.actions, List.map_eq_flatMap]

/-- Behind `static` or `field` groups of variables are predicted. -/
theorem classVariables_predicts (hlimit : size ≤ limit) (hlimit' : size ≤ limit') :
    Predicts size (fun t => (classVarKind? t).isSome = true) 1 (classVariables limit)
      (classVariables limit') (.of ClassGroup.tokens ClassGroup.actions) := by
  unfold classVariables
  refine predicts_look_bind ⟨_, _, (), ⟨.static, .int, "", []⟩, rfl, rfl⟩ ?_
  intro t ht
  obtain ⟨kind, hkind⟩ := Option.isSome_iff_exists.mp ht
  rw [hkind]
  obtain ⟨sharing, rfl, rfl⟩ := classVarKind?_eq_some_iff.mp hkind
  refine predicts_advance_bind (Nat.le_succ size) ?_
  refine (declarations_predicts sharing.varKind hlimit hlimit').imp ?_
  rintro ts acts _ ⟨group, rfl, rfl⟩
  exact ⟨⟨sharing, group⟩, rfl, rfl⟩

/-- A type and then a name are predicted as a parameter. -/
theorem parameter_predicts :
    Predicts size anyToken 0 parameter parameter (.of Parameter.tokens Parameter.actions) := by
  unfold parameter
  refine type_bind_predicts fun type => ?_
  refine (declaration_predicts .argument type.text).imp ?_
  rintro ts acts _ ⟨name, rfl, rfl⟩
  exact ⟨⟨type, name⟩, rfl, rfl⟩

/-- Lists of parameters are predicted up to the closing parenthesis. -/
theorem parameters_predicts (hlimit : size ≤ limit) (hlimit' : size ≤ limit') :
    Predicts size anyToken 0 (parameters limit) (parameters limit')
      (.of parameterTokens (fun ps => ps.flatMap Parameter.actions)) := by
  unfold parameters
  refine predicts_look_bind ⟨[], [], (), [], rfl, rfl⟩ ?_
  intro t _
  split
  · exact predicts_pure ⟨[], rfl, rfl⟩
  · have hitems := predicts_commaSeparated parameter_predicts hlimit hlimit'
    refine (hitems.bind (Nat.le_refl size) ?_).restrict
    rintro ts acts _ ⟨first, others, rfl, rfl, rfl⟩
    refine predicts_pure ⟨first :: others, ?_, ?_⟩
    · rw [List.append_nil, parameterTokens]
    · simp

/-- Groups of local variables are predicted behind the word `var`. -/
theorem localVariables_predicts (hlimit : size ≤ limit) (hlimit' : size ≤ limit') :
    Predicts size (atKeyword .varKw · = true) 1 (localVariables limit) (localVariables limit')
      (.of (fun g : Group => .keyword .varKw :: g.tokens) (Group.actions .local)) := by
  unfold localVariables
  have hgroup : Predicts size anyToken 0 (declarations .local limit) (declarations .local limit')
      ((Phrases.of (fun g : Group => .keyword .varKw :: g.tokens) (Group.actions .local)).behind
        [.keyword .varKw] []) := by
    refine (declarations_predicts .local hlimit hlimit').imp ?_
    rintro ts acts _ ⟨group, rfl, rfl⟩
    exact ⟨group, rfl, rfl⟩
  refine (predicts_advance_bind (Nat.le_succ size) hgroup).weaken (Nat.le_refl _) ?_ (Nat.le_refl 1)
  intro t ht
  exact of_decide_eq_true ht

/-- Bodies are predicted: variables first and then statements. -/
theorem body_predicts (hlimit : size ≤ limit) (hlimit' : size ≤ limit') :
    Predicts size anyToken 0 (body limit) (body limit')
      (.of (fun x : List Group × List Statement =>
          .symbol '{' :: localTokens x.1 ++ blockTokens x.2 ++ [.symbol '}'])
        (fun x => x.1.flatMap (Group.actions .local) ++ .openBody :: blockActions x.2)) := by
  unfold body
  have hlocals := predicts_repeatWhile (localVariables_predicts hlimit hlimit') rfl hlimit hlimit'
  have hrounds := predicts_repeatWhile (statement_predicts hlimit hlimit') rfl hlimit hlimit'
  refine predicts_expect_bind (hlocals.bind (Nat.le_refl size) ?_)
  rintro ts acts _ ⟨locals, rfl, rfl, rfl⟩
  refine predicts_report_bind (hrounds.bind (Nat.le_refl size) ?_)
  rintro ts acts _ ⟨block, rfl, rfl, rfl⟩
  refine closing_predicts ⟨(locals, block), ?_, ?_⟩
  · simp [localTokens, blockTokens_eq]
  · simp [blockActions_eq]
    rfl

/-- Behind the word of a subroutine its type, name, parameters and body are predicted. -/
theorem subroutine_predicts (hlimit : size ≤ limit) (hlimit' : size ≤ limit') :
    Predicts size (fun t => (subKind? t).isSome = true) 1 (subroutine limit) (subroutine limit')
      (.of Subroutine.tokens Subroutine.actions) := by
  unfold subroutine
  refine predicts_look_bind ⟨_, _, (), ⟨.function, none, "", [], [], []⟩, rfl, rfl⟩ ?_
  intro t ht
  obtain ⟨kind, hkind⟩ := Option.isSome_iff_exists.mp ht
  rw [hkind]
  obtain rfl := subKind?_eq_some_iff.mp hkind
  refine predicts_advance_bind (Nat.le_succ size) (predicts_report_bind ?_)
  refine returnType_bind_predicts fun returns => predicts_identifier_bind fun name => ?_
  refine predicts_report_bind (predicts_expect_bind ?_)
  refine (parameters_predicts hlimit hlimit').bind (Nat.le_refl size) ?_
  rintro ts acts _ ⟨parameters, rfl, rfl⟩
  refine predicts_expect_bind ((body_predicts hlimit hlimit').imp ?_)
  rintro ts acts _ ⟨⟨locals, block⟩, rfl, rfl⟩
  refine ⟨⟨kind, returns, name, parameters, locals, block⟩, ?_, ?_⟩
  · simp [Subroutine.tokens]
  · simp [Subroutine.actions]
    rfl

/-- The phrases of classes. -/
abbrev classes : Phrases Unit := .of Class.tokens Class.actions

/-- Classes are predicted: variables first and then subroutines. -/
theorem classDeclaration_predicts (hlimit : size ≤ limit) (hlimit' : size ≤ limit') :
    Predicts size anyToken 0 (classDeclaration limit) (classDeclaration limit') classes := by
  unfold classDeclaration
  have hgroups := predicts_repeatWhile (classVariables_predicts hlimit hlimit') rfl hlimit hlimit'
  have hsubs := predicts_repeatWhile (subroutine_predicts hlimit hlimit') rfl hlimit hlimit'
  refine predicts_expectKeyword_bind (predicts_identifier_bind fun name => ?_)
  refine predicts_report_bind (predicts_expect_bind (hgroups.bind (Nat.le_refl size) ?_))
  rintro ts acts _ ⟨groups, rfl, rfl, rfl⟩
  refine hsubs.bind (Nat.le_refl size) ?_
  rintro ts acts _ ⟨subs, rfl, rfl, rfl⟩
  refine closing_predicts ⟨⟨name, groups, subs⟩, ?_, ?_⟩
  · simp [Class.tokens]
  · simp [Class.actions]
    rfl

/-- The grammar predicts classes. -/
theorem program_predicts (hlimit : size ≤ limit) (hlimit' : size ≤ limit') :
    Predicts size anyToken 0 (program limit) (program limit') classes := by
  unfold program
  refine (classDeclaration_predicts hlimit hlimit').bind (Nat.le_refl size) ?_
  rintro ts acts _ ⟨c, rfl, rfl⟩
  have hc : (classes.behind c.tokens c.actions) [] [] () := ⟨c, by simp, by simp⟩
  refine predicts_look_bind ⟨[], [], (), hc⟩ ?_
  intro t _
  split
  · exact predicts_fail ⟨[], [], (), hc⟩
  · exact predicts_pure hc

end JackStack.Syntax
