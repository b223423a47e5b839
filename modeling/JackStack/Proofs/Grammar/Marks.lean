import JackStack.Proofs.Grammar.Recognition
import JackStack.Proofs.Grammar.Tracing

/-!
# Every production follows the scripts of its trees

So every action of a source that names a place looks at a token of the source, and up to that
token the source is the beginning of a class. What the token stands for there is what the action
takes it for.
-/

namespace JackStack.Syntax

open JackStack.Parser JackStack.Tree

variable {start : List Lexeme → Prop} {p : Parser Unit}

/-! ## Expressions -/

/-- The scripts of terms. -/
abbrev termScripts : Scripts Unit := .of Term.script

/-- The scripts of expressions. -/
abbrev expressionScripts : Scripts Unit := .of Expression.script

theorem termScripts_possible : termScripts.Possible := ⟨_, (), .integer 0, rfl⟩

/-- An operation follows the scripts of an operator and a term. -/
theorem operation_follows (h : Follows anyLexemes p termScripts) :
    Follows (atToken (atOperator · = true)) (operation p)
      (.of fun x : BinaryOp × Term =>
        .token (.symbol x.1.char) :: x.2.script ++ [.report (.applyBinary x.1)]) := by
  unfold operation
  refine follows_test_bind ⟨_, (), (.add, .integer 0), rfl⟩ ?_
  intro t ht
  obtain ⟨op, hop⟩ := Option.isSome_iff_exists.mp ht
  rw [hop]
  rw [BinaryOp.ofToken?_eq_some_iff] at hop
  subst hop
  refine follows_advance_bind (h.bind ?_)
  rintro s _ ⟨x, rfl⟩
  exact follows_report ⟨rfl, rfl⟩ ⟨(op, x), rfl⟩

/-- A chain follows the scripts of expressions, if what it calls follows those of terms. -/
theorem chain_follows (h : Follows anyLexemes p termScripts) (limit : Nat) :
    Follows start (chain p limit) expressionScripts := by
  unfold chain
  refine Follows.bind h.restrict ?_
  rintro s _ ⟨first, rfl⟩
  refine Follows.bind (follows_repeatWhile (operation_follows h) limit) ?_
  rintro s _ ⟨rest, rfl, rfl⟩
  refine follows_pure ⟨.chain first rest, ?_⟩
  rw [Expression.script, operationScript_eq, List.append_nil]

/-- Arguments follow their scripts, and their number is given. -/
theorem arguments_follows (h : Follows anyLexemes p expressionScripts) (limit : Nat) :
    Follows start (arguments p limit)
      (fun s n => ∃ args : List Expression, s = argumentScript args ∧ n = args.length) := by
  unfold arguments
  refine follows_look_bind ⟨[], 0, [], rfl, rfl⟩ fun t => ?_
  split
  · exact follows_pure ⟨[], rfl, rfl⟩
  · refine (follows_commaSeparated h limit).imp ?_
    rintro s n ⟨arg, args, rfl, rfl⟩
    refine ⟨arg :: args, ?_, rfl⟩
    rw [argumentScript, furtherScript_eq]

/-- What stands behind the name of a call follows the script of arguments in parentheses. -/
theorem callWith_follows (h : Follows anyLexemes p expressionScripts) (limit : Nat)
    (owner : Option String) (name : String) :
    Follows start (callWith p limit owner name)
      (.of fun args => .token (.symbol '(') :: argumentScript args ++
        [.token (.symbol ')'), .report (.call owner name args.length)]) := by
  unfold callWith
  refine follows_expect_bind ((arguments_follows h limit).bind ?_)
  rintro s _ ⟨args, rfl, rfl⟩
  exact follows_expect_bind (follows_report ⟨rfl, rfl⟩ ⟨args, by simp⟩)

/-- A call follows the scripts of calls. -/
theorem call_follows (h : Follows anyLexemes p expressionScripts) (limit : Nat) :
    Follows start (call p limit) (.of Call.script) := by
  unfold call
  refine follows_identifier_bind fun first => follows_accept_bind ?_ ?_
  · refine follows_identifier_bind fun name => follows_report_bind ⟨rfl, rfl⟩ ?_
    refine (callWith_follows h limit (some first) name).imp ?_
    rintro s _ ⟨args, rfl⟩
    exact ⟨.mk (some first) name args, by simp [Call.script]⟩
  · refine follows_report_bind ⟨rfl, rfl⟩ ?_
    refine (callWith_follows h limit none first).imp ?_
    rintro s _ ⟨args, rfl⟩
    exact ⟨.mk none first args, by simp [Call.script]⟩

/-- The token behind the name decides whether the name is a variable. -/
theorem named_follows (h : Follows anyLexemes p expressionScripts) (limit : Nat) (name : String)
    (pos : Position) :
    Follows (fun ls => ∃ rest, ls = ⟨.identifier name, pos⟩ :: rest) (named p limit name pos)
      termScripts := by
  unfold named
  refine follows_peek_bind ?_ fun next => ?_
  · rintro ls ⟨rest, rfl⟩ lx ⟨⟩
    exact ⟨name, rfl⟩
  split
  · refine (call_follows h limit).imp ?_
    rintro s _ ⟨target, rfl⟩
    exact ⟨.call target, rfl⟩
  · next hnext =>
    refine follows_marked_bind (m := .operand name) rfl rfl ?_ nofun ?_
    · rintro ls ⟨⟨rest, rfl⟩, hsecond⟩
      refine ⟨_, rest, rfl, rfl, rfl, ?_⟩
      rintro _ - lx hlx
      rw [List.tail_cons, Option.mem_def.mp hlx] at hsecond
      simp only [Option.map_some] at hsecond
      subst hsecond
      simpa [atSymbol] using hnext
    · split
      · refine follows_expect_bind (h.bind ?_)
        rintro s _ ⟨index, rfl⟩
        refine follows_report_bind ⟨rfl, rfl⟩ (follows_report_bind ⟨rfl, rfl⟩ (follows_expect ?_))
        exact ⟨.element name index, by simp [Term.script]⟩
      · exact follows_report ⟨rfl, rfl⟩ ⟨.var name, rfl⟩

/-- A token that is a term by itself. -/
theorem single_follows {t : Token} {x : Action} (y : Term) (hx : x.Placeless)
    (hscript : y.script = [.token t, .report x]) :
    Follows (atToken (· = some t)) (do advance; report x) termScripts :=
  follows_advance_bind (follows_report hx ⟨y, hscript.symm⟩)

/-- A constant follows the scripts of terms. -/
theorem keywordTerm_follows (word : Keyword) :
    Follows (atToken (· = some (.keyword word))) (keywordTerm word) termScripts := by
  unfold keywordTerm
  split
  · exact single_follows (.constant .yes) ⟨rfl, rfl⟩ rfl
  · exact single_follows (.constant .no) ⟨rfl, rfl⟩ rfl
  · exact single_follows (.constant .null) ⟨rfl, rfl⟩ rfl
  · exact single_follows (.constant .this) ⟨rfl, rfl⟩ rfl
  · exact follows_fail termScripts_possible

/-- A unary operator and its term. -/
theorem unary_follows (h : Follows anyLexemes p termScripts) (op : UnaryOp) :
    Follows (atToken (· = some (.symbol op.char))) (do advance; p; report (.applyUnary op))
      termScripts := by
  refine follows_advance_bind (h.bind ?_)
  rintro s _ ⟨x, rfl⟩
  exact follows_report ⟨rfl, rfl⟩ ⟨.unary op x, by simp [Term.script]⟩

/-- A term that begins with a symbol follows the scripts of terms. -/
theorem symbolTerm_follows (h : Follows anyLexemes p termScripts) (limit : Nat) (c : Char) :
    Follows (atToken (· = some (.symbol c))) (symbolTerm p limit c) termScripts := by
  unfold symbolTerm
  split
  · refine follows_advance_bind ((chain_follows h limit).bind ?_)
    rintro s _ ⟨inner, rfl⟩
    exact follows_expect ⟨.group inner, by simp [Term.script]⟩
  · exact unary_follows h .neg
  · exact unary_follows h .not
  · exact follows_fail termScripts_possible

/-- A constant is looked at, consumed and loaded. -/
theorem constant_follows {m : Mark} {x y : Action} (t : Term) {pos : Position}
    (hlooks : x.withPos .start = m.action) (hscan : x.isScan = false) (hplace : x.pos? = some pos)
    (hallows : ∀ rest, m.Allows rest) (hsequel : m.sequel = some y) (hy : y.Placeless)
    (hscript : t.script = [.marked m, .report y]) :
    Follows (fun ls => ∃ rest, ls = ⟨m.token, pos⟩ :: rest)
      (do report x; advance; report y) termScripts := by
  refine follows_marked_bind hlooks hscan ?_ ?_ (follows_report hy ⟨t, hscript.symm⟩)
  · rintro ls ⟨rest, rfl⟩
    exact ⟨_, rest, rfl, rfl, hplace, hallows rest⟩
  · intro z hz c
    rw [hsequel] at hz
    cases hz
    exact ⟨[], rfl⟩

/-- A term follows its scripts: where the token and its place are known, so is the first lexeme. -/
theorem termWith_follows (h : Follows anyLexemes p termScripts) (limit : Nat) :
    Follows anyLexemes (termWith p limit) termScripts := by
  unfold termWith
  refine follows_here_bind fun pos => follows_look_bind termScripts_possible fun t => ?_
  have hfirst : ∀ {t : Token} {ls : List Lexeme}, (anyLexemes ls ∧ ∀ lx ∈ ls.head?, lx.pos = pos) ∧
      ls.head?.map (·.token) = some t → ∃ rest, ls = ⟨t, pos⟩ :: rest := by
    rintro t ls ⟨⟨-, hpos⟩, htoken⟩
    obtain ⟨⟨token, place⟩, hlx, rfl⟩ := Option.map_eq_some_iff.mp htoken
    obtain ⟨rest, rfl⟩ := List.head?_eq_some_iff.mp hlx
    cases hpos _ rfl
    exact ⟨rest, rfl⟩
  split
  · next name => exact (named_follows (chain_follows h limit) limit name pos).weaken fun _ => hfirst
  · next c => exact (symbolTerm_follows h limit c).weaken fun _ hs => hs.2
  · next value =>
    refine (constant_follows (m := .integer value) (.integer value) rfl rfl rfl ?_ rfl ⟨rfl, rfl⟩
      rfl).weaken fun _ => hfirst
    intro rest name hm
    cases hm
  · next content =>
    refine (constant_follows (m := .string content) (.string content) rfl rfl rfl ?_ rfl ⟨rfl, rfl⟩
      rfl).weaken fun _ => hfirst
    intro rest name hm
    cases hm
  · next word => exact (keywordTerm_follows word).weaken fun _ hs => hs.2
  · exact follows_fail termScripts_possible

/-- On every level of nesting a term follows its scripts. -/
theorem term_follows (limit : Nat) : Follows anyLexemes (term limit) termScripts := by
  induction limit with
  | zero => exact follows_fail termScripts_possible
  | succ limit ih => exact termWith_follows ih limit

/-- On every level of nesting an expression follows its scripts. -/
theorem expression_follows (limit : Nat) :
    Follows start (expression limit) expressionScripts :=
  chain_follows (term_follows limit) limit

/-! ## Statements -/

/-- The scripts of statements. -/
abbrev statementScripts : Scripts Unit := .of Statement.script

/-- The scripts of blocks. -/
abbrev blockScripts : Scripts Unit :=
  .of fun b : List Statement => .token (.symbol '{') :: blockScript b ++ [.token (.symbol '}')]

/-- A closing brace has to stand here. -/
theorem closing_follows {expected : Expectation} {L : Scripts Unit}
    (h : L [.token (.symbol '}')] ()) :
    Follows start (do unless ← accept '}' do fail expected) L := by
  refine follows_accept_bind ?_ ?_
  · exact follows_pure h
  · exact follows_fail ⟨_, (), h⟩

/-- A block follows its scripts, if the statements in it do. -/
theorem block_follows (h : Follows (atToken (atStatement · = true)) p statementScripts)
    (limit : Nat) : Follows start (block p limit) blockScripts := by
  unfold block
  refine follows_expect_bind ((follows_repeatWhile h limit).bind ?_)
  rintro s _ ⟨b, rfl, rfl⟩
  exact closing_follows ⟨b, by simp [blockScript_eq]⟩

/-- The right side of an assignment follows its script. -/
theorem assignment_follows {store : Action} (hstore : store.Placeless) (limit : Nat) :
    Follows start (assignment limit store)
      (.of fun value : Expression => .token (.symbol '=') :: value.script ++
        [.report store, .token (.symbol ';')]) := by
  unfold assignment
  refine follows_expect_bind ((expression_follows limit).bind ?_)
  rintro s _ ⟨value, rfl⟩
  exact follows_report_bind hstore (follows_expect ⟨value, by simp⟩)

/-- A `let` looks up the variable at its name. -/
theorem letStatement_follows (limit : Nat) :
    Follows (atToken (· = some (.keyword .letKw))) (letStatement limit) statementScripts := by
  unfold letStatement
  refine follows_advance_bind (follows_named_bind (m := .target) (fun _ => rfl) (fun _ _ => rfl)
    (fun _ _ => rfl) (fun _ _ => rfl) (fun _ _ _ => nofun) (fun _ => rfl) fun name => ?_)
  refine follows_accept_bind ((expression_follows limit).bind ?_) ?_
  · rintro s _ ⟨index, rfl⟩
    refine follows_report_bind ⟨rfl, rfl⟩ (follows_expect_bind ?_)
    refine (assignment_follows ⟨rfl, rfl⟩ limit).imp ?_
    rintro s _ ⟨value, rfl⟩
    exact ⟨.assignElement name index value, by simp [Statement.script]⟩
  · refine (assignment_follows ⟨rfl, rfl⟩ limit).imp ?_
    rintro s _ ⟨value, rfl⟩
    exact ⟨.assign name value, by simp [Statement.script]⟩

/-- An `if` follows the scripts of statements, with one branch or two. -/
theorem ifStatement_follows (h : Follows (atToken (atStatement · = true)) p statementScripts)
    (limit : Nat) :
    Follows (atToken (· = some (.keyword .ifKw))) (ifStatement p limit) statementScripts := by
  unfold ifStatement
  refine follows_advance_bind (follows_expect_bind (follows_report_bind ⟨rfl, rfl⟩ ?_))
  refine (expression_follows limit).bind ?_
  rintro s _ ⟨condition, rfl⟩
  refine follows_report_bind ⟨rfl, rfl⟩ (follows_expect_bind ((block_follows h limit).bind ?_))
  rintro s _ ⟨block, rfl⟩
  refine follows_report_bind ⟨rfl, rfl⟩ (follows_look_bind ?_ fun t => ?_)
  · exact ⟨_, (), .ifThen condition block, by simp [Statement.script]; rfl⟩
  split
  · next helse =>
    obtain rfl : t = some (.keyword .elseKw) := of_decide_eq_true helse
    refine (follows_advance_bind ((block_follows h limit).bind ?_)).weaken fun _ hs => hs.2
    rintro s _ ⟨other, rfl⟩
    refine follows_report_bind ⟨rfl, rfl⟩ (follows_report ⟨rfl, rfl⟩ ?_)
    exact ⟨.ifElse condition block other, by simp [Statement.script]⟩
  · refine follows_report_bind ⟨rfl, rfl⟩ (follows_report ⟨rfl, rfl⟩ ?_)
    exact ⟨.ifThen condition block, by simp [Statement.script]⟩

/-- A loop follows the scripts of statements. -/
theorem whileStatement_follows (h : Follows (atToken (atStatement · = true)) p statementScripts)
    (limit : Nat) :
    Follows (atToken (· = some (.keyword .whileKw))) (whileStatement p limit)
      statementScripts := by
  unfold whileStatement
  refine follows_advance_bind (follows_expect_bind ?_)
  refine follows_report_bind ⟨rfl, rfl⟩ (follows_report_bind ⟨rfl, rfl⟩ ?_)
  refine (expression_follows limit).bind ?_
  rintro s _ ⟨condition, rfl⟩
  refine follows_report_bind ⟨rfl, rfl⟩ (follows_expect_bind ((block_follows h limit).bind ?_))
  rintro s _ ⟨block, rfl⟩
  refine follows_report_bind ⟨rfl, rfl⟩ (follows_report ⟨rfl, rfl⟩ ?_)
  exact ⟨.whileLoop condition block, by simp [Statement.script]⟩

/-- A call for its effect follows the scripts of statements. -/
theorem doStatement_follows (limit : Nat) :
    Follows (atToken (· = some (.keyword .doKw))) (doStatement limit) statementScripts := by
  unfold doStatement
  refine follows_advance_bind ((call_follows (expression_follows limit) limit).bind ?_)
  rintro s _ ⟨target, rfl⟩
  refine follows_report_bind ⟨rfl, rfl⟩ (follows_expect ?_)
  exact ⟨.perform target, by simp [Statement.script]⟩

/-- A `return` follows the scripts of statements, with or without a value. -/
theorem returnStatement_follows (limit : Nat) :
    Follows (atToken (· = some (.keyword .returnKw))) (returnStatement limit)
      statementScripts := by
  unfold returnStatement
  refine follows_advance_bind (follows_look_bind ?_ fun t => ?_)
  · exact ⟨_, (), .giveBack none, rfl⟩
  split
  · refine follows_report_bind ⟨rfl, rfl⟩ (follows_report_bind ⟨rfl, rfl⟩ (follows_expect ?_))
    exact ⟨.giveBack none, rfl⟩
  · refine (expression_follows limit).bind ?_
    rintro s _ ⟨value, rfl⟩
    refine follows_report_bind ⟨rfl, rfl⟩ (follows_expect ?_)
    exact ⟨.giveBack (some value), by simp [Statement.script]⟩

/-- On every level of nesting a statement follows its scripts. -/
theorem statement_follows (limit : Nat) :
    Follows (atToken (atStatement · = true)) (statement limit) statementScripts := by
  have hpossible : statementScripts.Possible := ⟨_, (), .giveBack none, rfl⟩
  induction limit with
  | zero => exact follows_fail hpossible
  | succ limit ih =>
    rw [statement]
    refine follows_test_bind hpossible ?_
    intro t _
    split
    · exact letStatement_follows limit
    · exact ifStatement_follows ih limit
    · exact whileStatement_follows ih limit
    · exact doStatement_follows limit
    · exact returnStatement_follows limit
    · exact follows_fail hpossible

/-! ## Classes -/

/-- A type is a token of the script in front of what follows. -/
theorem type_bind_follows {β : Type} {M : Scripts β} {f : String → Parser β}
    (h : ∀ type : TypeName, Follows anyLexemes (f type.text) (M.behind [.token type.token])) :
    Follows start (type >>= f) M := by
  have hfail : (fail .type >>= f) = fail .type := rfl
  have hpossible := (h .int).possible.of_behind
  simp only [Syntax.type, bind_assoc]
  refine follows_look_bind hpossible fun t => ?_
  split
  · next name hname =>
    obtain ⟨type, rfl, rfl⟩ := typeName?_eq_some_iff.mp hname
    simp only [bind_assoc, pure_bind]
    exact (follows_advance_bind (h type)).weaken fun _ hs => hs.2
  · rw [hfail]
    exact follows_fail hpossible

/-- The type that a subroutine gives back is a token of the script in front of what follows. -/
theorem returnType_bind_follows {β : Type} {M : Scripts β} {f : Unit → Parser β}
    (h : ∀ returns : Option TypeName,
      Follows anyLexemes (f ()) (M.behind [.token (returnToken returns)])) :
    Follows start (returnType >>= f) M := by
  have hfail : (fail .returnType >>= f) = fail .returnType := rfl
  have hpossible := (h none).possible.of_behind
  simp only [returnType, bind_assoc]
  refine follows_look_bind hpossible fun t => ?_
  split
  · next ht =>
    obtain ⟨returns, rfl⟩ : ∃ returns, t = some (returnToken returns) := by
      rcases Bool.or_eq_true_iff.mp ht with hvoid | htype
      · exact ⟨none, of_decide_eq_true hvoid⟩
      · obtain ⟨name, hname⟩ := Option.isSome_iff_exists.mp htype
        obtain ⟨type, htoken, -⟩ := typeName?_eq_some_iff.mp hname
        exact ⟨some type, htoken⟩
    exact (follows_advance_bind (h returns)).weaken fun _ hs => hs.2
  · rw [hfail]
    exact follows_fail hpossible

/-- A declaration marks the token of its name. -/
theorem declaration_follows (kind : VarKind) (type : String) :
    Follows start (declaration kind type)
      (.of fun name => [.marked (.declared kind type name)]) := by
  have hend : declaration kind type = here >>= fun pos => identifier >>= fun name =>
      report (.declare kind type name pos) >>= fun _ => pure () := by
    simp only [declaration, bind_pure_unit]
  rw [hend]
  exact follows_named_bind (m := .declared kind type) (fun _ => rfl) (fun _ _ => rfl)
    (fun _ _ => rfl) (fun _ _ => rfl) (fun _ _ _ => nofun) (fun _ => rfl)
    fun name => follows_pure ⟨name, rfl⟩

/-- A group of variables follows its script. -/
theorem declarations_follows (kind : VarKind) (limit : Nat) :
    Follows start (declarations kind limit) (.of (Group.script kind)) := by
  unfold declarations
  refine type_bind_follows fun type => ?_
  refine (follows_commaSeparated (declaration_follows kind type.text) limit).bind ?_
  rintro s _ ⟨first, others, rfl, rfl⟩
  exact follows_expect ⟨⟨type, first, others⟩, by simp [Group.script]⟩

/-- A group of class variables follows its script. -/
theorem classVariables_follows (limit : Nat) :
    Follows (atToken fun t => (classVarKind? t).isSome = true) (classVariables limit)
      (.of ClassGroup.script) := by
  unfold classVariables
  refine follows_test_bind ⟨_, (), ⟨.static, .int, "", []⟩, rfl⟩ ?_
  intro t ht
  obtain ⟨kind, hkind⟩ := Option.isSome_iff_exists.mp ht
  rw [hkind]
  obtain ⟨sharing, rfl, rfl⟩ := classVarKind?_eq_some_iff.mp hkind
  refine follows_advance_bind ((declarations_follows sharing.varKind limit).imp ?_)
  rintro s _ ⟨group, rfl⟩
  exact ⟨⟨sharing, group⟩, rfl⟩

/-- A parameter follows its script. -/
theorem parameter_follows : Follows start parameter (.of Parameter.script) := by
  unfold parameter
  refine type_bind_follows fun type => (declaration_follows .argument type.text).imp ?_
  rintro s _ ⟨name, rfl⟩
  exact ⟨⟨type, name⟩, rfl⟩

/-- Parameters follow their script. -/
theorem parameters_follows (limit : Nat) :
    Follows start (parameters limit) (.of parameterScript) := by
  unfold parameters
  refine follows_look_bind ⟨[], (), [], rfl⟩ fun t => ?_
  split
  · exact follows_pure ⟨[], rfl⟩
  · refine (follows_commaSeparated parameter_follows limit).bind ?_
    rintro s _ ⟨first, others, rfl, rfl⟩
    exact follows_pure ⟨first :: others, by rw [List.append_nil, parameterScript]⟩

/-- A group of local variables follows its script behind the word `var`. -/
theorem localVariables_follows (limit : Nat) :
    Follows (atToken (atKeyword .varKw · = true)) (localVariables limit)
      (.of fun g : Group => .token (.keyword .varKw) :: g.script .local) := by
  unfold localVariables
  refine (follows_advance_bind ((declarations_follows .local limit).imp ?_)).weaken
    fun _ ht => of_decide_eq_true ht
  rintro s _ ⟨group, rfl⟩
  exact ⟨group, rfl⟩

/-- A body follows the scripts of its variables and its statements. -/
theorem body_follows (limit : Nat) :
    Follows start (body limit)
      (.of fun x : List Group × List Statement =>
        .token (.symbol '{') ::
          x.1.flatMap (fun g => .token (.keyword .varKw) :: g.script .local) ++
          .report .openBody :: blockScript x.2 ++ [.token (.symbol '}')]) := by
  unfold body
  refine follows_expect_bind
    ((follows_repeatWhile (localVariables_follows limit) limit).bind ?_)
  rintro s _ ⟨locals, rfl, rfl⟩
  refine follows_report_bind ⟨rfl, rfl⟩
    ((follows_repeatWhile (statement_follows limit) limit).bind ?_)
  rintro s _ ⟨block, rfl, rfl⟩
  exact closing_follows ⟨(locals, block), by simp [blockScript_eq]⟩

/-- A subroutine follows its script. -/
theorem subroutine_follows (limit : Nat) :
    Follows (atToken fun t => (subKind? t).isSome = true) (subroutine limit)
      (.of Subroutine.script) := by
  unfold subroutine
  refine follows_test_bind ⟨_, (), ⟨.function, none, "", [], [], []⟩, rfl⟩ ?_
  intro t ht
  obtain ⟨kind, hkind⟩ := Option.isSome_iff_exists.mp ht
  rw [hkind]
  obtain rfl := subKind?_eq_some_iff.mp hkind
  refine follows_advance_bind (follows_report_bind ⟨rfl, rfl⟩ ?_)
  refine returnType_bind_follows fun returns => follows_identifier_bind fun name => ?_
  refine follows_report_bind ⟨rfl, rfl⟩ (follows_expect_bind ((parameters_follows limit).bind ?_))
  rintro s _ ⟨parameters, rfl⟩
  refine follows_expect_bind ((body_follows limit).imp ?_)
  rintro s _ ⟨⟨locals, block⟩, rfl⟩
  refine ⟨⟨kind, returns, name, parameters, locals, block⟩, ?_⟩
  simp [Subroutine.script, Subroutine.headScript]

/-- The scripts of classes. -/
abbrev classScripts : Scripts Unit := .of Class.script

/-- A class follows its script. -/
theorem classDeclaration_follows (limit : Nat) :
    Follows start (classDeclaration limit) classScripts := by
  unfold classDeclaration
  refine follows_expectKeyword_bind (follows_identifier_bind fun name => ?_)
  refine follows_report_bind ⟨rfl, rfl⟩ (follows_expect_bind
    ((follows_repeatWhile (classVariables_follows limit) limit).bind ?_))
  rintro s _ ⟨groups, rfl, rfl⟩
  refine (follows_repeatWhile (subroutine_follows limit) limit).bind ?_
  rintro s _ ⟨subs, rfl, rfl⟩
  refine closing_follows ⟨⟨name, groups, subs⟩, ?_⟩
  simp [Class.script, Class.headScript]

/-- The grammar follows the scripts of classes. -/
theorem program_follows (limit : Nat) : Follows start (program limit) classScripts := by
  unfold program
  refine (classDeclaration_follows limit).bind ?_
  rintro s _ ⟨c, rfl⟩
  have hc : (classScripts.behind c.script) [] () := ⟨c, by simp⟩
  refine follows_look_bind ⟨[], (), hc⟩ fun t => ?_
  split
  · exact follows_fail ⟨[], (), hc⟩
  · exact follows_pure hc

/-- Whatever a source holds, an action that names a place looks at a marked token of a class which
begins with the tokens before it. The lexeme in front of which recognition begins is drawn before
anything is read. -/
theorem parse_sighted {outcomes : List Outcome} {finish : Position} {xs ys : List Action}
    {x : Action} (h : (parse outcomes finish).actions = xs ++ x :: ys) (hx : x.pos? ≠ none) :
    ∃ c : Cursor, c.Shows (Outcome.lexemes outcomes) (Outcome.flaw? outcomes) finish ∧
      Sighted classScripts c xs x ys := by
  rcases parse_begins outcomes finish with ⟨e, rest, -, hparse⟩ | ⟨drawn, c, hparse, -, hshows⟩
  · rw [hparse] at h
    exact absurd h not_nil_eq
  · rw [hparse] at h
    refine ⟨c, hshows, ?_⟩
    rcases eq_append_cons_cases h with ⟨zs, hdrawn, -⟩ | ⟨zs, rfl, hactions⟩
    · have hmem : x ∈ drawn.map Action.scan := by
        rw [hdrawn]
        simp
      obtain ⟨lx, -, rfl⟩ := List.mem_map.mp hmem
      exact absurd rfl hx
    · have hrun := (program_follows outcomes.length : Follows anyLexemes _ _).run c
        hshows.settled trivial
      have hpass : Passes c c (drawn.map .scan) [] :=
        ⟨hshows.settled, rfl, ⟨[], rfl, rfl⟩, (Action.unplaced_map_scan drawn).symm⟩
      have hsighted : Sighted (classScripts.behind []) c zs x ys := hrun.sighted hactions hx
      exact hsighted.after hpass

/-- Whatever a source holds, recognition that fails has read and reported the beginning of a class,
and is stuck in front of what is left. -/
theorem parse_stopped {outcomes : List Outcome} {finish : Position} {xs : List Action} {e : Error}
    (h : parse outcomes finish = ⟨xs, .error e⟩) :
    ∃ (used rest : List Lexeme) (c : Tree.Class) (front back : List Item),
      Outcome.lexemes outcomes = used ++ rest ∧ c.script = front ++ back ∧
        tokensOf front = used.map (·.token) ∧ actionsOf front = Action.unplaced xs ∧
        Stuck (Outcome.flaw? outcomes) rest e := by
  rcases parse_begins outcomes finish with ⟨e, rest, rfl, hparse⟩ | ⟨drawn, c, hparse, -, hshows⟩
  · rw [hparse] at h
    cases h
    exact ⟨[], [], ⟨"", [], []⟩, [], _, rfl, rfl, rfl, rfl, .broken e rfl nofun⟩
  · rw [hparse] at h
    obtain ⟨rfl, hout⟩ := Parse.mk.inj h
    have hrun := (program_follows outcomes.length : Follows anyLexemes _ _).run c hshows.settled
      trivial
    obtain ⟨used, rest, front, back, -, split, ⟨tree, hscript⟩, tokens, actions, stuck⟩ :=
      hrun.stopped hout
    rw [hshows.lexemes] at split
    rw [hshows.flaw] at stuck
    refine ⟨used, rest, tree, front, back, split, hscript.symm, tokens, ?_, stuck⟩
    rw [Action.unplaced_append, Action.unplaced_map_scan, List.nil_append, actions]

end JackStack.Syntax
