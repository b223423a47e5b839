import JackStack.Proofs.Grammar.Soundness

/-!
# The grammar reads every tree

In front of the tokens of a tree, with behind them what may follow such a tree, the recogniser
succeeds, reports the actions of the tree and leaves what follows. The limit on nesting is out of
the way as soon as it is not below the number of tokens of the tree.
-/

namespace JackStack

namespace Syntax

open JackStack.Parser JackStack.Tree

/-- A term ends in front of this token: neither an index nor arguments nor a dot follow. -/
def EndsTerm (t : Option Token) : Prop :=
  atSymbol '[' t = false ∧ atSymbol '(' t = false ∧ atSymbol '.' t = false

/-- An expression ends in front of this token: no operator follows either. -/
def EndsExpression (t : Option Token) : Prop := EndsTerm t ∧ atOperator t = false

/-- A statement ends in front of this token: no other branch follows. -/
def EndsStatement (t : Option Token) : Prop := atKeyword .elseKw t = false

/-- An operator ends a term. -/
theorem BinaryOp.endsTerm (op : BinaryOp) : EndsTerm (some (.symbol op.char)) := by
  cases op <;> exact ⟨rfl, rfl, rfl⟩

/-- Every closing symbol ends an expression. -/
theorem endsExpression_symbol {c : Char} (h : c ∈ [')', ']', ';', ',']) :
    EndsExpression (some (.symbol c)) := by
  simp only [List.mem_cons, List.not_mem_nil, or_false] at h
  rcases h with rfl | rfl | rfl | rfl <;> exact ⟨⟨rfl, rfl, rfl⟩, rfl⟩

/-- Every term has a token. -/
theorem Term.tokens_ne_nil (t : Term) : 0 < t.tokens.length := by
  cases t with
  | call target => rcases target with ⟨_ | _, _, _⟩ <;> simp [Term.tokens, Call.tokens]
  | _ => simp [Term.tokens]

/-- No expression begins with a symbol that ends one. -/
theorem Expression.not_atSymbol {c : Char} (hc : c ∈ [')', ';']) (e : Expression)
    (back : List Token) : atSymbol c (e.tokens ++ back).head? = false := by
  have hne : ¬ '-' = c ∧ ¬ '~' = c ∧ ¬ '(' = c := by
    simp only [List.mem_cons, List.not_mem_nil, or_false] at hc
    rcases hc with rfl | rfl <;> decide
  obtain ⟨first, ops⟩ := e
  rw [Expression.tokens, List.append_assoc]
  cases first with
  | call target =>
    rcases target with ⟨_ | _, _, _⟩ <;> simp [Term.tokens, Call.tokens, atSymbol]
  | unary op => cases op <;> simp [Term.tokens, UnaryOp.char, atSymbol, hne]
  | _ => simp [Term.tokens, atSymbol, hne]

/-- An expression is read in front of a symbol that closes it. -/
theorem reads_before {p : Parser Unit} {limit : Nat} {c : Char} (hc : c ∈ [')', ']', ';', ','])
    (h : ReadsAll p Expression.tokens Expression.actions EndsExpression limit) {e : Expression}
    (he : e.tokens.length ≤ limit) (rest : List Token) :
    Reads none p (e.tokens ++ .symbol c :: rest) e.actions () (.symbol c :: rest) :=
  h he (endsExpression_symbol hc)

variable {p : Parser Unit} [Alike Anywhere p p] {limit : Nat}

/-! ## Expressions -/

/-- An operator and the term behind it are read, if all terms are. -/
theorem operation_readsAll (h : ReadsAll p Term.tokens Term.actions EndsTerm limit) :
    ReadsAll (operation p) (fun x : BinaryOp × Term => .symbol x.1.char :: x.2.tokens)
      (fun x => x.2.actions ++ [.applyBinary x.1]) EndsTerm limit := by
  rintro ⟨op, operand⟩ rest hlimit hrest
  have hop : BinaryOp.ofToken? (some (.symbol op.char)) = some op :=
    BinaryOp.ofToken?_eq_some_iff.mpr rfl
  have hoperand := h (Nat.le_of_succ_le hlimit) hrest
  unfold operation
  rw [reads_look_bind, List.cons_append, List.head?_cons, hop]
  refine reads_advance_bind.mpr ⟨unbroken_none _, ?_⟩
  exact hoperand.bind (reads_report.mpr ⟨rfl, rfl⟩)

/-- An expression is read where no operator follows it, if all its terms are. -/
theorem chain_readsAll (h : ReadsAll p Term.tokens Term.actions EndsTerm limit) :
    ReadsAll (chain p limit) Expression.tokens Expression.actions EndsExpression limit := by
  rintro ⟨first, ops⟩ rest hlimit ⟨hterm, hop⟩
  rw [Expression.tokens, operationTokens_eq, List.length_append] at hlimit
  rw [Expression.tokens, Expression.actions, operationTokens_eq, operationActions_eq,
    List.append_assoc]
  have hops : Reads none (repeatWhile atOperator (operation p) limit)
      (ops.flatMap (fun x => .symbol x.1.char :: x.2.tokens) ++ rest)
      (ops.flatMap fun x => x.2.actions ++ [.applyBinary x.1]) ops.length rest := by
    refine (operation_readsAll h).rounds (fun x => Nat.succ_pos _) (fun x back => ?_)
      (fun x back => BinaryOp.endsTerm x.1) hop hterm (by omega)
    exact Option.isSome_iff_exists.mpr ⟨x.1, BinaryOp.ofToken?_eq_some_iff.mpr rfl⟩
  have hfirst : EndsTerm
      (ops.flatMap (fun x => .symbol x.1.char :: x.2.tokens) ++ rest).head? := by
    cases ops with
    | nil => exact hterm
    | cons x ops => exact BinaryOp.endsTerm x.1
  unfold chain
  exact (h (by omega) hfirst).bind (reads_bind_pure.mpr ⟨_, hops, rfl⟩)

/-- Arguments are read up to the parenthesis that closes them. -/
theorem arguments_readsAll
    (h : ReadsAll p Expression.tokens Expression.actions EndsExpression limit)
    {args : List Expression} {rest : List Token} (hlimit : (argumentTokens args).length ≤ limit) :
    Reads none (arguments p limit) (argumentTokens args ++ .symbol ')' :: rest)
      (argumentActions args) args.length (.symbol ')' :: rest) := by
  unfold arguments
  rw [reads_look_bind]
  cases args with
  | nil => exact reads_pure.mpr ⟨rfl, rfl, rfl⟩
  | cons arg args =>
    have hstart : atSymbol ')' (argumentTokens (arg :: args) ++ .symbol ')' :: rest).head? =
        false := by
      rw [argumentTokens, List.append_assoc]
      exact Expression.not_atSymbol (by simp) arg _
    rw [hstart, if_neg Bool.false_ne_true]
    rw [argumentTokens, furtherTokens_eq] at hlimit ⊢
    rw [argumentActions_eq, List.flatMap_cons]
    refine h.commas (endsExpression_symbol (by simp)) ?_ ?_ hlimit
    · simp
    · exact endsExpression_symbol (by simp)

/-- Arguments in parentheses are read, and the call is reported behind them. -/
theorem callWith_readsAll
    (h : ReadsAll p Expression.tokens Expression.actions EndsExpression limit)
    {owner : Option String} {name : String} {args : List Expression}
    (hlimit : (argumentTokens args).length ≤ limit) (rest : List Token) :
    Reads none (callWith p limit owner name)
      (.symbol '(' :: argumentTokens args ++ .symbol ')' :: rest)
      (argumentActions args ++ [.call owner name args.length]) () rest := by
  unfold callWith
  refine reads_expect_bind.mpr ⟨_, rfl, unbroken_none _, ?_⟩
  refine (arguments_readsAll h hlimit).bind ?_
  exact reads_expect_bind.mpr ⟨_, rfl, unbroken_none _, reads_report.mpr ⟨rfl, rfl⟩⟩

/-- Calls are read whatever follows them, since a parenthesis closes them. -/
theorem call_readsAll (h : ReadsAll p Expression.tokens Expression.actions EndsExpression limit) :
    ReadsAll (call p limit) Call.tokens Call.actions (fun _ => True) (limit + 1) := by
  rintro ⟨_ | owner, name, args⟩ rest hlimit -
  · have hargs : (argumentTokens args).length ≤ limit := by
      simp only [Call.tokens, List.length_append, List.length_cons] at hlimit
      omega
    unfold call
    simp only [Call.tokens, List.cons_append, List.append_assoc, List.nil_append]
    refine reads_identifier_bind.mpr ⟨name, _, rfl, unbroken_none _, ?_⟩
    refine reads_accept_bind.mpr (.inr ⟨by simp, ?_⟩)
    exact reads_report_bind.mpr ⟨_, rfl, callWith_readsAll h hargs rest⟩
  · have hargs : (argumentTokens args).length ≤ limit := by
      simp only [Call.tokens, List.length_append, List.length_cons] at hlimit
      omega
    unfold call
    simp only [Call.tokens, List.cons_append, List.append_assoc, List.nil_append]
    refine reads_identifier_bind.mpr ⟨owner, _, rfl, unbroken_none _, ?_⟩
    refine reads_accept_bind.mpr (.inl ⟨_, rfl, unbroken_none _, ?_⟩)
    refine reads_identifier_bind.mpr ⟨name, _, rfl, unbroken_none _, ?_⟩
    exact reads_report_bind.mpr ⟨_, rfl, callWith_readsAll h hargs rest⟩

/-- A name that a parenthesis or a dot follows is read as a call. -/
theorem named_call_readsAll
    (h : ReadsAll p Expression.tokens Expression.actions EndsExpression limit) {name : String}
    {target : Call} (hlimit : target.tokens.length ≤ limit + 1) (rest : List Token) :
    Reads none (named p limit name .start) (target.tokens ++ rest) target.actions () rest := by
  have hcall : Reads none (call p limit) (target.tokens ++ rest) target.actions () rest :=
    call_readsAll h hlimit trivial
  have hnext : (atSymbol '(' (target.tokens ++ rest).tail.head? ||
      atSymbol '.' (target.tokens ++ rest).tail.head?) = true := by
    rcases target with ⟨_ | _, _, _⟩ <;> simp [Call.tokens, atSymbol]
  unfold named
  refine reads_peek_bind.mpr ⟨unbroken_none _, ?_⟩
  rw [hnext, if_pos rfl]
  exact hcall

/-- A name that a bracket follows is read as an element. -/
theorem named_element_readsAll
    (h : ReadsAll p Expression.tokens Expression.actions EndsExpression limit) {array : String}
    {index : Expression} (hlimit : index.tokens.length ≤ limit) (rest : List Token) :
    Reads none (named p limit array .start) ((Term.element array index).tokens ++ rest)
      (Term.element array index).actions () rest := by
  have hindex := reads_before (c := ']') (by simp) h hlimit rest
  simp only [Term.tokens, Term.actions, List.cons_append, List.append_assoc, List.nil_append]
  unfold named
  refine reads_peek_bind.mpr ⟨unbroken_none _, ?_⟩
  simp only [List.tail_cons, List.head?_cons]
  refine reads_report_bind.mpr ⟨_, rfl, reads_advance_bind.mpr ⟨unbroken_none _, ?_⟩⟩
  refine reads_expect_bind.mpr ⟨_, rfl, unbroken_none _, hindex.bind ?_⟩
  refine reads_report_bind.mpr ⟨_, rfl, reads_report_bind.mpr ⟨_, rfl, ?_⟩⟩
  exact reads_expect.mpr ⟨rfl, unbroken_none _, rfl⟩

/-- A name that nothing of this kind follows is read as a variable. -/
theorem named_var_readsAll {name : String} {rest : List Token} (hrest : EndsTerm rest.head?) :
    Reads none (named p limit name .start) ((Term.var name).tokens ++ rest)
      (Term.var name).actions () rest := by
  obtain ⟨hindex, hcall, hdot⟩ := hrest
  unfold named
  refine reads_peek_bind.mpr ⟨unbroken_none _, ?_⟩
  simp only [Term.tokens, List.cons_append, List.nil_append, List.tail_cons, hindex, hcall, hdot]
  refine reads_report_bind.mpr ⟨_, rfl, reads_advance_bind.mpr ⟨unbroken_none _, ?_⟩⟩
  exact reads_report.mpr ⟨rfl, rfl⟩

/-- If all terms with fewer tokens are read, so are those with one more. -/
theorem termWith_readsAll (h : ReadsAll p Term.tokens Term.actions EndsTerm limit) :
    ReadsAll (termWith p limit) Term.tokens Term.actions EndsTerm (limit + 1) := by
  intro t rest hlimit hrest
  have hexpr : ReadsAll (chain p limit) _ _ _ limit := chain_readsAll h
  unfold termWith
  rw [reads_here_bind, reads_look_bind]
  cases t with
  | integer value =>
    refine reads_report_bind.mpr ⟨_, rfl, reads_advance_bind.mpr ⟨unbroken_none _, ?_⟩⟩
    exact reads_report.mpr ⟨rfl, rfl⟩
  | string content =>
    refine reads_report_bind.mpr ⟨_, rfl, reads_advance_bind.mpr ⟨unbroken_none _, ?_⟩⟩
    exact reads_report.mpr ⟨rfl, rfl⟩
  | constant word =>
    cases word <;>
      exact reads_advance_bind.mpr ⟨unbroken_none _, reads_report.mpr ⟨rfl, rfl⟩⟩
  | var name => exact named_var_readsAll hrest
  | element array index =>
    refine named_element_readsAll hexpr ?_ rest
    simp only [Term.tokens, List.length_append, List.length_cons] at hlimit
    omega
  | call target =>
    have hcall : ∀ name, Reads none (named (chain p limit) limit name .start)
        (target.tokens ++ rest) target.actions () rest :=
      fun _ => named_call_readsAll hexpr hlimit rest
    rcases target with ⟨_ | owner, name, args⟩
    · exact hcall name
    · exact hcall owner
  | group inner =>
    simp only [Term.tokens, List.length_append, List.length_cons] at hlimit
    have hinner := reads_before (c := ')') (by simp) hexpr (e := inner) (by omega) rest
    simp only [Term.tokens, Term.actions, List.cons_append, List.append_assoc, List.nil_append]
    refine reads_advance_bind.mpr ⟨unbroken_none _, ?_⟩
    rw [← List.append_nil inner.actions]
    exact hinner.bind (reads_expect.mpr ⟨rfl, unbroken_none _, rfl⟩)
  | unary op operand =>
    have hoperand := h (Nat.le_of_succ_le_succ hlimit) hrest
    cases op with
    | neg =>
      refine reads_advance_bind.mpr ⟨unbroken_none _, ?_⟩
      exact hoperand.bind (reads_report.mpr ⟨rfl, rfl⟩)
    | not =>
      refine reads_advance_bind.mpr ⟨unbroken_none _, ?_⟩
      exact hoperand.bind (reads_report.mpr ⟨rfl, rfl⟩)

/-- Terms are read that do not have more tokens than the limit. -/
theorem term_readsAll (limit : Nat) :
    ReadsAll (term limit) Term.tokens Term.actions EndsTerm limit := by
  induction limit with
  | zero =>
    intro t rest hlimit _
    exact absurd (Term.tokens_ne_nil t) (Nat.not_lt.mpr hlimit)
  | succ limit ih => exact termWith_readsAll ih

/-- Expressions are read that do not have more tokens than the limit. -/
theorem expression_readsAll (limit : Nat) : ReadsAll (expression limit) Expression.tokens
    Expression.actions EndsExpression limit :=
  chain_readsAll (term_readsAll limit)

/-! ## Statements -/

/-- Every statement has a token. -/
theorem Statement.tokens_ne_nil (s : Statement) : 0 < s.tokens.length := by
  rcases s with _ | _ | _ | _ | _ | _ | _ | _ <;> simp [Statement.tokens]

/-- A statement is told by its first token. -/
theorem Statement.atStatement_head? (s : Statement) (back : List Token) :
    atStatement (s.tokens ++ back).head? = true := by
  rcases s with _ | _ | _ | _ | _ | _ | _ | _ <;>
    simp [Statement.tokens, atStatement, atKeyword]

/-- Another statement ends a statement. -/
theorem Statement.endsStatement_head? (s : Statement) (back : List Token) :
    EndsStatement (s.tokens ++ back).head? := by
  rcases s with _ | _ | _ | _ | _ | _ | _ | _ <;>
    simp [Statement.tokens, EndsStatement, atKeyword]

/-- Statements are read up to the brace that closes their block. -/
theorem statements_readsAll (h : ReadsAll p Statement.tokens Statement.actions EndsStatement limit)
    {b : List Statement} (hlimit : (blockTokens b).length ≤ limit) (rest : List Token) :
    Reads none (repeatWhile atStatement p limit) (blockTokens b ++ .symbol '}' :: rest)
      (blockActions b) b.length (.symbol '}' :: rest) := by
  rw [blockTokens_eq, blockActions_eq]
  rw [blockTokens_eq] at hlimit
  refine h.rounds Statement.tokens_ne_nil Statement.atStatement_head?
    Statement.endsStatement_head? ?_ ?_ hlimit
  · rfl
  · exact (rfl : atKeyword .elseKw (some (.symbol '}')) = false)

/-- A block is read from brace to brace. -/
theorem block_readsAll (h : ReadsAll p Statement.tokens Statement.actions EndsStatement limit)
    {b : List Statement} (hlimit : (blockTokens b).length ≤ limit) (rest : List Token) :
    Reads none (block p limit) (.symbol '{' :: blockTokens b ++ .symbol '}' :: rest)
      (blockActions b) () rest := by
  unfold block
  refine reads_expect_bind.mpr ⟨_, rfl, unbroken_none _, ?_⟩
  rw [← List.append_nil (blockActions b)]
  exact (statements_readsAll h hlimit rest).bind (reads_closeBlock.mpr ⟨rfl, unbroken_none _, rfl⟩)

/-- The right side of an assignment is read up to its semicolon. -/
theorem assignment_readsAll {store : Action} [Placeless store.pos?] {value : Expression}
    (hlimit : value.tokens.length ≤ limit) (rest : List Token) :
    Reads none (assignment limit store) (.symbol '=' :: value.tokens ++ .symbol ';' :: rest)
      (value.actions ++ Action.unplaced [store]) () rest := by
  unfold assignment
  refine reads_expect_bind.mpr ⟨_, rfl, unbroken_none _, ?_⟩
  refine (reads_before (by simp) (expression_readsAll limit) hlimit rest).bind ?_
  refine reads_report_bind.mpr ⟨[], (List.append_nil _).symm, ?_⟩
  exact reads_expect.mpr ⟨rfl, unbroken_none _, rfl⟩

/-- Without a bracket a `let` assigns to a variable. -/
theorem letStatement_assign_readsAll {name : String} {value : Expression}
    (hlimit : value.tokens.length ≤ limit) (rest : List Token) :
    Reads none (letStatement limit) ((Statement.assign name value).tokens ++ rest)
      (Statement.assign name value).actions () rest := by
  simp only [Statement.tokens, Statement.actions, List.cons_append, List.append_assoc,
    List.nil_append]
  unfold letStatement
  refine reads_advance_bind.mpr ⟨unbroken_none _, reads_here_bind.mpr ?_⟩
  refine reads_identifier_bind.mpr ⟨name, _, rfl, unbroken_none _, ?_⟩
  refine reads_report_bind.mpr ⟨_, rfl, reads_accept_bind.mpr (.inr ⟨by simp, ?_⟩)⟩
  exact assignment_readsAll hlimit rest

/-- With a bracket a `let` assigns to an element. -/
theorem letStatement_assignElement_readsAll {array : String} {index value : Expression}
    (hindex : index.tokens.length ≤ limit) (hvalue : value.tokens.length ≤ limit)
    (rest : List Token) :
    Reads none (letStatement limit) ((Statement.assignElement array index value).tokens ++ rest)
      (Statement.assignElement array index value).actions () rest := by
  simp only [Statement.tokens, Statement.actions, List.cons_append, List.append_assoc,
    List.nil_append]
  unfold letStatement
  refine reads_advance_bind.mpr ⟨unbroken_none _, reads_here_bind.mpr ?_⟩
  refine reads_identifier_bind.mpr ⟨array, _, rfl, unbroken_none _, ?_⟩
  refine reads_report_bind.mpr ⟨_, rfl, reads_accept_bind.mpr (.inl ⟨_, rfl, unbroken_none _, ?_⟩)⟩
  refine (reads_before (by simp) (expression_readsAll limit) hindex _).bind ?_
  refine reads_report_bind.mpr ⟨_, rfl, reads_expect_bind.mpr ⟨_, rfl, unbroken_none _, ?_⟩⟩
  exact assignment_readsAll hvalue rest

/-- Without the word `else` behind it an `if` has one branch. -/
theorem ifStatement_ifThen_readsAll
    (h : ReadsAll p Statement.tokens Statement.actions EndsStatement limit)
    {condition : Expression} {b : List Statement} (hcondition : condition.tokens.length ≤ limit)
    (hblock : (blockTokens b).length ≤ limit) {rest : List Token}
    (hrest : EndsStatement rest.head?) :
    Reads none (ifStatement p limit) ((Statement.ifThen condition b).tokens ++ rest)
      (Statement.ifThen condition b).actions () rest := by
  simp only [Statement.tokens, Statement.actions, List.cons_append, List.append_assoc,
    List.nil_append]
  unfold ifStatement
  refine reads_advance_bind.mpr ⟨unbroken_none _, ?_⟩
  refine reads_expect_bind.mpr ⟨_, rfl, unbroken_none _, reads_report_bind.mpr ⟨_, rfl, ?_⟩⟩
  refine (reads_before (by simp) (expression_readsAll limit) hcondition _).bind ?_
  refine reads_report_bind.mpr ⟨_, rfl, reads_expect_bind.mpr ⟨_, rfl, unbroken_none _, ?_⟩⟩
  refine (block_readsAll h hblock rest).bind (reads_report_bind.mpr ⟨_, rfl, ?_⟩)
  refine reads_look_bind.mpr ?_
  rw [hrest, if_neg Bool.false_ne_true]
  exact reads_report_bind.mpr ⟨_, rfl, reads_report.mpr ⟨rfl, rfl⟩⟩

/-- With the word `else` behind it an `if` has two branches. -/
theorem ifStatement_ifElse_readsAll
    (h : ReadsAll p Statement.tokens Statement.actions EndsStatement limit)
    {condition : Expression} {b other : List Statement}
    (hcondition : condition.tokens.length ≤ limit) (hblock : (blockTokens b).length ≤ limit)
    (hother : (blockTokens other).length ≤ limit) (rest : List Token) :
    Reads none (ifStatement p limit) ((Statement.ifElse condition b other).tokens ++ rest)
      (Statement.ifElse condition b other).actions () rest := by
  simp only [Statement.tokens, Statement.actions, List.cons_append, List.append_assoc,
    List.nil_append]
  unfold ifStatement
  refine reads_advance_bind.mpr ⟨unbroken_none _, ?_⟩
  refine reads_expect_bind.mpr ⟨_, rfl, unbroken_none _, reads_report_bind.mpr ⟨_, rfl, ?_⟩⟩
  refine (reads_before (by simp) (expression_readsAll limit) hcondition _).bind ?_
  refine reads_report_bind.mpr ⟨_, rfl, reads_expect_bind.mpr ⟨_, rfl, unbroken_none _, ?_⟩⟩
  refine (block_readsAll h hblock _).bind (reads_report_bind.mpr ⟨_, rfl, ?_⟩)
  refine reads_look_bind.mpr (reads_advance_bind.mpr ⟨unbroken_none _, ?_⟩)
  refine (block_readsAll h hother rest).bind ?_
  exact reads_report_bind.mpr ⟨_, rfl, reads_report.mpr ⟨rfl, rfl⟩⟩

/-- A loop is read if its condition and its block are. -/
theorem whileStatement_readsAll
    (h : ReadsAll p Statement.tokens Statement.actions EndsStatement limit)
    {condition : Expression} {b : List Statement} (hcondition : condition.tokens.length ≤ limit)
    (hblock : (blockTokens b).length ≤ limit) (rest : List Token) :
    Reads none (whileStatement p limit) ((Statement.whileLoop condition b).tokens ++ rest)
      (Statement.whileLoop condition b).actions () rest := by
  simp only [Statement.tokens, Statement.actions, List.cons_append, List.append_assoc,
    List.nil_append]
  unfold whileStatement
  refine reads_advance_bind.mpr ⟨unbroken_none _, ?_⟩
  refine reads_expect_bind.mpr ⟨_, rfl, unbroken_none _, reads_report_bind.mpr ⟨_, rfl, ?_⟩⟩
  refine reads_report_bind.mpr ⟨_, rfl, ?_⟩
  refine (reads_before (by simp) (expression_readsAll limit) hcondition _).bind ?_
  refine reads_report_bind.mpr ⟨_, rfl, reads_expect_bind.mpr ⟨_, rfl, unbroken_none _, ?_⟩⟩
  refine (block_readsAll h hblock rest).bind ?_
  exact reads_report_bind.mpr ⟨_, rfl, reads_report.mpr ⟨rfl, rfl⟩⟩

/-- A call for its effect is read up to its semicolon. -/
theorem doStatement_readsAll {target : Call} (hlimit : target.tokens.length ≤ limit)
    (rest : List Token) :
    Reads none (doStatement limit) ((Statement.perform target).tokens ++ rest)
      (Statement.perform target).actions () rest := by
  have hcall : Reads none (call (expression limit) limit) (target.tokens ++ .symbol ';' :: rest)
      target.actions () (.symbol ';' :: rest) :=
    call_readsAll (expression_readsAll limit) (Nat.le_succ_of_le hlimit) trivial
  simp only [Statement.tokens, Statement.actions, List.cons_append, List.append_assoc,
    List.nil_append]
  unfold doStatement
  refine reads_advance_bind.mpr ⟨unbroken_none _, hcall.bind ?_⟩
  exact reads_report_bind.mpr ⟨_, rfl, reads_expect.mpr ⟨rfl, unbroken_none _, rfl⟩⟩

/-- A semicolon behind `return` gives nothing back. -/
theorem returnStatement_none_readsAll (rest : List Token) :
    Reads none (returnStatement limit) ((Statement.giveBack none).tokens ++ rest)
      (Statement.giveBack none).actions () rest := by
  unfold returnStatement
  refine reads_advance_bind.mpr ⟨unbroken_none _, reads_look_bind.mpr ?_⟩
  refine reads_report_bind.mpr ⟨_, rfl, reads_report_bind.mpr ⟨_, rfl, ?_⟩⟩
  exact reads_expect.mpr ⟨rfl, unbroken_none _, rfl⟩

/-- A value behind `return` is read up to its semicolon, since no expression begins with one. -/
theorem returnStatement_some_readsAll {value : Expression} (hlimit : value.tokens.length ≤ limit)
    (rest : List Token) :
    Reads none (returnStatement limit) ((Statement.giveBack (some value)).tokens ++ rest)
      (Statement.giveBack (some value)).actions () rest := by
  simp only [Statement.tokens, Statement.actions, List.cons_append, List.append_assoc,
    List.nil_append]
  unfold returnStatement
  refine reads_advance_bind.mpr ⟨unbroken_none _, reads_look_bind.mpr ?_⟩
  rw [List.tail_cons, Expression.not_atSymbol (by simp), if_neg Bool.false_ne_true]
  refine (reads_before (by simp) (expression_readsAll limit) hlimit _).bind ?_
  exact reads_report_bind.mpr ⟨_, rfl, reads_expect.mpr ⟨rfl, unbroken_none _, rfl⟩⟩

/-- Statements are read that do not have more tokens than the limit. -/
theorem statement_readsAll (limit : Nat) :
    ReadsAll (statement limit) Statement.tokens Statement.actions EndsStatement limit := by
  induction limit with
  | zero =>
    intro s rest hlimit _
    exact absurd (Statement.tokens_ne_nil s) (Nat.not_lt.mpr hlimit)
  | succ limit ih =>
    intro s rest hlimit hrest
    unfold statement
    rw [reads_look_bind]
    cases s with
    | assign name value =>
      simp only [Statement.tokens, List.length_append, List.length_cons] at hlimit
      exact letStatement_assign_readsAll (by omega) rest
    | assignElement array index value =>
      simp only [Statement.tokens, List.length_append, List.length_cons] at hlimit
      exact letStatement_assignElement_readsAll (by omega) (by omega) rest
    | ifThen condition b =>
      simp only [Statement.tokens, List.length_append, List.length_cons] at hlimit
      exact ifStatement_ifThen_readsAll ih (by omega) (by omega) hrest
    | ifElse condition b other =>
      simp only [Statement.tokens, List.length_append, List.length_cons] at hlimit
      exact ifStatement_ifElse_readsAll ih (by omega) (by omega) (by omega) rest
    | whileLoop condition b =>
      simp only [Statement.tokens, List.length_append, List.length_cons] at hlimit
      exact whileStatement_readsAll ih (by omega) (by omega) rest
    | perform target =>
      simp only [Statement.tokens, List.length_append, List.length_cons] at hlimit
      exact doStatement_readsAll (by omega) rest
    | giveBack value =>
      cases value with
      | none => exact returnStatement_none_readsAll rest
      | some value =>
        simp only [Statement.tokens, List.length_append, List.length_cons] at hlimit
        exact returnStatement_some_readsAll (by omega) rest

/-! ## Classes -/

/-- A name is read and declared. -/
theorem declaration_readsAll {kind : VarKind} {type : String} :
    ReadsAll (declaration kind type) (fun name => [.identifier name])
      (fun name => [.declare kind type name .start]) (fun _ => True) limit := by
  intro name rest _ _
  unfold declaration
  refine reads_here_bind.mpr (reads_identifier_bind.mpr ⟨name, _, rfl, unbroken_none _, ?_⟩)
  exact reads_report.mpr ⟨rfl, rfl⟩

/-- The names of a declaration are read up to its semicolon. -/
theorem names_readsAll {kind : VarKind} {type first : String} {others : List String}
    (hlimit : (nameTokens others).length < limit) (rest : List Token) :
    Reads none (commaSeparated (declaration kind type) limit)
      (.identifier first :: nameTokens others ++ .symbol ';' :: rest)
      ((first :: others).map fun name => .declare kind type name .start) (others.length + 1)
      (.symbol ';' :: rest) := by
  rw [List.map_eq_flatMap, List.flatMap_cons]
  refine declaration_readsAll.commas trivial ?_ trivial ?_
  · simp
  · rw [List.singleton_append]
    exact hlimit

/-- A type, names and a semicolon are read as a group of variables. -/
theorem declarations_readsAll {kind : VarKind} :
    ReadsAll (declarations kind limit) Group.tokens (Group.actions kind) (fun _ => True) limit := by
  rintro ⟨type, first, others⟩ rest hlimit -
  simp only [Group.tokens, List.length_append, List.length_cons, List.cons_append,
    List.append_assoc, List.nil_append] at hlimit ⊢
  unfold declarations
  refine reads_type_bind.mpr ⟨type, _, rfl, unbroken_none _, ?_⟩
  rw [← List.append_nil (Group.actions _ _)]
  refine (names_readsAll (by omega) rest).bind ?_
  exact reads_expect.mpr ⟨rfl, unbroken_none _, rfl⟩

/-- Behind `static` or `field` a group of class variables is read. -/
theorem classVariables_readsAll :
    ReadsAll (classVariables limit) ClassGroup.tokens ClassGroup.actions (fun _ => True) limit := by
  rintro ⟨sharing, group⟩ rest hlimit -
  have hgroup : Reads none (declarations sharing.varKind limit) (group.tokens ++ rest)
      (group.actions sharing.varKind) () rest :=
    declarations_readsAll (Nat.le_of_succ_le hlimit) trivial
  have hkind : classVarKind? (some (.keyword sharing.keyword)) = some sharing.varKind :=
    classVarKind?_eq_some_iff.mpr ⟨sharing, rfl, rfl⟩
  unfold classVariables
  rw [reads_look_bind, ClassGroup.tokens, List.cons_append, List.head?_cons, hkind]
  exact reads_advance_bind.mpr ⟨unbroken_none _, hgroup⟩

/-- A type and a name are read as a parameter. -/
theorem parameter_readsAll :
    ReadsAll parameter Parameter.tokens Parameter.actions (fun _ => True) limit := by
  rintro ⟨type, name⟩ rest _ -
  have hname : Reads none (declaration .argument type.text) (.identifier name :: rest)
      [.declare .argument type.text name .start] () rest :=
    declaration_readsAll (Nat.le_refl 1) trivial
  unfold parameter
  exact reads_type_bind.mpr ⟨type, _, rfl, unbroken_none _, hname⟩

/-- Parameters are read up to the parenthesis that closes them. -/
theorem parameters_readsAll {ps : List Parameter} (hlimit : (parameterTokens ps).length ≤ limit)
    (rest : List Token) :
    Reads none (parameters limit) (parameterTokens ps ++ .symbol ')' :: rest)
      (ps.flatMap Parameter.actions) () (.symbol ')' :: rest) := by
  unfold parameters
  rw [reads_look_bind]
  cases ps with
  | nil => exact reads_pure.mpr ⟨rfl, rfl, rfl⟩
  | cons q ps =>
    have hstart :
        atSymbol ')' (parameterTokens (q :: ps) ++ .symbol ')' :: rest).head? = false := by
      obtain ⟨type, name⟩ := q
      cases type <;> rfl
    rw [hstart, if_neg Bool.false_ne_true]
    refine reads_bind_pure.mpr ⟨ps.length + 1, ?_, rfl⟩
    refine parameter_readsAll.commas trivial ?_ trivial hlimit
    simp

/-- Behind `var` a group of local variables is read. -/
theorem localVariables_readsAll :
    ReadsAll (localVariables limit) (fun g => .keyword .varKw :: g.tokens) (Group.actions .local)
      (fun _ => True) limit := by
  intro g rest hlimit _
  have hgroup : Reads none (declarations .local limit) (g.tokens ++ rest) (g.actions .local) ()
    rest := declarations_readsAll (Nat.le_of_succ_le hlimit) trivial
  unfold localVariables
  exact reads_advance_bind.mpr ⟨unbroken_none _, hgroup⟩

/-- The body of a subroutine is read from brace to brace. -/
theorem body_readsAll {locals : List Group} {b : List Statement}
    (hlocals : (localTokens locals).length ≤ limit) (hblock : (blockTokens b).length ≤ limit)
    (rest : List Token) :
    Reads none (body limit)
      (.symbol '{' :: localTokens locals ++ (blockTokens b ++ .symbol '}' :: rest))
      (locals.flatMap (Group.actions .local) ++ .openBody :: blockActions b) () rest := by
  have hstatements := statements_readsAll (statement_readsAll limit) hblock rest
  have hdeclarations : Reads none (repeatWhile (atKeyword .varKw) (localVariables limit) limit)
      (localTokens locals ++ (blockTokens b ++ .symbol '}' :: rest))
      (locals.flatMap (Group.actions .local)) locals.length
      (blockTokens b ++ .symbol '}' :: rest) := by
    refine localVariables_readsAll.rounds (fun g => Nat.succ_pos _) (fun g back => rfl)
      (fun g back => trivial) ?_ trivial hlocals
    cases b with
    | nil => rfl
    | cons s b =>
      rcases s with _ | _ | _ | _ | _ | _ | _ | _ <;>
        simp [blockTokens, Statement.tokens, atKeyword]
  unfold body
  refine reads_expect_bind.mpr ⟨_, rfl, unbroken_none _, hdeclarations.bind ?_⟩
  refine reads_report_bind.mpr ⟨_, rfl, ?_⟩
  rw [← List.append_nil (blockActions b)]
  exact hstatements.bind (reads_closeBlock.mpr ⟨rfl, unbroken_none _, rfl⟩)

/-- The type that a subroutine gives back is read, or `void`. -/
theorem reads_returnType (returns : Option TypeName) (rest : List Token) :
    Reads none returnType (returnToken returns :: rest) [] () rest := by
  have hstart : (atKeyword .voidKw (some (returnToken returns)) ||
      (typeName? (some (returnToken returns))).isSome) = true := by
    rcases returns with _ | _ | _ | _ | _ <;> rfl
  unfold returnType
  rw [reads_look_bind, List.head?_cons, hstart, if_pos rfl]
  exact reads_advance.mpr ⟨unbroken_none _, rfl, rfl⟩

/-- A subroutine is read whatever follows it, since a brace closes it. -/
theorem subroutine_readsAll :
    ReadsAll (subroutine limit) Subroutine.tokens Subroutine.actions (fun _ => True) limit := by
  rintro ⟨kind, returns, name, ps, locals, b⟩ rest hlimit -
  simp only [Subroutine.tokens, List.length_append, List.length_cons] at hlimit
  have hkind : subKind? (some (.keyword (subKeyword kind))) = some kind :=
    subKind?_eq_some_iff.mpr rfl
  have hbody := body_readsAll (by omega : (localTokens locals).length ≤ limit)
    (by omega : (blockTokens b).length ≤ limit) rest
  have hparameters := parameters_readsAll (by omega : (parameterTokens ps).length ≤ limit)
    (.symbol '{' :: localTokens locals ++ (blockTokens b ++ .symbol '}' :: rest))
  simp only [Subroutine.tokens, Subroutine.actions, List.cons_append, List.append_assoc,
    List.nil_append] at hparameters hbody ⊢
  unfold subroutine
  rw [reads_look_bind, List.head?_cons, hkind]
  refine reads_advance_bind.mpr ⟨unbroken_none _, reads_report_bind.mpr ⟨_, rfl, ?_⟩⟩
  refine (reads_returnType returns _).bind ?_
  refine reads_identifier_bind.mpr ⟨name, _, rfl, unbroken_none _, ?_⟩
  refine reads_report_bind.mpr ⟨_, rfl, reads_expect_bind.mpr ⟨_, rfl, unbroken_none _, ?_⟩⟩
  exact hparameters.bind (reads_expect_bind.mpr ⟨_, rfl, unbroken_none _, hbody⟩)

/-- A class is read to its end, behind which nothing stands. -/
theorem classDeclaration_readsAll (c : Tree.Class) (hlimit : c.tokens.length ≤ limit) :
    Reads none (classDeclaration limit) c.tokens c.actions () [] := by
  obtain ⟨name, groups, subs⟩ := c
  simp only [Class.tokens, List.length_append, List.length_cons] at hlimit
  have hsubs : Reads none (repeatWhile (fun t => (subKind? t).isSome) (subroutine limit) limit)
      (subs.flatMap Subroutine.tokens ++ [.symbol '}']) (subs.flatMap Subroutine.actions)
      subs.length [.symbol '}'] := by
    refine subroutine_readsAll.rounds (fun s => Nat.succ_pos _) (fun s back => ?_)
      (fun s back => trivial) rfl trivial (by omega)
    exact Option.isSome_iff_exists.mpr ⟨s.kind, subKind?_eq_some_iff.mpr rfl⟩
  have hgroups : Reads none
      (repeatWhile (fun t => (classVarKind? t).isSome) (classVariables limit) limit)
      (groups.flatMap ClassGroup.tokens ++ (subs.flatMap Subroutine.tokens ++ [.symbol '}']))
      (groups.flatMap ClassGroup.actions) groups.length
      (subs.flatMap Subroutine.tokens ++ [.symbol '}']) := by
    refine classVariables_readsAll.rounds (fun g => Nat.succ_pos _) (fun g back => ?_)
      (fun g back => trivial) ?_ trivial (by omega)
    · exact Option.isSome_iff_exists.mpr ⟨_, classVarKind?_eq_some_iff.mpr ⟨g.sharing, rfl, rfl⟩⟩
    · rcases subs with _ | ⟨⟨_ | _ | _, _, _, _, _, _⟩, subs⟩ <;> rfl
  simp only [Class.tokens, Class.actions, List.cons_append, List.append_assoc]
  unfold classDeclaration
  refine reads_expectKeyword_bind.mpr ⟨_, rfl, unbroken_none _, ?_⟩
  refine reads_identifier_bind.mpr ⟨name, _, rfl, unbroken_none _, ?_⟩
  refine reads_report_bind.mpr ⟨_, rfl, reads_expect_bind.mpr ⟨_, rfl, unbroken_none _, ?_⟩⟩
  refine hgroups.bind ?_
  rw [← List.append_nil (subs.flatMap Subroutine.actions)]
  refine hsubs.bind (reads_accept_bind.mpr (.inl ⟨_, rfl, unbroken_none _, ?_⟩))
  exact reads_pure.mpr ⟨rfl, rfl, rfl⟩

/-- A class without anything behind it is a whole program. -/
theorem program_readsAll (c : Tree.Class) (hlimit : c.tokens.length ≤ limit) :
    Reads none (program limit) c.tokens c.actions () [] := by
  unfold program
  rw [← List.append_nil c.actions]
  refine (classDeclaration_readsAll c hlimit).bind (reads_look_bind.mpr ?_)
  exact reads_pure.mpr ⟨rfl, rfl, rfl⟩

end Syntax

end JackStack
