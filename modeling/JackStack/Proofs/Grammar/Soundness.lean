import JackStack.Proofs.Grammar.Reads
import JackStack.Proofs.Grammar.Reports

/-!
# The grammar reads trees only

Whatever a recogniser of the grammar reads is the token sequence of a tree, and the actions it
reports are those of the tree. The limit on nesting plays no part here: a recogniser that runs
into it has still read a tree.
-/

namespace JackStack

/-- The tokens of the binary operators are their symbols. -/
theorem BinaryOp.ofToken?_eq_some_iff {t : Option Token} {op : BinaryOp} :
    ofToken? t = some op ↔ t = some (.symbol op.char) := by
  constructor
  · intro h
    unfold ofToken? at h
    split at h <;> cases h <;> rfl
  · rintro rfl
    cases op <;> rfl

namespace Syntax

open JackStack.Parser JackStack.Tree

variable {p : Parser Unit} [Alike Anywhere p p] {limit : Nat}

/-! ## Expressions -/

/-- In front of an operator an operation reads the operator and a term. -/
theorem operation_onlyReads (h : OnlyReads p Term.tokens Term.actions) {flaw : Option Error}
    {ts rest : List Token} {acts : List Action} (ht : atOperator ts.head? = true)
    (hr : Reads flaw (operation p) ts acts () rest) :
    ∃ x : BinaryOp × Term, ts = .symbol x.1.char :: x.2.tokens ++ rest ∧
      acts = x.2.actions ++ [.applyBinary x.1] := by
  obtain ⟨op, hop⟩ := Option.isSome_iff_exists.mp ht
  obtain ⟨back, rfl⟩ := List.head?_eq_some_iff.mp (BinaryOp.ofToken?_eq_some_iff.mp hop)
  unfold operation at hr
  rw [reads_look_bind, hop] at hr
  obtain ⟨-, hr₁⟩ := reads_advance_bind.mp hr
  obtain ⟨_, mid, acts₁, acts₂, hterm, hr₂, rfl⟩ := reads_bind.mp hr₁
  obtain ⟨rfl, rfl⟩ := reads_report.mp hr₂
  obtain ⟨t, hback, rfl⟩ := h hterm
  exact ⟨(op, t), congrArg (_ :: ·) hback, rfl⟩

/-- If what reads terms reads nothing but terms, a chain reads nothing but expressions. -/
theorem chain_onlyReads (h : OnlyReads p Term.tokens Term.actions) :
    OnlyReads (chain p limit) Expression.tokens Expression.actions := by
  intro flaw ts rest acts hr
  unfold chain at hr
  obtain ⟨_, mid, acts₁, acts₂, hterm, hr₁, rfl⟩ := reads_bind.mp hr
  obtain ⟨n, hrest, -⟩ := reads_bind_pure.mp hr₁
  obtain ⟨t, rfl, rfl⟩ := h hterm
  obtain ⟨ops, rfl, rfl, -⟩ := hrest.exists_rounds fun _ _ _ => operation_onlyReads h
  refine ⟨.chain t ops, ?_, ?_⟩
  · rw [Expression.tokens, operationTokens_eq, List.append_assoc]
  · rw [Expression.actions, operationActions_eq]

/-- What is read up to the closing parenthesis are arguments, and their number is given. -/
theorem arguments_onlyReads (h : OnlyReads p Expression.tokens Expression.actions)
    {flaw : Option Error} {ts rest : List Token} {acts : List Action} {n : Nat}
    (hr : Reads flaw (arguments p limit) ts acts n rest) :
    ∃ args : List Expression, ts = argumentTokens args ++ rest ∧ acts = argumentActions args ∧
      n = args.length := by
  unfold arguments at hr
  rw [reads_look_bind] at hr
  split at hr
  · obtain ⟨rfl, rfl, rfl⟩ := reads_pure.mp hr
    exact ⟨[], rfl, rfl, rfl⟩
  · obtain ⟨arg, args, rfl, rfl, rfl⟩ := hr.exists_commaSeparated h
    refine ⟨arg :: args, ?_, ?_, rfl⟩
    · rw [argumentTokens, furtherTokens_eq]
    · rw [argumentActions_eq, List.flatMap_cons]

/-- Behind the name of a call, arguments in parentheses are read. -/
theorem callWith_onlyReads (h : OnlyReads p Expression.tokens Expression.actions)
    {owner : Option String} {name : String} :
    OnlyReads (callWith p limit owner name)
      (fun args => .symbol '(' :: argumentTokens args ++ [.symbol ')'])
      (fun args => argumentActions args ++ [.call owner name args.length]) := by
  intro flaw ts rest acts hr
  unfold callWith at hr
  obtain ⟨ts₁, rfl, -, hr₁⟩ := reads_expect_bind.mp hr
  obtain ⟨n, mid, acts₁, acts₂, hargs, hr₂, rfl⟩ := reads_bind.mp hr₁
  obtain ⟨ts₂, rfl, -, hr₃⟩ := reads_expect_bind.mp hr₂
  obtain ⟨rfl, rfl⟩ := reads_report.mp hr₃
  obtain ⟨args, rfl, rfl, rfl⟩ := arguments_onlyReads h hargs
  exact ⟨args, by simp, rfl⟩

/-- With or without a dot, what is read is a call. -/
theorem call_onlyReads (h : OnlyReads p Expression.tokens Expression.actions) :
    OnlyReads (call p limit) Call.tokens Call.actions := by
  intro flaw ts rest acts hr
  unfold call at hr
  obtain ⟨first, ts₁, rfl, -, hr₁⟩ := reads_identifier_bind.mp hr
  obtain ⟨ts₂, rfl, -, hr₂⟩ | ⟨-, hr₂⟩ := reads_accept_bind.mp hr₁
  · obtain ⟨name, ts₃, rfl, -, hr₃⟩ := reads_identifier_bind.mp hr₂
    obtain ⟨acts', rfl, hr₄⟩ := reads_report_bind.mp hr₃
    obtain ⟨args, rfl, rfl⟩ := callWith_onlyReads h hr₄
    exact ⟨.mk (some first) name args, rfl, rfl⟩
  · obtain ⟨acts', rfl, hr₃⟩ := reads_report_bind.mp hr₂
    obtain ⟨args, rfl, rfl⟩ := callWith_onlyReads h hr₃
    exact ⟨.mk none first args, rfl, rfl⟩

/-- The token behind the name decides what a name begins. -/
theorem named_onlyReads (h : OnlyReads p Expression.tokens Expression.actions) {name : String}
    {flaw : Option Error} {ts rest : List Token} {acts : List Action}
    (hname : ts.head? = some (.identifier name))
    (hr : Reads flaw (named p limit name .start) ts acts () rest) :
    ∃ t : Term, ts = t.tokens ++ rest ∧ acts = t.actions := by
  obtain ⟨ts, rfl⟩ := List.head?_eq_some_iff.mp hname
  unfold named at hr
  obtain ⟨-, hr₁⟩ := reads_peek_bind.mp hr
  split at hr₁
  · obtain ⟨target, hts, rfl⟩ := call_onlyReads h hr₁
    exact ⟨.call target, hts, rfl⟩
  · obtain ⟨acts', rfl, hr₂⟩ := reads_report_bind.mp hr₁
    obtain ⟨-, hr₃⟩ := reads_advance_bind.mp hr₂
    split at hr₃
    · obtain ⟨ts₁, hts, -, hr₄⟩ := reads_expect_bind.mp hr₃
      obtain ⟨_, mid, acts₁, acts₂, hindex, hr₅, rfl⟩ := reads_bind.mp hr₄
      obtain ⟨acts₃, rfl, hr₆⟩ := reads_report_bind.mp hr₅
      obtain ⟨acts₄, rfl, hr₇⟩ := reads_report_bind.mp hr₆
      obtain ⟨rfl, -, rfl⟩ := reads_expect.mp hr₇
      obtain ⟨index, rfl, rfl⟩ := h hindex
      obtain rfl : ts = _ := hts
      exact ⟨.element name index, by simp [Term.tokens], rfl⟩
    · obtain ⟨rfl, rfl⟩ := reads_report.mp hr₃
      exact ⟨.var name, rfl, rfl⟩

/-- A reserved word or constant that is a term by itself. -/
private theorem single_onlyReads {t : Term} {token : Token} {x : Action} {flaw : Option Error}
    {ts rest : List Token} {acts : List Action} (hts : ts.head? = some token)
    (htokens : t.tokens = [token]) (hactions : t.actions = Action.unplaced [x])
    (hr : Reads flaw (do advance; report x) ts acts () rest) :
    ∃ t : Term, ts = t.tokens ++ rest ∧ acts = t.actions := by
  obtain ⟨back, rfl⟩ := List.head?_eq_some_iff.mp hts
  obtain ⟨-, hr₁⟩ := reads_advance_bind.mp hr
  obtain ⟨rfl, rfl⟩ := reads_report.mp hr₁
  exact ⟨t, by rw [htokens]; rfl, hactions.symm⟩

/-- The first symbol decides what a symbol begins. -/
theorem symbolTerm_onlyReads (h : OnlyReads p Term.tokens Term.actions) {c : Char}
    {flaw : Option Error} {ts rest : List Token} {acts : List Action}
    (hts : ts.head? = some (.symbol c)) (hr : Reads flaw (symbolTerm p limit c) ts acts () rest) :
    ∃ t : Term, ts = t.tokens ++ rest ∧ acts = t.actions := by
  have hexpr : OnlyReads (chain p limit) _ _ := chain_onlyReads h
  obtain ⟨back, rfl⟩ := List.head?_eq_some_iff.mp hts
  unfold symbolTerm at hr
  split at hr
  · obtain ⟨-, hr₁⟩ := reads_advance_bind.mp hr
    obtain ⟨_, mid, acts₁, acts₂, hinner, hr₂, rfl⟩ := reads_bind.mp hr₁
    obtain ⟨rfl, -, rfl⟩ := reads_expect.mp hr₂
    obtain ⟨inner, hback, rfl⟩ := hexpr hinner
    refine ⟨.group inner, ?_, by rw [List.append_nil, Term.actions]⟩
    simp only [Term.tokens, List.cons_append, List.append_assoc, List.nil_append]
    exact congrArg (_ :: ·) hback
  · obtain ⟨-, hr₁⟩ := reads_advance_bind.mp hr
    obtain ⟨_, mid, acts₁, acts₂, hterm, hr₂, rfl⟩ := reads_bind.mp hr₁
    obtain ⟨rfl, rfl⟩ := reads_report.mp hr₂
    obtain ⟨t, hback, rfl⟩ := h hterm
    exact ⟨.unary .neg t, congrArg (_ :: ·) hback, rfl⟩
  · obtain ⟨-, hr₁⟩ := reads_advance_bind.mp hr
    obtain ⟨_, mid, acts₁, acts₂, hterm, hr₂, rfl⟩ := reads_bind.mp hr₁
    obtain ⟨rfl, rfl⟩ := reads_report.mp hr₂
    obtain ⟨t, hback, rfl⟩ := h hterm
    exact ⟨.unary .not t, congrArg (_ :: ·) hback, rfl⟩
  · exact absurd hr not_reads_fail

/-- A term that begins with a reserved word is one of the four constants. -/
theorem keywordTerm_onlyReads {word : Keyword} {flaw : Option Error} {ts rest : List Token}
    {acts : List Action} (hts : ts.head? = some (.keyword word))
    (hr : Reads flaw (keywordTerm word) ts acts () rest) :
    ∃ t : Term, ts = t.tokens ++ rest ∧ acts = t.actions := by
  unfold keywordTerm at hr
  split at hr
  · exact single_onlyReads (t := .constant .yes) hts rfl rfl hr
  · exact single_onlyReads (t := .constant .no) hts rfl rfl hr
  · exact single_onlyReads (t := .constant .null) hts rfl rfl hr
  · exact single_onlyReads (t := .constant .this) hts rfl rfl hr
  · exact absurd hr not_reads_fail

/-- If nothing but terms is read one level deeper, nothing but a term is read. -/
theorem termWith_onlyReads (h : OnlyReads p Term.tokens Term.actions) :
    OnlyReads (termWith p limit) Term.tokens Term.actions := by
  intro flaw ts rest acts hr
  unfold termWith at hr
  rw [reads_here_bind, reads_look_bind] at hr
  split at hr
  · next name hts => exact named_onlyReads (chain_onlyReads h) hts hr
  · next c hts => exact symbolTerm_onlyReads h hts hr
  · next value hts =>
    obtain ⟨acts', rfl, hr₁⟩ := reads_report_bind.mp hr
    obtain ⟨back, rfl⟩ := List.head?_eq_some_iff.mp hts
    obtain ⟨-, hr₂⟩ := reads_advance_bind.mp hr₁
    obtain ⟨rfl, rfl⟩ := reads_report.mp hr₂
    exact ⟨.integer value, rfl, rfl⟩
  · next content hts =>
    obtain ⟨acts', rfl, hr₁⟩ := reads_report_bind.mp hr
    obtain ⟨back, rfl⟩ := List.head?_eq_some_iff.mp hts
    obtain ⟨-, hr₂⟩ := reads_advance_bind.mp hr₁
    obtain ⟨rfl, rfl⟩ := reads_report.mp hr₂
    exact ⟨.string content, rfl, rfl⟩
  · next word hts => exact keywordTerm_onlyReads hts hr
  · exact absurd hr not_reads_fail

/-- On every level of nesting nothing but terms is read. -/
theorem term_onlyReads (limit : Nat) : OnlyReads (term limit) Term.tokens Term.actions := by
  induction limit with
  | zero =>
    intro flaw ts rest acts hr
    exact absurd hr not_reads_fail
  | succ limit ih => exact termWith_onlyReads ih

/-- On every level of nesting nothing but expressions is read. -/
theorem expression_onlyReads (limit : Nat) :
    OnlyReads (expression limit) Expression.tokens Expression.actions :=
  chain_onlyReads (term_onlyReads limit)

/-! ## Statements -/

/-- The end of a block is a closing brace. -/
theorem reads_closeBlock {flaw : Option Error} {ts rest : List Token} {acts : List Action}
    {u : Unit} : Reads flaw closeBlock ts acts u rest ↔
      ts = .symbol '}' :: rest ∧ Unbroken flaw rest ∧ acts = [] := by
  unfold closeBlock
  rw [reads_accept_bind]
  grind [reads_pure, not_reads_fail]

/-- What is read between braces are statements. -/
theorem block_onlyReads (h : OnlyReads p Statement.tokens Statement.actions) :
    OnlyReads (block p limit) (fun b => .symbol '{' :: blockTokens b ++ [.symbol '}'])
      blockActions := by
  intro flaw ts rest acts hr
  unfold block at hr
  obtain ⟨ts₁, rfl, -, hr₁⟩ := reads_expect_bind.mp hr
  obtain ⟨n, mid, acts₁, acts₂, hrounds, hr₂, rfl⟩ := reads_bind.mp hr₁
  obtain ⟨rfl, -, rfl⟩ := reads_closeBlock.mp hr₂
  obtain ⟨b, rfl, rfl, -⟩ := hrounds.exists_rounds fun _ _ _ _ hround => h hround
  refine ⟨b, ?_, ?_⟩
  · simp [blockTokens_eq]
  · rw [blockActions_eq, List.append_nil]

/-- What is read behind a variable is an equals sign, an expression and a semicolon. -/
theorem assignment_onlyReads {store : Action} {flaw : Option Error} {ts rest : List Token}
    {acts : List Action} [Placeless store.pos?]
    (hr : Reads flaw (assignment limit store) ts acts () rest) :
    ∃ value : Expression, ts = .symbol '=' :: value.tokens ++ .symbol ';' :: rest ∧
      acts = value.actions ++ Action.unplaced [store] := by
  unfold assignment at hr
  obtain ⟨ts₁, rfl, -, hr₁⟩ := reads_expect_bind.mp hr
  obtain ⟨_, mid, acts₁, acts₂, hvalue, hr₂, rfl⟩ := reads_bind.mp hr₁
  obtain ⟨acts₃, rfl, hr₃⟩ := reads_report_bind.mp hr₂
  obtain ⟨rfl, -, rfl⟩ := reads_expect.mp hr₃
  obtain ⟨value, rfl, rfl⟩ := expression_onlyReads limit hvalue
  exact ⟨value, by simp, by simp⟩

section Statements

variable {flaw : Option Error} {ts rest : List Token} {acts : List Action}

/-- A `let` reads an assignment to a variable or to an element. -/
theorem letStatement_onlyReads (hts : ts.head? = some (.keyword .letKw))
    (hr : Reads flaw (letStatement limit) ts acts () rest) :
    ∃ s : Statement, ts = s.tokens ++ rest ∧ acts = s.actions := by
  obtain ⟨back, rfl⟩ := List.head?_eq_some_iff.mp hts
  unfold letStatement at hr
  obtain ⟨-, hr₁⟩ := reads_advance_bind.mp hr
  obtain ⟨name, ts₁, hback, -, hr₂⟩ := reads_identifier_bind.mp (reads_here_bind.mp hr₁)
  obtain rfl : back = _ := hback
  obtain ⟨acts₁, rfl, hr₃⟩ := reads_report_bind.mp hr₂
  obtain ⟨ts₂, rfl, -, hr₄⟩ | ⟨-, hr₄⟩ := reads_accept_bind.mp hr₃
  · obtain ⟨_, mid, acts₂, acts₃, hindex, hr₅, rfl⟩ := reads_bind.mp hr₄
    obtain ⟨acts₄, rfl, hr₆⟩ := reads_report_bind.mp hr₅
    obtain ⟨ts₃, rfl, -, hr₇⟩ := reads_expect_bind.mp hr₆
    obtain ⟨index, rfl, rfl⟩ := expression_onlyReads limit hindex
    obtain ⟨value, rfl, rfl⟩ := assignment_onlyReads hr₇
    exact ⟨.assignElement name index value, by simp [Statement.tokens],
      by simp [Statement.actions]; rfl⟩
  · obtain ⟨value, rfl, rfl⟩ := assignment_onlyReads hr₄
    exact ⟨.assign name value, by simp [Statement.tokens], rfl⟩

/-- An `if` reads a branching statement, with another branch where the word `else` follows. -/
theorem ifStatement_onlyReads (h : OnlyReads p Statement.tokens Statement.actions)
    (hts : ts.head? = some (.keyword .ifKw))
    (hr : Reads flaw (ifStatement p limit) ts acts () rest) :
    ∃ s : Statement, ts = s.tokens ++ rest ∧ acts = s.actions := by
  obtain ⟨back, rfl⟩ := List.head?_eq_some_iff.mp hts
  unfold ifStatement at hr
  obtain ⟨-, hr₁⟩ := reads_advance_bind.mp hr
  obtain ⟨ts₁, hback, -, hr₂⟩ := reads_expect_bind.mp hr₁
  obtain rfl : back = _ := hback
  obtain ⟨acts₁, rfl, hr₃⟩ := reads_report_bind.mp hr₂
  obtain ⟨_, mid, acts₂, acts₃, hcondition, hr₄, rfl⟩ := reads_bind.mp hr₃
  obtain ⟨acts₄, rfl, hr₅⟩ := reads_report_bind.mp hr₄
  obtain ⟨ts₂, rfl, -, hr₆⟩ := reads_expect_bind.mp hr₅
  obtain ⟨_, mid', acts₅, acts₆, hblock, hr₇, rfl⟩ := reads_bind.mp hr₆
  obtain ⟨acts₇, rfl, hr₈⟩ := reads_report_bind.mp hr₇
  obtain ⟨condition, rfl, rfl⟩ := expression_onlyReads limit hcondition
  obtain ⟨block, rfl, rfl⟩ := block_onlyReads h hblock
  replace hr₈ := reads_look_bind.mp hr₈
  split at hr₈
  · next helse =>
    obtain ⟨back, rfl⟩ := List.head?_eq_some_iff.mp (of_decide_eq_true helse)
    obtain ⟨-, hr₉⟩ := reads_advance_bind.mp hr₈
    obtain ⟨_, mid'', acts₈, acts₉, hother, hr₁₀, rfl⟩ := reads_bind.mp hr₉
    obtain ⟨other, hback, rfl⟩ := block_onlyReads h hother
    obtain rfl : back = _ := hback
    obtain ⟨acts₁₀, rfl, hr₁₁⟩ := reads_report_bind.mp hr₁₀
    obtain ⟨rfl, rfl⟩ := reads_report.mp hr₁₁
    exact ⟨.ifElse condition block other, by simp [Statement.tokens],
      by simp [Statement.actions]; rfl⟩
  · obtain ⟨acts₈, rfl, hr₉⟩ := reads_report_bind.mp hr₈
    obtain ⟨rfl, rfl⟩ := reads_report.mp hr₉
    exact ⟨.ifThen condition block, by simp [Statement.tokens], by simp [Statement.actions]; rfl⟩

/-- A `while` reads a loop. -/
theorem whileStatement_onlyReads (h : OnlyReads p Statement.tokens Statement.actions)
    (hts : ts.head? = some (.keyword .whileKw))
    (hr : Reads flaw (whileStatement p limit) ts acts () rest) :
    ∃ s : Statement, ts = s.tokens ++ rest ∧ acts = s.actions := by
  obtain ⟨back, rfl⟩ := List.head?_eq_some_iff.mp hts
  unfold whileStatement at hr
  obtain ⟨-, hr₁⟩ := reads_advance_bind.mp hr
  obtain ⟨ts₁, hback, -, hr₂⟩ := reads_expect_bind.mp hr₁
  obtain rfl : back = _ := hback
  obtain ⟨acts₁, rfl, hr₃⟩ := reads_report_bind.mp hr₂
  obtain ⟨acts₂, rfl, hr₄⟩ := reads_report_bind.mp hr₃
  obtain ⟨_, mid, acts₃, acts₄, hcondition, hr₅, rfl⟩ := reads_bind.mp hr₄
  obtain ⟨acts₅, rfl, hr₆⟩ := reads_report_bind.mp hr₅
  obtain ⟨ts₂, rfl, -, hr₇⟩ := reads_expect_bind.mp hr₆
  obtain ⟨_, mid', acts₆, acts₇, hblock, hr₈, rfl⟩ := reads_bind.mp hr₇
  obtain ⟨acts₈, rfl, hr₉⟩ := reads_report_bind.mp hr₈
  obtain ⟨rfl, rfl⟩ := reads_report.mp hr₉
  obtain ⟨condition, rfl, rfl⟩ := expression_onlyReads limit hcondition
  obtain ⟨block, rfl, rfl⟩ := block_onlyReads h hblock
  exact ⟨.whileLoop condition block, by simp [Statement.tokens], by simp [Statement.actions]; rfl⟩

/-- A `do` reads a call. -/
theorem doStatement_onlyReads (hts : ts.head? = some (.keyword .doKw))
    (hr : Reads flaw (doStatement limit) ts acts () rest) :
    ∃ s : Statement, ts = s.tokens ++ rest ∧ acts = s.actions := by
  obtain ⟨back, rfl⟩ := List.head?_eq_some_iff.mp hts
  unfold doStatement at hr
  obtain ⟨-, hr₁⟩ := reads_advance_bind.mp hr
  obtain ⟨_, mid, acts₁, acts₂, hcall, hr₂, rfl⟩ := reads_bind.mp hr₁
  obtain ⟨acts₃, rfl, hr₃⟩ := reads_report_bind.mp hr₂
  obtain ⟨rfl, -, rfl⟩ := reads_expect.mp hr₃
  obtain ⟨target, hback, rfl⟩ := call_onlyReads (expression_onlyReads limit) hcall
  obtain rfl : back = _ := hback
  exact ⟨.perform target, by simp [Statement.tokens], rfl⟩

/-- A `return` reads a value unless a semicolon follows at once. -/
theorem returnStatement_onlyReads (hts : ts.head? = some (.keyword .returnKw))
    (hr : Reads flaw (returnStatement limit) ts acts () rest) :
    ∃ s : Statement, ts = s.tokens ++ rest ∧ acts = s.actions := by
  obtain ⟨back, rfl⟩ := List.head?_eq_some_iff.mp hts
  unfold returnStatement at hr
  obtain ⟨-, hr₁⟩ := reads_advance_bind.mp hr
  replace hr₁ := reads_look_bind.mp hr₁
  split at hr₁
  · obtain ⟨acts₁, rfl, hr₂⟩ := reads_report_bind.mp hr₁
    obtain ⟨acts₂, rfl, hr₃⟩ := reads_report_bind.mp hr₂
    obtain ⟨hback, -, rfl⟩ := reads_expect.mp hr₃
    obtain rfl : back = _ := hback
    exact ⟨.giveBack none, rfl, rfl⟩
  · obtain ⟨_, mid, acts₁, acts₂, hvalue, hr₂, rfl⟩ := reads_bind.mp hr₁
    obtain ⟨acts₃, rfl, hr₃⟩ := reads_report_bind.mp hr₂
    obtain ⟨rfl, -, rfl⟩ := reads_expect.mp hr₃
    obtain ⟨value, hback, rfl⟩ := expression_onlyReads limit hvalue
    obtain rfl : back = _ := hback
    exact ⟨.giveBack (some value), by simp [Statement.tokens], rfl⟩

end Statements

/-- On every level of nesting nothing but statements is read. -/
theorem statement_onlyReads (limit : Nat) :
    OnlyReads (statement limit) Statement.tokens Statement.actions := by
  induction limit with
  | zero =>
    intro flaw ts rest acts hr
    exact absurd hr not_reads_fail
  | succ limit ih =>
    intro flaw ts rest acts hr
    unfold statement at hr
    rw [reads_look_bind] at hr
    split at hr
    · next hts => exact letStatement_onlyReads hts hr
    · next hts => exact ifStatement_onlyReads ih hts hr
    · next hts => exact whileStatement_onlyReads ih hts hr
    · next hts => exact doStatement_onlyReads hts hr
    · next hts => exact returnStatement_onlyReads hts hr
    · exact absurd hr not_reads_fail

/-! ## Classes -/

/-- The tokens that name a type are those of the type names, with their texts. -/
theorem typeName?_eq_some_iff {t : Option Token} {name : String} :
    typeName? t = some name ↔ ∃ ty : TypeName, t = some ty.token ∧ name = ty.text := by
  constructor
  · intro h
    unfold typeName? at h
    split at h <;> cases h
    · exact ⟨.int, rfl, rfl⟩
    · exact ⟨.char, rfl, rfl⟩
    · exact ⟨.boolean, rfl, rfl⟩
    · exact ⟨.named name, rfl, rfl⟩
  · rintro ⟨ty, rfl, rfl⟩
    cases ty <;> rfl

/-- The words in front of class variables tell how the variables are shared. -/
theorem classVarKind?_eq_some_iff {t : Option Token} {kind : VarKind} :
    classVarKind? t = some kind ↔
      ∃ sharing : Sharing, t = some (.keyword sharing.keyword) ∧ kind = sharing.varKind := by
  constructor
  · intro h
    unfold classVarKind? at h
    split at h <;> cases h
    · exact ⟨.static, rfl, rfl⟩
    · exact ⟨.field, rfl, rfl⟩
  · rintro ⟨sharing, rfl, rfl⟩
    cases sharing <;> rfl

/-- The words in front of subroutines tell their kinds. -/
theorem subKind?_eq_some_iff {t : Option Token} {kind : SubKind} :
    subKind? t = some kind ↔ t = some (.keyword (subKeyword kind)) := by
  constructor
  · intro h
    unfold subKind? at h
    split at h <;> cases h <;> rfl
  · rintro rfl
    cases kind <;> rfl

section Classes

variable {flaw : Option Error} {ts rest : List Token} {acts : List Action}

/-- A type is read where a type name stands, and its text is given. -/
theorem reads_type {name : String} :
    Reads flaw type ts acts name rest ↔
      ∃ ty : TypeName, ts = ty.token :: rest ∧ name = ty.text ∧ Unbroken flaw rest ∧ acts = [] := by
  unfold type
  rw [reads_look_bind]
  cases h : typeName? ts.head? with
  | none =>
    simp only [not_reads_fail, false_iff]
    rintro ⟨ty, rfl, -⟩
    have hty := typeName?_eq_some_iff.mpr ⟨ty, rfl, rfl⟩
    rw [List.head?_cons, hty] at h
    cases h
  | some text =>
    obtain ⟨ty, hts, rfl⟩ := typeName?_eq_some_iff.mp h
    obtain ⟨back, rfl⟩ := List.head?_eq_some_iff.mp hts
    simp only [reads_advance_bind, reads_pure, List.tail_cons]
    constructor
    · rintro ⟨hu, rfl, rfl, rfl⟩
      exact ⟨ty, rfl, rfl, hu, rfl⟩
    · rintro ⟨ty', hback, rfl, hu, rfl⟩
      obtain ⟨htoken, rfl⟩ := List.cons.inj hback
      have hty := typeName?_eq_some_iff.mpr ⟨ty', congrArg some htoken, rfl⟩
      rw [List.head?_cons, hty] at h
      exact ⟨hu, rfl, Option.some.inj h, rfl⟩

/-- A type is read, and behind it what follows. -/
theorem reads_type_bind {β : Type} {f : String → Parser β} [∀ a, Alike Anywhere (f a) (f a)]
    {b : β} : Reads flaw (type >>= f) ts acts b rest ↔
      ∃ (ty : TypeName) (mid : List Token), ts = ty.token :: mid ∧ Unbroken flaw mid ∧
        Reads flaw (f ty.text) mid acts b rest := by
  rw [reads_bind]
  constructor
  · rintro ⟨name, mid, acts₁, acts₂, htype, hf, rfl⟩
    obtain ⟨ty, rfl, rfl, hu, rfl⟩ := reads_type.mp htype
    exact ⟨ty, mid, rfl, hu, hf⟩
  · rintro ⟨ty, mid, rfl, hu, hf⟩
    exact ⟨ty.text, mid, [], acts, reads_type.mpr ⟨ty, rfl, rfl, hu, rfl⟩, hf, rfl⟩

/-- What is read in front of the name of a subroutine is `void` or a type. -/
theorem returnType_onlyReads (hr : Reads flaw returnType ts acts () rest) :
    ∃ returns : Option TypeName, ts = returnToken returns :: rest ∧ acts = [] := by
  unfold returnType at hr
  rw [reads_look_bind] at hr
  split at hr
  · next h =>
    obtain ⟨-, rfl, rfl⟩ := reads_advance.mp hr
    rcases Bool.or_eq_true_iff.mp h with h | h
    · obtain ⟨back, rfl⟩ := List.head?_eq_some_iff.mp (of_decide_eq_true h)
      exact ⟨none, rfl, rfl⟩
    · obtain ⟨name, hname⟩ := Option.isSome_iff_exists.mp h
      obtain ⟨ty, hts, -⟩ := typeName?_eq_some_iff.mp hname
      obtain ⟨back, rfl⟩ := List.head?_eq_some_iff.mp hts
      exact ⟨some ty, rfl, rfl⟩
  · exact absurd hr not_reads_fail

/-- A declaration reads a name and declares it. -/
theorem declaration_onlyReads {kind : VarKind} {type : String} :
    OnlyReads (declaration kind type) (fun name => [.identifier name])
      (fun name => [.declare kind type name .start]) := by
  intro flaw ts rest acts hr
  unfold declaration at hr
  obtain ⟨name, ts₁, rfl, -, hr₁⟩ := reads_identifier_bind.mp (reads_here_bind.mp hr)
  obtain ⟨rfl, rfl⟩ := reads_report.mp hr₁
  exact ⟨name, rfl, rfl⟩

/-- Declarations read a type and names, up to the semicolon. -/
theorem declarations_onlyReads {kind : VarKind} :
    OnlyReads (declarations kind limit) Group.tokens (Group.actions kind) := by
  intro flaw ts rest acts hr
  unfold declarations at hr
  obtain ⟨type, mid, rfl, -, hr₁⟩ := reads_type_bind.mp hr
  obtain ⟨n, mid', acts₁, acts₂, hnames, hr₂, rfl⟩ := reads_bind.mp hr₁
  obtain ⟨rfl, -, rfl⟩ := reads_expect.mp hr₂
  obtain ⟨first, others, rfl, rfl, -⟩ := hnames.exists_commaSeparated declaration_onlyReads
  refine ⟨⟨type, first, others⟩, ?_, ?_⟩
  · simp [Group.tokens, nameTokens]
  · simp [Group.actions, List.map_eq_flatMap]

/-- What is read of class variables is a group of them. -/
theorem classVariables_onlyReads :
    OnlyReads (classVariables limit) ClassGroup.tokens ClassGroup.actions := by
  intro flaw ts rest acts hr
  unfold classVariables at hr
  rw [reads_look_bind] at hr
  split at hr
  · next kind hkind =>
    obtain ⟨sharing, hts, rfl⟩ := classVarKind?_eq_some_iff.mp hkind
    obtain ⟨back, rfl⟩ := List.head?_eq_some_iff.mp hts
    obtain ⟨-, hr₁⟩ := reads_advance_bind.mp hr
    obtain ⟨group, hback, rfl⟩ := declarations_onlyReads hr₁
    obtain rfl : back = _ := hback
    exact ⟨⟨sharing, group⟩, rfl, rfl⟩
  · exact absurd hr not_reads_fail

/-- What is read of a parameter is its type and its name. -/
theorem parameter_onlyReads : OnlyReads parameter Parameter.tokens Parameter.actions := by
  intro flaw ts rest acts hr
  unfold parameter at hr
  obtain ⟨type, mid, rfl, -, hr₁⟩ := reads_type_bind.mp hr
  obtain ⟨name, rfl, rfl⟩ := declaration_onlyReads hr₁
  exact ⟨⟨type, name⟩, rfl, rfl⟩

/-- What is read up to the closing parenthesis are parameters. -/
theorem parameters_onlyReads :
    OnlyReads (parameters limit) parameterTokens
      (fun ps => ps.flatMap Parameter.actions) := by
  intro flaw ts rest acts hr
  unfold parameters at hr
  rw [reads_look_bind] at hr
  split at hr
  · obtain ⟨rfl, -, rfl⟩ := reads_pure.mp hr
    exact ⟨[], rfl, rfl⟩
  · obtain ⟨n, hparameters, -⟩ := reads_bind_pure.mp hr
    obtain ⟨p, ps, rfl, rfl, -⟩ := hparameters.exists_commaSeparated parameter_onlyReads
    exact ⟨p :: ps, rfl, by simp⟩

/-- Behind the word `var` a group of local variables is read. -/
theorem localVariables_onlyReads (hts : atKeyword .varKw ts.head? = true)
    (hr : Reads flaw (localVariables limit) ts acts () rest) :
    ∃ g : Group, ts = .keyword .varKw :: g.tokens ++ rest ∧ acts = g.actions .local := by
  obtain ⟨back, rfl⟩ := List.head?_eq_some_iff.mp (of_decide_eq_true hts)
  unfold localVariables at hr
  obtain ⟨-, hr₁⟩ := reads_advance_bind.mp hr
  obtain ⟨group, hback, rfl⟩ := declarations_onlyReads hr₁
  exact ⟨group, congrArg (_ :: ·) hback, rfl⟩

/-- The body of a subroutine reads local variables and then statements. -/
theorem body_onlyReads (hr : Reads flaw (body limit) ts acts () rest) :
    ∃ (locals : List Group) (block : List Statement),
      ts = .symbol '{' :: localTokens locals ++ blockTokens block ++ .symbol '}' :: rest ∧
        acts = locals.flatMap (Group.actions .local) ++ .openBody :: blockActions block := by
  unfold body at hr
  obtain ⟨ts₁, rfl, -, hr₁⟩ := reads_expect_bind.mp hr
  obtain ⟨n, mid, acts₁, acts₂, hlocals, hr₂, rfl⟩ := reads_bind.mp hr₁
  obtain ⟨acts₃, rfl, hr₃⟩ := reads_report_bind.mp hr₂
  obtain ⟨m, mid', acts₄, acts₅, hblock, hr₄, rfl⟩ := reads_bind.mp hr₃
  obtain ⟨rfl, -, rfl⟩ := reads_closeBlock.mp hr₄
  obtain ⟨locals, rfl, rfl, -⟩ := hlocals.exists_rounds fun _ _ _ => localVariables_onlyReads
  obtain ⟨block, rfl, rfl, -⟩ :=
    hblock.exists_rounds fun _ _ _ _ hround => statement_onlyReads limit hround
  refine ⟨locals, block, ?_, ?_⟩
  · simp [localTokens, blockTokens_eq]
  · rw [blockActions_eq, List.append_nil]
    rfl

/-- What is read behind one of the three words is the rest of a subroutine. -/
theorem subroutine_onlyReads :
    OnlyReads (subroutine limit) Subroutine.tokens Subroutine.actions := by
  intro flaw ts rest acts hr
  unfold subroutine at hr
  rw [reads_look_bind] at hr
  split at hr
  · next kind hkind =>
    obtain ⟨back, rfl⟩ := List.head?_eq_some_iff.mp (subKind?_eq_some_iff.mp hkind)
    obtain ⟨-, hr₁⟩ := reads_advance_bind.mp hr
    obtain ⟨acts₁, rfl, hr₂⟩ := reads_report_bind.mp hr₁
    obtain ⟨_, mid, acts₂, acts₃, hreturns, hr₃, rfl⟩ := reads_bind.mp hr₂
    obtain ⟨returns, hback, rfl⟩ := returnType_onlyReads hreturns
    obtain rfl : back = _ := hback
    obtain ⟨name, ts₁, rfl, -, hr₄⟩ := reads_identifier_bind.mp hr₃
    obtain ⟨acts₄, rfl, hr₅⟩ := reads_report_bind.mp hr₄
    obtain ⟨ts₂, rfl, -, hr₆⟩ := reads_expect_bind.mp hr₅
    obtain ⟨_, mid', acts₅, acts₆, hparameters, hr₇, rfl⟩ := reads_bind.mp hr₆
    obtain ⟨ts₃, rfl, -, hr₈⟩ := reads_expect_bind.mp hr₇
    obtain ⟨parameters, rfl, rfl⟩ := parameters_onlyReads hparameters
    obtain ⟨locals, block, rfl, rfl⟩ := body_onlyReads hr₈
    exact ⟨⟨kind, returns, name, parameters, locals, block⟩, by simp [Subroutine.tokens],
      by simp [Subroutine.actions]; rfl⟩
  · exact absurd hr not_reads_fail

/-- What is read is a class, behind which no failure stands in place of a token. -/
theorem classDeclaration_onlyReads (hr : Reads flaw (classDeclaration limit) ts acts () rest) :
    ∃ c : Tree.Class, ts = c.tokens ++ rest ∧ acts = c.actions ∧ Unbroken flaw rest := by
  unfold classDeclaration at hr
  obtain ⟨ts₁, rfl, -, hr₁⟩ := reads_expectKeyword_bind.mp hr
  obtain ⟨name, ts₂, rfl, -, hr₂⟩ := reads_identifier_bind.mp hr₁
  obtain ⟨acts₁, rfl, hr₃⟩ := reads_report_bind.mp hr₂
  obtain ⟨ts₃, rfl, -, hr₄⟩ := reads_expect_bind.mp hr₃
  obtain ⟨n, mid, acts₂, acts₃, hgroups, hr₅, rfl⟩ := reads_bind.mp hr₄
  obtain ⟨m, mid', acts₄, acts₅, hsubs, hr₆, rfl⟩ := reads_bind.mp hr₅
  obtain ⟨groups, rfl, rfl, -⟩ :=
    hgroups.exists_rounds fun _ _ _ _ hround => classVariables_onlyReads hround
  obtain ⟨subs, rfl, rfl, -⟩ :=
    hsubs.exists_rounds fun _ _ _ _ hround => subroutine_onlyReads hround
  obtain ⟨ts₄, rfl, hu, hr₇⟩ | ⟨-, hr₇⟩ := reads_accept_bind.mp hr₆
  · obtain ⟨rfl, -, rfl⟩ := reads_pure.mp hr₇
    exact ⟨⟨name, groups, subs⟩, by simp [Class.tokens], by simp [Class.actions]; rfl, hu⟩
  · exact absurd hr₇ not_reads_fail

/-- A whole program is one class, behind which the source ends without a failure. -/
theorem program_onlyReads (hr : Reads flaw (program limit) ts acts () rest) :
    ∃ c : Tree.Class, ts = c.tokens ∧ acts = c.actions ∧ flaw = none ∧ rest = [] := by
  unfold program at hr
  obtain ⟨_, mid, acts₁, acts₂, hclass, hr₁, rfl⟩ := reads_bind.mp hr
  obtain ⟨c, rfl, rfl, hu⟩ := classDeclaration_onlyReads hclass
  replace hr₁ := reads_look_bind.mp hr₁
  split at hr₁
  · exact absurd hr₁ not_reads_fail
  · next hend =>
    obtain ⟨rfl, -, rfl⟩ := reads_pure.mp hr₁
    obtain rfl : rest = [] := by simpa using hend
    exact ⟨c, by simp, by simp, (unbroken_nil flaw).mp hu, rfl⟩

end Classes

end Syntax

end JackStack
