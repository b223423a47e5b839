import JackStack.Proofs.Grammar.Completeness

/-!
# The grammar is unambiguous

No two trees share their tokens. The reason is local: where a tree ends is decided by the tokens
behind it, so that the tokens of a tree in front of others determine both the tree and the others.
-/

namespace JackStack

/-- Different binary operators have different symbols. -/
theorem BinaryOp.char_injective {a b : BinaryOp} (h : a.char = b.char) : a = b := by
  cases a <;> cases b <;> first | rfl | exact absurd h (by decide)

/-- Different unary operators have different symbols. -/
theorem UnaryOp.char_injective {a b : UnaryOp} (h : a.char = b.char) : a = b := by
  cases a <;> cases b <;> first | rfl | exact absurd h (by decide)

namespace Tree

open JackStack.Parser JackStack.Syntax

/-- No other item has the same tokens in front of something that may follow it. -/
def Unique {T : Type} (tokens : T → List Token) (follow : Option Token → Prop) (x : T) : Prop :=
  ∀ ⦃y : T⦄ ⦃r₁ r₂ : List Token⦄, follow r₁.head? → follow r₂.head? →
    tokens x ++ r₁ = tokens y ++ r₂ → x = y ∧ r₁ = r₂

/-- The same where the same token stands behind both. -/
theorem Unique.before {T : Type} {tokens : T → List Token} {follow : Option Token → Prop} {x y : T}
    (hx : Unique tokens follow x) {t : Token} (ht : follow (some t)) {r₁ r₂ : List Token}
    (h : tokens x ++ t :: r₁ = tokens y ++ t :: r₂) : x = y ∧ r₁ = r₂ := by
  obtain ⟨rfl, hr⟩ := @hx y (t :: r₁) (t :: r₂) ht ht h
  exact ⟨rfl, (List.cons.inj hr).2⟩

/-- Different constants have different words. -/
theorem Constant.keyword_injective {a b : Constant} (h : a.keyword = b.keyword) : a = b := by
  cases a <;> cases b <;> first | rfl | exact absurd h (by decide)

/-- A term of one token is no call. -/
theorem Call.tokens_ne (target : Call) {t : Token} (ht : ∀ name, t ≠ .identifier name)
    (r₁ r₂ : List Token) : t :: r₁ ≠ target.tokens ++ r₂ := by
  intro h
  rcases target with ⟨_ | owner, name, args⟩
  · exact ht name (List.cons.inj h).1
  · exact ht owner (List.cons.inj h).1

/-- What may follow arguments. -/
def Closes (t : Option Token) : Prop := t = some (.symbol ')')

/-- What may follow arguments ends an expression. -/
theorem Closes.endsExpression {t : Option Token} (h : Closes t) : EndsExpression t := by
  rw [h]
  exact endsExpression_symbol (by simp)

/-- What stands behind an argument ends it. -/
theorem endsExpression_further (args : List Expression) {r : List Token} (h : Closes r.head?) :
    EndsExpression (furtherTokens args ++ r).head? := by
  cases args with
  | nil => exact h.endsExpression
  | cons arg args => exact endsExpression_symbol (by simp)

/-- What stands behind a term of a chain ends it. -/
theorem endsTerm_operations (ops : List (BinaryOp × Term)) {r : List Token}
    (h : EndsExpression r.head?) : EndsTerm (operationTokens ops ++ r).head? := by
  cases ops with
  | nil => exact h.1
  | cons x ops => exact BinaryOp.endsTerm x.1

/-- An operator does not end an expression. -/
theorem not_endsExpression_operator (op : BinaryOp) :
    ¬ EndsExpression (some (.symbol op.char)) := by
  rintro ⟨-, h⟩
  cases op <;> cases h

/-- Arguments do not begin with what may follow them. -/
theorem not_closes_argument (arg : Expression) (args : List Expression) (r : List Token) :
    ¬ Closes (argumentTokens (arg :: args) ++ r).head? := by
  intro h
  have hc := Expression.not_atSymbol (c := ')') (by simp) arg (furtherTokens args ++ r)
  rw [argumentTokens, List.append_assoc] at h
  rw [h] at hc
  simp [atSymbol] at hc

/-- The token behind the name of a call does not end a term. -/
theorem not_endsTerm_call (target : Call) (r : List Token) :
    ¬ EndsTerm (target.tokens ++ r).tail.head? := by
  rcases target with ⟨_ | owner, name, args⟩ <;> rintro ⟨-, h₁, h₂⟩
  · cases h₁
  · cases h₂

mutual

/-- No other term has the tokens of a term, in front of what ends one. -/
theorem Term.unique : (t : Term) → Unique Term.tokens EndsTerm t
  | .integer value => by
    intro y r₁ r₂ h₁ h₂ h
    cases y with
    | integer _ => simpa [Term.tokens] using h
    | call target => exact absurd h (target.tokens_ne (by simp) r₁ r₂)
    | _ => simp [Term.tokens] at h
  | .string content => by
    intro y r₁ r₂ h₁ h₂ h
    cases y with
    | string _ => simpa [Term.tokens] using h
    | call target => exact absurd h (target.tokens_ne (by simp) r₁ r₂)
    | _ => simp [Term.tokens] at h
  | .constant word => by
    intro y r₁ r₂ h₁ h₂ h
    cases y with
    | constant word' =>
      obtain ⟨hw, rfl⟩ := List.cons.inj h
      exact ⟨congrArg _ (Constant.keyword_injective (Token.keyword.inj hw)), rfl⟩
    | call target => exact absurd h (target.tokens_ne (by simp) r₁ r₂)
    | _ => simp [Term.tokens] at h
  | .var name => by
    intro y r₁ r₂ h₁ h₂ h
    cases y with
    | var _ => simpa [Term.tokens] using h
    | element array index =>
      obtain ⟨-, rfl⟩ := List.cons.inj h
      exact absurd h₁.1 (by simp [atSymbol])
    | call target =>
      have htail := congrArg (EndsTerm ·.tail.head?) h
      exact absurd (htail ▸ h₁) (not_endsTerm_call target r₂)
    | _ => simp [Term.tokens] at h
  | .element array index => by
    intro y r₁ r₂ h₁ h₂ h
    cases y with
    | var name =>
      obtain ⟨-, rfl⟩ := List.cons.inj h
      exact absurd h₂.1 (by simp [atSymbol])
    | element array' index' =>
      simp only [Term.tokens, List.cons_append, List.append_assoc, List.nil_append,
        List.cons.injEq, Token.identifier.injEq, true_and] at h
      obtain ⟨rfl, hindex⟩ := h
      obtain ⟨rfl, rfl⟩ := (Expression.unique index).before (endsExpression_symbol (by simp)) hindex
      exact ⟨rfl, rfl⟩
    | call target =>
      rcases target with ⟨_ | owner, name, args⟩ <;> simp [Term.tokens, Call.tokens] at h
    | _ => simp [Term.tokens] at h
  | .call target => by
    intro y r₁ r₂ h₁ h₂ h
    cases y with
    | var name =>
      have htail := congrArg (EndsTerm ·.tail.head?) h
      exact absurd (htail ▸ h₂) (not_endsTerm_call target r₁)
    | element array index =>
      rcases target with ⟨_ | owner, name, args⟩ <;> simp [Term.tokens, Call.tokens] at h
    | call target' =>
      obtain ⟨rfl, rfl⟩ := Call.unique target trivial trivial h
      exact ⟨rfl, rfl⟩
    | _ => exact absurd h.symm (target.tokens_ne (by simp) _ r₁)
  | .group inner => by
    intro y r₁ r₂ h₁ h₂ h
    cases y with
    | group inner' =>
      simp only [Term.tokens, List.cons_append, List.append_assoc, List.nil_append,
        List.cons.injEq, true_and] at h
      obtain ⟨rfl, rfl⟩ := (Expression.unique inner).before (endsExpression_symbol (by simp)) h
      exact ⟨rfl, rfl⟩
    | call target => exact absurd h (target.tokens_ne (by simp) _ r₂)
    | unary op operand => cases op <;> simp [Term.tokens, UnaryOp.char] at h
    | _ => simp [Term.tokens] at h
  | .unary op operand => by
    intro y r₁ r₂ h₁ h₂ h
    cases y with
    | group inner => cases op <;> simp [Term.tokens, UnaryOp.char] at h
    | call target => exact absurd h (target.tokens_ne (by simp) _ r₂)
    | unary op' operand' =>
      obtain ⟨hop, hoperand⟩ := List.cons.inj h
      obtain rfl := UnaryOp.char_injective (Token.symbol.inj hop)
      obtain ⟨rfl, rfl⟩ := Term.unique operand h₁ h₂ hoperand
      exact ⟨rfl, rfl⟩
    | _ => simp [Term.tokens] at h

/-- No other expression has the tokens of an expression, in front of what ends one. -/
theorem Expression.unique : (e : Expression) → Unique Expression.tokens EndsExpression e
  | .chain first ops => by
    rintro ⟨first', ops'⟩ r₁ r₂ h₁ h₂ h
    simp only [Expression.tokens, List.append_assoc] at h
    obtain ⟨rfl, hops⟩ := Term.unique first (endsTerm_operations ops h₁)
      (endsTerm_operations ops' h₂) h
    obtain ⟨rfl, rfl⟩ := operations_unique ops h₁ h₂ hops
    exact ⟨rfl, rfl⟩

theorem operations_unique : (ops : List (BinaryOp × Term)) →
    Unique operationTokens EndsExpression ops
  | [] => by
    rintro (_ | ⟨⟨op, t⟩, ops⟩) r₁ r₂ h₁ h₂ h
    · exact ⟨rfl, h⟩
    · rw [show r₁ = _ from h] at h₁
      exact absurd h₁ (not_endsExpression_operator op)
  | (op, t) :: ops => by
    rintro (_ | ⟨⟨op', t'⟩, ops'⟩) r₁ r₂ h₁ h₂ h
    · rw [show r₂ = _ from h.symm] at h₂
      exact absurd h₂ (not_endsExpression_operator op)
    · simp only [operationTokens, List.cons_append, List.append_assoc, List.cons.injEq,
        Token.symbol.injEq] at h
      obtain ⟨hop, ht⟩ := h
      obtain rfl := BinaryOp.char_injective hop
      obtain ⟨rfl, hops⟩ := Term.unique t (endsTerm_operations ops h₁)
        (endsTerm_operations ops' h₂) ht
      obtain ⟨rfl, rfl⟩ := operations_unique ops h₁ h₂ hops
      exact ⟨rfl, rfl⟩

/-- No other call has the tokens of a call, whatever follows. -/
theorem Call.unique : (target : Call) → Unique Call.tokens (fun _ => True) target
  | .mk none name args => by
    rintro ⟨_ | owner', name', args'⟩ r₁ r₂ - - h
    · simp only [Call.tokens, List.cons_append, List.append_assoc, List.nil_append,
        List.cons.injEq, Token.identifier.injEq, true_and] at h
      obtain ⟨rfl, hargs⟩ := h
      obtain ⟨rfl, rfl⟩ := (arguments_unique args).before rfl hargs
      exact ⟨rfl, rfl⟩
    · simp [Call.tokens] at h
  | .mk (some owner) name args => by
    rintro ⟨_ | owner', name', args'⟩ r₁ r₂ - - h
    · simp [Call.tokens] at h
    · simp only [Call.tokens, List.cons_append, List.append_assoc, List.nil_append,
        List.cons.injEq, Token.identifier.injEq, true_and] at h
      obtain ⟨rfl, rfl, hargs⟩ := h
      obtain ⟨rfl, rfl⟩ := (arguments_unique args).before rfl hargs
      exact ⟨rfl, rfl⟩

/-- No other arguments have the tokens of arguments, in front of a closing parenthesis. -/
theorem arguments_unique : (args : List Expression) → Unique argumentTokens Closes args
  | [] => by
    rintro (_ | ⟨arg', args'⟩) r₁ r₂ h₁ h₂ h
    · exact ⟨rfl, h⟩
    · rw [show r₁ = _ from h] at h₁
      exact absurd h₁ (not_closes_argument arg' args' r₂)
  | arg :: args => by
    rintro (_ | ⟨arg', args'⟩) r₁ r₂ h₁ h₂ h
    · rw [show r₂ = _ from h.symm] at h₂
      exact absurd h₂ (not_closes_argument arg args r₁)
    · simp only [argumentTokens, List.append_assoc] at h
      obtain ⟨rfl, hargs⟩ := Expression.unique arg (endsExpression_further args h₁)
        (endsExpression_further args' h₂) h
      obtain ⟨rfl, rfl⟩ := further_unique args h₁ h₂ hargs
      exact ⟨rfl, rfl⟩

theorem further_unique : (args : List Expression) → Unique furtherTokens Closes args
  | [] => by
    rintro (_ | ⟨arg', args'⟩) r₁ r₂ h₁ h₂ h
    · exact ⟨rfl, h⟩
    · rw [show r₁ = _ from h] at h₁
      exact absurd h₁ (by simp [furtherTokens, Closes])
  | arg :: args => by
    rintro (_ | ⟨arg', args'⟩) r₁ r₂ h₁ h₂ h
    · rw [show r₂ = _ from h.symm] at h₂
      exact absurd h₂ (by simp [furtherTokens, Closes])
    · simp only [furtherTokens, List.cons_append, List.append_assoc, List.cons.injEq,
        true_and] at h
      obtain ⟨rfl, hargs⟩ := Expression.unique arg (endsExpression_further args h₁)
        (endsExpression_further args' h₂) h
      obtain ⟨rfl, rfl⟩ := further_unique args h₁ h₂ hargs
      exact ⟨rfl, rfl⟩

end

/-! ## Statements -/

/-- What may follow the statements of a block. -/
def ClosesBlock (t : Option Token) : Prop := t = some (.symbol '}')

/-- A statement does not begin with a closing brace. -/
theorem not_closesBlock_statement (s : Statement) (r : List Token) :
    ¬ ClosesBlock (s.tokens ++ r).head? := by
  intro h
  have hs := Statement.atStatement_head? s r
  rw [h] at hs
  cases hs

/-- What stands behind a statement of a block ends it. -/
theorem endsStatement_block (b : List Statement) {r : List Token} (h : ClosesBlock r.head?) :
    EndsStatement (blockTokens b ++ r).head? := by
  cases b with
  | nil =>
    rw [show (blockTokens [] ++ r).head? = _ from h]
    exact (rfl : atKeyword .elseKw (some (.symbol '}')) = false)
  | cons s b =>
    rw [blockTokens, List.append_assoc]
    exact Statement.endsStatement_head? s _

/-- An expression does not begin with a semicolon. -/
theorem Expression.tokens_ne_semicolon (e : Expression) (r₁ r₂ : List Token) :
    e.tokens ++ r₁ ≠ .symbol ';' :: r₂ := by
  intro h
  have hc := Expression.not_atSymbol (c := ';') (by simp) e r₁
  rw [h] at hc
  simp [atSymbol] at hc

/-- The word `else` does not end a statement. -/
theorem not_endsStatement_else (r : List Token) :
    ¬ EndsStatement (Token.keyword .elseKw :: r).head? := by
  intro h
  cases h

mutual

/-- No other statement has the tokens of a statement, where the word `else` does not follow. -/
theorem Statement.unique : (s : Statement) → Unique Statement.tokens EndsStatement s
  | .assign name value => by
    intro y r₁ r₂ h₁ h₂ h
    cases y with
    | assign name' value' =>
      simp only [Statement.tokens, List.cons_append, List.append_assoc, List.nil_append,
        List.cons.injEq, Token.identifier.injEq, true_and] at h
      obtain ⟨rfl, hvalue⟩ := h
      obtain ⟨rfl, rfl⟩ := (Expression.unique value).before (endsExpression_symbol (by simp)) hvalue
      exact ⟨rfl, rfl⟩
    | giveBack value => cases value <;> simp [Statement.tokens] at h
    | _ => simp [Statement.tokens] at h
  | .assignElement array index value => by
    intro y r₁ r₂ h₁ h₂ h
    cases y with
    | assignElement array' index' value' =>
      simp only [Statement.tokens, List.cons_append, List.append_assoc, List.nil_append,
        List.cons.injEq, Token.identifier.injEq, true_and] at h
      obtain ⟨rfl, hindex⟩ := h
      obtain ⟨rfl, hr⟩ := (Expression.unique index).before (endsExpression_symbol (by simp)) hindex
      obtain ⟨rfl, rfl⟩ := (Expression.unique value).before (endsExpression_symbol (by simp))
        (List.cons.inj hr).2
      exact ⟨rfl, rfl⟩
    | giveBack value => cases value <;> simp [Statement.tokens] at h
    | _ => simp [Statement.tokens] at h
  | .ifThen condition block => by
    intro y r₁ r₂ h₁ h₂ h
    cases y with
    | ifThen condition' block' =>
      simp only [Statement.tokens, List.cons_append, List.append_assoc, List.nil_append,
        List.cons.injEq, true_and] at h
      obtain ⟨rfl, hr⟩ := (Expression.unique condition).before (endsExpression_symbol (by simp)) h
      obtain ⟨rfl, rfl⟩ := (block_unique block).before rfl (List.cons.inj hr).2
      exact ⟨rfl, rfl⟩
    | ifElse condition' block' other' =>
      simp only [Statement.tokens, List.cons_append, List.append_assoc, List.nil_append,
        List.cons.injEq, true_and] at h
      obtain ⟨rfl, hr⟩ := (Expression.unique condition).before (endsExpression_symbol (by simp)) h
      obtain ⟨rfl, rfl⟩ := (block_unique block).before rfl (List.cons.inj hr).2
      exact absurd h₁ (not_endsStatement_else _)
    | giveBack value => cases value <;> simp [Statement.tokens] at h
    | _ => simp [Statement.tokens] at h
  | .ifElse condition block other => by
    intro y r₁ r₂ h₁ h₂ h
    cases y with
    | ifThen condition' block' =>
      simp only [Statement.tokens, List.cons_append, List.append_assoc, List.nil_append,
        List.cons.injEq, true_and] at h
      obtain ⟨rfl, hr⟩ := (Expression.unique condition).before (endsExpression_symbol (by simp)) h
      obtain ⟨rfl, rfl⟩ := (block_unique block).before rfl (List.cons.inj hr).2
      exact absurd h₂ (not_endsStatement_else _)
    | ifElse condition' block' other' =>
      simp only [Statement.tokens, List.cons_append, List.append_assoc, List.nil_append,
        List.cons.injEq, true_and] at h
      obtain ⟨rfl, hr⟩ := (Expression.unique condition).before (endsExpression_symbol (by simp)) h
      obtain ⟨rfl, hr'⟩ := (block_unique block).before rfl (List.cons.inj hr).2
      simp only [List.cons.injEq, true_and] at hr'
      obtain ⟨rfl, rfl⟩ := (block_unique other).before rfl hr'
      exact ⟨rfl, rfl⟩
    | giveBack value => cases value <;> simp [Statement.tokens] at h
    | _ => simp [Statement.tokens] at h
  | .whileLoop condition block => by
    intro y r₁ r₂ h₁ h₂ h
    cases y with
    | whileLoop condition' block' =>
      simp only [Statement.tokens, List.cons_append, List.append_assoc, List.nil_append,
        List.cons.injEq, true_and] at h
      obtain ⟨rfl, hr⟩ := (Expression.unique condition).before (endsExpression_symbol (by simp)) h
      obtain ⟨rfl, rfl⟩ := (block_unique block).before rfl (List.cons.inj hr).2
      exact ⟨rfl, rfl⟩
    | giveBack value => cases value <;> simp [Statement.tokens] at h
    | _ => simp [Statement.tokens] at h
  | .perform target => by
    intro y r₁ r₂ h₁ h₂ h
    cases y with
    | perform target' =>
      simp only [Statement.tokens, List.cons_append, List.append_assoc, List.nil_append,
        List.cons.injEq, true_and] at h
      obtain ⟨rfl, rfl⟩ := (Call.unique target).before trivial h
      exact ⟨rfl, rfl⟩
    | giveBack value => cases value <;> simp [Statement.tokens] at h
    | _ => simp [Statement.tokens] at h
  | .giveBack value => by
    intro y r₁ r₂ h₁ h₂ h
    cases y with
    | giveBack value' =>
      rcases value with _ | value <;> rcases value' with _ | value'
      · simpa [Statement.tokens] using h
      · simp only [Statement.tokens, List.cons_append, List.append_assoc, List.cons.injEq,
          true_and] at h
        exact absurd h.symm (Expression.tokens_ne_semicolon value' _ _)
      · simp only [Statement.tokens, List.cons_append, List.append_assoc, List.cons.injEq,
          true_and] at h
        exact absurd h (Expression.tokens_ne_semicolon value _ _)
      · simp only [Statement.tokens, List.cons_append, List.append_assoc, List.nil_append,
          List.cons.injEq, true_and] at h
        obtain ⟨rfl, rfl⟩ := (Expression.unique value).before (endsExpression_symbol (by simp)) h
        exact ⟨rfl, rfl⟩
    | _ => cases value <;> simp [Statement.tokens] at h

theorem block_unique : (b : List Statement) → Unique blockTokens ClosesBlock b
  | [] => by
    rintro (_ | ⟨s', b'⟩) r₁ r₂ h₁ h₂ h
    · exact ⟨rfl, h⟩
    · rw [show r₁ = _ from h, blockTokens, List.append_assoc] at h₁
      exact absurd h₁ (not_closesBlock_statement s' _)
  | s :: b => by
    rintro (_ | ⟨s', b'⟩) r₁ r₂ h₁ h₂ h
    · rw [show r₂ = _ from h.symm, blockTokens, List.append_assoc] at h₂
      exact absurd h₂ (not_closesBlock_statement s _)
    · simp only [blockTokens, List.append_assoc] at h
      obtain ⟨rfl, hb⟩ := Statement.unique s (endsStatement_block b h₁)
        (endsStatement_block b' h₂) h
      obtain ⟨rfl, rfl⟩ := block_unique b h₁ h₂ hb
      exact ⟨rfl, rfl⟩

end

/-! ## Classes -/

/-- Different types have different tokens. -/
theorem TypeName.token_injective {a b : TypeName} (h : a.token = b.token) : a = b := by
  cases a <;> cases b <;> simp_all [TypeName.token]

/-- No type has the token of `void`. -/
theorem returnToken_injective {a b : Option TypeName} (h : returnToken a = returnToken b) :
    a = b := by
  rcases a with _ | _ | _ | _ | _ <;> rcases b with _ | _ | _ | _ | _ <;>
    simp_all [returnToken, TypeName.token]

/-- Different kinds of subroutines have different words. -/
theorem subKeyword_injective {a b : SubKind} (h : subKeyword a = subKeyword b) : a = b := by
  cases a <;> cases b <;> first | rfl | exact absurd h (by decide)

/-- Static variables and fields have different words. -/
theorem Sharing.keyword_injective {a b : Sharing} (h : a.keyword = b.keyword) : a = b := by
  cases a <;> cases b <;> first | rfl | exact absurd h (by decide)

/-- Items one behind the other are as unambiguous as one of them, if no item begins like what
may follow them all. -/
theorem flatMap_unique {T : Type} (tokens : T → List Token) (stop : Option Token → Prop)
    (h : ∀ x, Unique tokens (fun _ => True) x) (hstop : ∀ x r, ¬ stop (tokens x ++ r).head?)
    (xs : List T) : Unique (fun xs : List T => xs.flatMap tokens) stop xs := by
  induction xs with
  | nil =>
    rintro (_ | ⟨y, ys⟩) r₁ r₂ h₁ h₂ heq
    · exact ⟨rfl, heq⟩
    · simp only [List.flatMap_nil, List.flatMap_cons, List.nil_append, List.append_assoc] at heq
      exact absurd (heq ▸ h₁) (hstop y _)
  | cons x xs ih =>
    rintro (_ | ⟨y, ys⟩) r₁ r₂ h₁ h₂ heq
    · simp only [List.flatMap_nil, List.flatMap_cons, List.nil_append, List.append_assoc] at heq
      exact absurd (heq ▸ h₂) (hstop x _)
    · simp only [List.flatMap_cons, List.append_assoc] at heq
      obtain ⟨rfl, hxs⟩ := h x trivial trivial heq
      obtain ⟨rfl, rfl⟩ := ih h₁ h₂ hxs
      exact ⟨rfl, rfl⟩

/-- No other names have the tokens of names, in front of a semicolon. -/
theorem nameTokens_unique (names : List String) :
    Unique nameTokens (· = some (.symbol ';')) names := by
  refine flatMap_unique _ _ (fun x y r₁ r₂ _ _ h => ?_) (fun x r h => ?_) names
  · simpa using h
  · simp at h

/-- No other group of variables has the tokens of a group, since a semicolon ends it. -/
theorem Group.unique (g : Group) : Unique Group.tokens (fun _ => True) g := by
  obtain ⟨type, first, others⟩ := g
  rintro ⟨type', first', others'⟩ r₁ r₂ - - h
  simp only [Group.tokens, List.cons_append, List.append_assoc, List.nil_append, List.cons.injEq,
    Token.identifier.injEq] at h
  obtain ⟨htype, rfl, hothers⟩ := h
  obtain rfl := TypeName.token_injective htype
  obtain ⟨rfl, rfl⟩ := (nameTokens_unique others).before rfl hothers
  exact ⟨rfl, rfl⟩

/-- No other group of class variables has the tokens of a group. -/
theorem ClassGroup.unique (g : ClassGroup) : Unique ClassGroup.tokens (fun _ => True) g := by
  obtain ⟨sharing, group⟩ := g
  rintro ⟨sharing', group'⟩ r₁ r₂ - - h
  obtain ⟨hsharing, hgroup⟩ := List.cons.inj h
  obtain rfl := Sharing.keyword_injective (Token.keyword.inj hsharing)
  obtain ⟨rfl, rfl⟩ := Group.unique group trivial trivial hgroup
  exact ⟨rfl, rfl⟩

/-- A parameter is two tokens, and these tell it. -/
theorem Parameter.tokens_inj {p q : Parameter} {r₁ r₂ : List Token}
    (h : p.tokens ++ r₁ = q.tokens ++ r₂) : p = q ∧ r₁ = r₂ := by
  obtain ⟨type, name⟩ := p
  obtain ⟨type', name'⟩ := q
  simp only [Parameter.tokens, List.cons_append, List.nil_append, List.cons.injEq,
    Token.identifier.injEq] at h
  obtain ⟨htype, rfl, rfl⟩ := h
  exact ⟨by rw [TypeName.token_injective htype], rfl⟩

/-- No other parameters have the tokens of parameters, in front of a closing parenthesis. -/
theorem parameterTokens_unique (ps : List Parameter) : Unique parameterTokens Closes ps := by
  have hothers := flatMap_unique (fun q : Parameter => .symbol ',' :: q.tokens) Closes
    (fun x y r₁ r₂ _ _ h => Parameter.tokens_inj (List.cons.inj h).2)
    (fun x r h => by simp [Closes] at h)
  have hstart : ∀ (q : Parameter) r, ¬ Closes (q.tokens ++ r).head? := by
    rintro ⟨type, name⟩ r h
    cases type <;> cases h
  intro qs r₁ r₂ h₁ h₂ h
  rcases ps with _ | ⟨p, ps⟩ <;> rcases qs with _ | ⟨q, qs⟩
  · exact ⟨rfl, h⟩
  · rw [show r₁ = _ from h, parameterTokens, List.append_assoc] at h₁
    exact absurd h₁ (hstart q _)
  · rw [show r₂ = _ from h.symm, parameterTokens, List.append_assoc] at h₂
    exact absurd h₂ (hstart p _)
  · simp only [parameterTokens, List.append_assoc] at h
    obtain ⟨rfl, hps⟩ := Parameter.tokens_inj h
    obtain ⟨rfl, rfl⟩ := hothers ps h₁ h₂ hps
    exact ⟨rfl, rfl⟩

/-- What may follow the `var` declarations of a body. -/
def BeginsBlock (t : Option Token) : Prop := ClosesBlock t ∨ atStatement t = true

/-- A block and the brace behind it begin as a block does. -/
theorem beginsBlock (b : List Statement) (r : List Token) :
    BeginsBlock (blockTokens b ++ .symbol '}' :: r).head? := by
  cases b with
  | nil => exact .inl rfl
  | cons s b =>
    rw [blockTokens, List.append_assoc]
    exact .inr (Statement.atStatement_head? s _)

/-- No other local variables have the tokens of local variables, in front of a block. -/
theorem localTokens_unique (locals : List Group) : Unique localTokens BeginsBlock locals := by
  refine flatMap_unique _ _ (fun x y r₁ r₂ _ _ h => ?_) (fun x r h => ?_) locals
  · exact Group.unique x trivial trivial (List.cons.inj h).2
  · rcases h with h | h <;> cases h

/-- No other subroutine has the tokens of a subroutine, whatever follows. -/
theorem Subroutine.unique (s : Subroutine) : Unique Subroutine.tokens (fun _ => True) s := by
  obtain ⟨kind, returns, name, ps, locals, body⟩ := s
  rintro ⟨kind', returns', name', ps', locals', body'⟩ r₁ r₂ - - h
  simp only [Subroutine.tokens, List.cons_append, List.append_assoc, List.nil_append,
    List.cons.injEq, Token.identifier.injEq, Token.keyword.injEq, true_and] at h
  obtain ⟨hkind, hreturns, rfl, hps⟩ := h
  obtain rfl := subKeyword_injective hkind
  obtain rfl := returnToken_injective hreturns
  obtain ⟨rfl, hlocals⟩ := (parameterTokens_unique ps).before rfl hps
  obtain ⟨rfl, hbody⟩ := localTokens_unique locals (beginsBlock body r₁) (beginsBlock body' r₂)
    (List.cons.inj hlocals).2
  obtain ⟨rfl, rfl⟩ := (block_unique body).before rfl hbody
  exact ⟨rfl, rfl⟩

/-- What may follow the class variables. -/
def BeginsSubs (t : Option Token) : Prop := ClosesBlock t ∨ (subKind? t).isSome

/-- Subroutines and the brace behind them begin as subroutines do. -/
theorem beginsSubs (subs : List Subroutine) (r : List Token) :
    BeginsSubs (subs.flatMap Subroutine.tokens ++ .symbol '}' :: r).head? := by
  cases subs with
  | nil => exact .inl rfl
  | cons s subs =>
    refine .inr (Option.isSome_iff_exists.mpr ⟨s.kind, subKind?_eq_some_iff.mpr rfl⟩)

/-- The tokens of a class determine it. -/
theorem Class.tokens_injective {c d : Class} (h : c.tokens = d.tokens) : c = d := by
  obtain ⟨name, groups, subs⟩ := c
  obtain ⟨name', groups', subs'⟩ := d
  simp only [Class.tokens, List.cons_append, List.append_assoc, List.cons.injEq,
    Token.identifier.injEq, true_and] at h
  obtain ⟨rfl, hgroups⟩ := h
  have hgroup := flatMap_unique _ BeginsSubs ClassGroup.unique (fun g r h => by
    obtain ⟨_ | _, group⟩ := g <;> rcases h with h | h <;> cases h) groups
  obtain ⟨rfl, hsubs⟩ := hgroup (beginsSubs subs []) (beginsSubs subs' []) hgroups
  have hsub := flatMap_unique _ ClosesBlock Subroutine.unique (fun s r h => by cases h) subs
  obtain ⟨rfl, -⟩ := hsub.before rfl hsubs
  rfl

end Tree

end JackStack
