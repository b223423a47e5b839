import JackStack.Proofs.Code.Reference
import JackStack.Proofs.Grammar.Completeness

/-!
# Numbers are bounded by tokens

Every variable and every argument takes a token of its own, so a class with fewer tokens than an
operand has values cannot count beyond its operands.
-/

namespace JackStack.Tree

open JackStack.Syntax

/-- Every expression has a token. -/
theorem Expression.length_tokens_pos (e : Expression) : 0 < e.tokens.length := by
  obtain ⟨first, ops⟩ := e
  have h := Term.tokens_ne_nil first
  rw [Expression.tokens, List.length_append]
  omega

/-- Every argument behind a comma has a token of its own. -/
theorem length_le_length_furtherTokens (args : List Expression) :
    args.length ≤ (furtherTokens args).length := by
  induction args with
  | nil => exact Nat.le_refl 0
  | cons arg args ih =>
    simp only [furtherTokens, List.cons_append, List.length_cons, List.length_append]
    omega

/-- Every argument has a token of its own. -/
theorem length_le_length_argumentTokens (args : List Expression) :
    args.length ≤ (argumentTokens args).length := by
  cases args with
  | nil => exact Nat.le_refl 0
  | cons arg args =>
    have harg := arg.length_tokens_pos
    have hargs := length_le_length_furtherTokens args
    simp only [argumentTokens, List.length_cons, List.length_append]
    omega

/-! ## Arguments -/

mutual

/-- The tokens of a term outnumber the arguments of every call in it, by two at least. -/
theorem Term.arguments_lt {n : Nat} : (t : Term) → .arguments n ∈ t.demands →
    n + 1 < t.tokens.length
  | .integer _, h => by simp [Term.demands] at h
  | .string _, h => by simp [Term.demands] at h
  | .constant _, h => by simp [Term.demands] at h
  | .var _, h => by simp [Term.demands] at h
  | .element _ index, h => by
    have hlt := Expression.arguments_lt index (by simpa [Term.demands] using h)
    simp only [Term.tokens, List.cons_append, List.length_cons, List.length_append]
    omega
  | .call target, h => Call.arguments_lt target h
  | .group inner, h => by
    have hlt := Expression.arguments_lt inner h
    simp only [Term.tokens, List.cons_append, List.length_cons, List.length_append]
    omega
  | .unary _ operand, h => by
    have hlt := Term.arguments_lt operand h
    simp only [Term.tokens, List.length_cons]
    omega

/-- The tokens of an expression outnumber the arguments of every call in it, by two at least. -/
theorem Expression.arguments_lt {n : Nat} : (e : Expression) → .arguments n ∈ e.demands →
    n + 1 < e.tokens.length
  | .chain first ops, h => by
    rw [Expression.tokens, List.length_append]
    rcases List.mem_append.mp h with h | h
    · have hlt := Term.arguments_lt first h
      omega
    · have hlt := operations_arguments_lt ops h
      omega

theorem operations_arguments_lt {n : Nat} : (ops : List (BinaryOp × Term)) →
    .arguments n ∈ operationDemands ops → n + 1 < (operationTokens ops).length
  | [], h => absurd h List.not_mem_nil
  | (_, operand) :: rest, h => by
    simp only [operationTokens, List.cons_append, List.length_cons, List.length_append]
    rcases List.mem_append.mp h with h | h
    · have hlt := Term.arguments_lt operand h
      omega
    · have hlt := operations_arguments_lt rest h
      omega

/-- A call has its name and its parentheses beside a token for every argument. -/
theorem Call.arguments_lt {n : Nat} : (target : Call) → .arguments n ∈ target.demands →
    n + 1 < target.tokens.length
  | .mk none name args, h => by
    have hle := length_le_length_argumentTokens args
    simp only [Call.tokens, List.cons_append, List.length_cons, List.length_append]
    rcases List.mem_cons.mp h with h | h
    · cases h
      omega
    · have hlt := arguments_arguments_lt args h
      omega
  | .mk (some owner) name args, h => by
    have hle := length_le_length_argumentTokens args
    simp only [Call.tokens, List.cons_append, List.length_cons, List.length_append]
    rcases List.mem_cons.mp h with h | h
    · cases h
      omega
    · have hlt := arguments_arguments_lt args h
      omega

theorem arguments_arguments_lt {n : Nat} : (args : List Expression) →
    .arguments n ∈ argumentDemands args → n + 1 < (argumentTokens args).length
  | [], h => absurd h List.not_mem_nil
  | arg :: rest, h => by
    simp only [argumentTokens, List.length_append]
    rcases List.mem_append.mp h with h | h
    · have hlt := Expression.arguments_lt arg h
      omega
    · have hlt := further_arguments_lt rest h
      omega

theorem further_arguments_lt {n : Nat} : (args : List Expression) →
    .arguments n ∈ argumentDemands args → n + 1 < (furtherTokens args).length
  | [], h => absurd h List.not_mem_nil
  | arg :: rest, h => by
    simp only [furtherTokens, List.cons_append, List.length_cons, List.length_append]
    rcases List.mem_append.mp h with h | h
    · have hlt := Expression.arguments_lt arg h
      omega
    · have hlt := further_arguments_lt rest h
      omega

end

mutual

/-- The tokens of a statement outnumber the arguments of every call in it, by two at least. -/
theorem Statement.arguments_lt {n : Nat} : (s : Statement) → .arguments n ∈ s.demands →
    n + 1 < s.tokens.length
  | .assign _ value, h => by
    have hlt := Expression.arguments_lt value (by simpa [Statement.demands] using h)
    simp only [Statement.tokens, List.cons_append, List.length_cons, List.length_append]
    omega
  | .assignElement _ index value, h => by
    simp only [Statement.tokens, List.cons_append, List.length_cons, List.length_append]
    rcases List.mem_append.mp h with h | h
    · have hlt := Expression.arguments_lt index (by simpa using h)
      omega
    · have hlt := Expression.arguments_lt value h
      omega
  | .ifThen condition block, h => by
    simp only [Statement.tokens, List.cons_append, List.length_cons, List.length_append]
    rcases List.mem_append.mp h with h | h
    · have hlt := Expression.arguments_lt condition h
      omega
    · have hlt := block_arguments_lt block h
      omega
  | .ifElse condition block other, h => by
    simp only [Statement.tokens, List.cons_append, List.length_cons, List.length_append]
    rcases List.mem_append.mp h with h | h
    · rcases List.mem_append.mp h with h | h
      · have hlt := Expression.arguments_lt condition h
        omega
      · have hlt := block_arguments_lt block h
        omega
    · have hlt := block_arguments_lt other h
      omega
  | .whileLoop condition block, h => by
    simp only [Statement.tokens, List.cons_append, List.length_cons, List.length_append]
    rcases List.mem_append.mp h with h | h
    · have hlt := Expression.arguments_lt condition h
      omega
    · have hlt := block_arguments_lt block h
      omega
  | .perform target, h => by
    have hlt := Call.arguments_lt target h
    simp only [Statement.tokens, List.cons_append, List.length_cons, List.length_append]
    omega
  | .giveBack none, h => absurd h List.not_mem_nil
  | .giveBack (some value), h => by
    have hlt := Expression.arguments_lt value h
    simp only [Statement.tokens, List.cons_append, List.length_cons, List.length_append]
    omega

theorem block_arguments_lt {n : Nat} : (b : List Statement) → .arguments n ∈ blockDemands b →
    n + 1 < (blockTokens b).length
  | [], h => absurd h List.not_mem_nil
  | s :: rest, h => by
    rw [blockTokens, List.length_append]
    rcases List.mem_append.mp h with h | h
    · have hlt := Statement.arguments_lt s h
      omega
    · have hlt := block_arguments_lt rest h
      omega

end

/-! ## Variables -/

/-- Lists made of longer parts are longer. -/
theorem length_flatMap_le {α β γ : Type} {f : α → List β} {g : α → List γ}
    (h : ∀ x, (f x).length ≤ (g x).length) (xs : List α) :
    (xs.flatMap f).length ≤ (xs.flatMap g).length := by
  induction xs with
  | nil => exact Nat.le_refl 0
  | cons x xs ih =>
    have hx := h x
    simp only [List.flatMap_cons, List.length_append]
    omega

/-- Every variable of a group has a token of its own. -/
theorem Group.length_declarations_le (kind : VarKind) (g : Group) :
    (g.declarations kind).length ≤ g.tokens.length := by
  simp [Group.declarations, Group.names, Group.tokens, nameTokens, List.length_flatMap]
  omega

/-- Every parameter has a token of its own. -/
theorem length_le_length_parameterTokens (ps : List Parameter) :
    ps.length ≤ (parameterTokens ps).length := by
  cases ps with
  | nil => exact Nat.le_refl 0
  | cons p ps =>
    simp [parameterTokens, Parameter.tokens, List.length_flatMap]
    omega

/-- The numbers of a subroutine with few tokens fit their operands. -/
theorem Subroutine.fits_of_length {s : Subroutine} (h : s.tokens.length < operandLimit) :
    s.Fits := by
  have hp := length_le_length_parameterTokens s.parameters
  have hl : (s.locals.flatMap (Group.declarations .local)).length ≤
      (localTokens s.locals).length := length_flatMap_le (fun g =>
    Nat.le_succ_of_le (g.length_declarations_le .local)) s.locals
  simp only [Subroutine.tokens, List.cons_append, List.length_cons, List.length_append] at h
  constructor
  · simp only [Subroutine.declarations, List.length_append, List.length_map]
    omega
  · intro n hn
    have hlt := block_arguments_lt s.body hn
    omega

/-- A class with fewer tokens than an operand has values fits. -/
theorem Class.fits_of_length {c : Class} (h : c.tokens.length < operandLimit) : c.Fits := by
  have hg : c.declarations.length ≤ (c.groups.flatMap ClassGroup.tokens).length := by
    refine length_flatMap_le (fun g => ?_) c.groups
    obtain ⟨_ | _, group⟩ := g <;> exact Nat.le_succ_of_le (group.length_declarations_le _)
  simp only [Class.tokens, List.cons_append, List.length_cons, List.length_append] at h
  refine ⟨by omega, fun s hs => Subroutine.fits_of_length ?_⟩
  have hs : s.tokens.length ≤ (c.subroutines.flatMap Subroutine.tokens).length :=
    (List.sublist_flatten_of_mem (List.mem_map_of_mem hs)).length_le
  omega

end JackStack.Tree
