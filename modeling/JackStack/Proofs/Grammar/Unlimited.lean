import JackStack.Proofs.Grammar.Descent
import JackStack.Proofs.Grammar.Truncation

/-!
# Recognition without a limit

The recognisers are nested at most as deep, and their loops go on at most as often, as they are told
to. Where the limits are not below the number of lexemes and outcomes that remain, they are never
reached: the recognisers follow their plans, and do so in the only possible way.
-/

namespace JackStack.Syntax

open JackStack.Parser

/-! ## Recognisers with limits -/

/-- The round of a loop, with a limit to what is nested in it. -/
def roundOf (limit : Nat) : Loop → Parser Unit
  | .operators => operation (term limit)
  | .arguments => do
    advance
    expression limit
  | .names kind type => do
    advance
    declaration kind type
  | .parameters => do
    advance
    parameter
  | .locals => localVariables limit
  | .classVariables => classVariables limit
  | .subroutines => subroutine limit
  | .statements => statement limit

/-- The recognisers of the productions, nested at most `limit` deep, where a loop that is visited
goes on for at most a number of rounds. -/
def limited (limit rounds : Nat) : Recognisers
  | .program => program limit
  | .classDeclaration => classDeclaration limit
  | .classVariables => classVariables limit
  | .subroutine => subroutine limit
  | .parameters => parameters limit
  | .body => body limit
  | .localVariables => localVariables limit
  | .statement => statement limit
  | .letStatement => letStatement limit
  | .ifStatement => ifStatement (statement limit) limit
  | .whileStatement => whileStatement (statement limit) limit
  | .doStatement => doStatement limit
  | .returnStatement => returnStatement limit
  | .expression => expression limit
  | .term => term limit
  | .call => call (expression limit) limit
  | .arguments => arguments (expression limit) limit
  | .loop l => repeatWhile l.test (roundOf limit l) rounds

/-! ## Plans with limits -/

namespace Production

/-- The limits for what a production visits. -/
def inner (limit rounds : Nat) : Production → Nat × Nat
  | term | statement => (limit - 1, limit - 1)
  | loop _ => (limit, rounds - 1)
  | _ => (limit, limit)

/-- The limits allow another visit. -/
def Open (limit rounds : Nat) : Production → Prop
  | term | statement => 0 < limit
  | loop _ => 0 < rounds
  | _ => True

end Production

section Equations

variable (n k : Nat)

/-- The plan of declarations, followed with limits, is their recogniser. -/
theorem run_declarations (kind : VarKind) :
    (Plan.declarations kind).run (limited n n) = declarations kind n := by
  simp [limited, declarations, commaSeparated, Plan.declarations, Loop.test, roundOf]

/-- The plan of a term that begins with a symbol, followed with limits, is its recogniser. -/
theorem run_symbolTerm (c : Char) :
    (Plan.symbolTerm c).run (limited n n) = symbolTerm (term n) n c := by
  unfold Plan.symbolTerm symbolTerm
  split <;> simp [limited, expression]

/-- The plan of a term that begins with a name, followed with limits, is its recogniser. -/
theorem run_named (name : String) (pos : Position) :
    (Plan.named name pos).run (limited n n) = named (chain (term n) n) n name pos := by
  simp [limited, named, expression, Plan.named]

/-- The plan of a term, followed with a limit, is the recogniser with a limit higher by one. -/
theorem run_term : Plan.term.run (limited n n) = term (n + 1) := by
  simp only [term, termWith, Plan.term, Plan.run_bind, Plan.run_lift]
  congr 1
  funext pos
  congr 1
  funext token
  rcases token with _ | word | c | name | value | content
  · exact Plan.run_lift _ _
  · exact Plan.run_lift _ _
  · exact run_symbolTerm n c
  · exact run_named n name pos
  · simp
  · simp

/-- The plan of a statement, followed with a limit, is the recogniser with a limit higher by one. -/
theorem run_statement : Plan.statement.run (limited n n) = statement (n + 1) := by
  simp only [statement, Plan.statement, Plan.run_bind, Plan.run_lift]
  congr 1
  funext token
  split <;> simp [limited]

/-- What a round does in front of a token. -/
theorem run_round (l : Loop) (c : Cursor) :
    (l.plan c.token).run (limited n k) c = roundOf n l c := by
  cases l with
  | operators =>
    rw [roundOf, operation, look_bind_apply]
    cases hop : BinaryOp.ofToken? c.token with
    | none => simp [Loop.plan, hop]
    | some op => simp [Loop.plan, hop, limited]
  | _ => simp [Loop.plan, limited, roundOf]

/-- The plan of a loop, followed with a number of rounds, is the recogniser with one round more. -/
theorem run_rounds (l : Loop) :
    (Plan.rounds l).run (limited n k) = repeatWhile l.test (roundOf n l) (k + 1) := by
  funext c
  have hround : ∀ f : Unit → Parser Nat,
      ((l.plan c.token).run (limited n k) >>= f) c = (roundOf n l >>= f) c := by
    intro f
    change Parser.bind _ f c = Parser.bind _ f c
    rw [Parser.bind, Parser.bind, run_round]
  rw [repeatWhile, Plan.rounds, Plan.run_bind, Plan.run_lift, look_bind_apply, look_bind_apply]
  cases l.test c.token with
  | false => rfl
  | true =>
    simp only [if_true, Plan.run_bind, Plan.run_count, Plan.run_pure, hround]
    rfl

end Equations

/-- As long as the limits allow it, recognition follows the plan of its production. -/
theorem limited_eq {limit rounds : Nat} {p : Production} (h : p.Open limit rounds) :
    limited limit rounds p =
      p.plan.run (limited (p.inner limit rounds).1 (p.inner limit rounds).2) := by
  cases p with
  | program => simp [limited, program, Production.plan, Production.inner, Plan.program]
  | classDeclaration =>
    simp [limited, classDeclaration, Production.plan, Production.inner, Plan.classDeclaration,
      Loop.test, roundOf]
  | classVariables =>
    simp only [limited, classVariables, Production.plan, Production.inner, Plan.classVariables,
      Plan.run_bind, Plan.run_lift]
    congr 1
    funext token
    cases classVarKind? token <;> simp [run_declarations]
  | subroutine =>
    simp only [limited, subroutine, Production.plan, Production.inner, Plan.subroutine,
      Plan.run_bind, Plan.run_lift]
    congr 1
    funext token
    cases subKind? token <;> simp [limited]
  | parameters =>
    simp [limited, parameters, commaSeparated, Production.plan, Production.inner, Plan.parameters,
      Loop.test, roundOf]
  | body =>
    simp [limited, body, Production.plan, Production.inner, Plan.body, Loop.test, roundOf]
  | localVariables =>
    simp [limited, localVariables, Production.plan, Production.inner, Plan.localVariables,
      run_declarations]
  | letStatement =>
    simp [limited, letStatement, assignment, Production.plan, Production.inner, Plan.letStatement,
      Plan.assignment]
  | ifStatement =>
    simp [limited, ifStatement, block, Production.plan, Production.inner, Plan.ifStatement,
      Plan.block, Loop.test, roundOf]
  | whileStatement =>
    simp [limited, whileStatement, block, Production.plan, Production.inner, Plan.whileStatement,
      Plan.block, Loop.test, roundOf]
  | doStatement => simp [limited, doStatement, Production.plan, Production.inner, Plan.doStatement]
  | returnStatement =>
    simp [limited, returnStatement, Production.plan, Production.inner, Plan.returnStatement]
  | expression =>
    simp [limited, expression, chain, Production.plan, Production.inner, Plan.expression,
      Loop.test, roundOf]
  | call =>
    simp [limited, call, callWith, Production.plan, Production.inner, Plan.call, Plan.callWith]
  | arguments =>
    simp [limited, arguments, commaSeparated, Production.plan, Production.inner, Plan.arguments,
      Loop.test, roundOf]
  | statement =>
    obtain ⟨n, rfl⟩ := Nat.exists_eq_succ_of_ne_zero (Nat.ne_of_gt h)
    exact (run_statement n).symm
  | term =>
    obtain ⟨n, rfl⟩ := Nat.exists_eq_succ_of_ne_zero (Nat.ne_of_gt h)
    exact (run_term n).symm
  | loop l =>
    obtain ⟨k, rfl⟩ := Nat.exists_eq_succ_of_ne_zero (Nat.ne_of_gt h)
    exact (run_rounds limit k l).symm

/-! ## Progress -/

/-- Where the limits allow nothing more, nothing is used up. -/
theorem leaves_of_not_open {limit rounds : Nat} {p : Production} (h : ¬p.Open limit rounds)
    {c c' : Cursor} {v : p.Value} (hok : (limited limit rounds p c).outcome = .ok (v, c')) :
    p.Leaves c c' := by
  cases p with
  | term =>
    obtain rfl : limit = 0 := Nat.eq_zero_of_not_pos h
    cases hok
  | statement =>
    obtain rfl : limit = 0 := Nat.eq_zero_of_not_pos h
    cases hok
  | loop l =>
    obtain rfl : rounds = 0 := Nat.eq_zero_of_not_pos h
    cases hok
    exact Cursor.Leaves.refl c
  | _ => exact absurd trivial h

/-- Whatever the limits are, recognition leaves what it should. The induction is on the order of
visits, since the limits of what is visited are other ones. -/
theorem limited_keeps (limit rounds : Nat) (x : Visit) : (limited limit rounds).KeepAt x := by
  induction x using Visit.under_wellFounded.induction generalizing limit rounds with
  | _ x ih =>
    intro v c' hok
    by_cases hopen : x.production.Open limit rounds
    · rw [limited_eq hopen] at hok
      exact x.production.plan_descends.leads (fun y hy => ih y hy _ _) (.refl x.cursor) hok
    · exact leaves_of_not_open hopen hok

/-! ## Limits that are never reached -/

namespace Production

/-- The limits are not reached from here. A call and a statement use up their first lexeme before
they visit anything. -/
def Enough (limit rounds : Nat) (c : Cursor) : Production → Prop
  | call => c.remaining ≤ limit + 1
  | letStatement | ifStatement | whileStatement | doStatement | returnStatement =>
    c.remaining ≤ limit ∨ c.current.isSome ∧ c.remaining ≤ limit + 1
  | loop _ => c.remaining ≤ limit ∧ c.remaining ≤ rounds
  | _ => c.remaining ≤ limit

variable {limit rounds : Nat} {p : Production} {c : Cursor} {nested : Recognisers} {x : Visit}

/-- Limits that are not below what is left are enough. -/
theorem enough_of_le (hlimit : c.remaining ≤ limit) (hrounds : p.rank = 5 → c.remaining ≤ rounds) :
    p.Enough limit rounds c := by
  cases p with
  | call => exact Nat.le_succ_of_le hlimit
  | letStatement | ifStatement | whileStatement | doStatement | returnStatement =>
    exact .inl hlimit
  | loop l => exact ⟨hlimit, hrounds rfl⟩
  | _ => exact hlimit

/-- A visit with less input left stays within any limits that are lower by one. -/
theorem enough_of_less {less : Nat} (hx : c.LeavesLess x.cursor) (h : c.remaining ≤ less + 1) :
    x.production.Enough less less x.cursor := by
  have hlt := hx.remaining_lt
  exact enough_of_le (by omega) fun _ => by omega

/-- What has no lower production to visit has used something up before every visit. -/
theorem less_of_descends {α : Type} {s t : Stage} {m : Plan α} (h : m.Descends 0 s t)
    (hkeep : ∀ x : Visit, nested.KeepAt x) (hat : s.At c c) (hx : x ∈ m.visits nested c) :
    c.LeavesLess x.cursor := by
  rcases h.below (fun y _ => hkeep y) hat x hx with hless | ⟨-, hrank⟩
  · exact hless
  · exact absurd hrank (Nat.not_lt_zero _)

/-- Only a call is lower than a term. -/
theorem eq_call_of_rank (h : p.rank < term.rank) : p = call := by
  cases p with
  | call => rfl
  | _ => simp [rank] at h

/-- The word that a statement begins with is still there when the statement is visited. -/
theorem enough_of_statement (hx : x ∈ Plan.statement.visits nested c) (h : c.remaining ≤ limit) :
    x.production.Enough (limit - 1) (limit - 1) x.cursor := by
  rw [Plan.statement, Plan.visits_look_bind] at hx
  have hcurrent : ∀ {word}, c.token = some (.keyword word) → c.current.isSome := by
    intro word htoken
    have hsome := congrArg Option.isSome htoken
    rwa [Cursor.token, Option.isSome_map] at hsome
  have hle : c.remaining ≤ limit - 1 + 1 := by omega
  split at hx
  case h_6 => cases hx
  all_goals
    next htoken =>
      obtain rfl := Plan.eq_of_mem_visits_enter hx
      exact .inr ⟨hcurrent htoken, hle⟩

/-- Limits that are not reached from a production are not reached from what it visits. -/
theorem enough_of_visit (hkeep : ∀ x : Visit, nested.KeepAt x) (h : p.Enough limit rounds c)
    (hx : x ∈ p.plan.visits nested c) :
    x.production.Enough (p.inner limit rounds).1 (p.inner limit rounds).2 x.cursor := by
  have hbelow := p.plan_descends.below (fun y _ => hkeep y) (.refl c) x hx
  have hstays : ∀ {limit}, c.remaining ≤ limit → x.production.Enough limit limit x.cursor := by
    intro limit hle
    have hleaves : c.Leaves x.cursor := hbelow.elim (·.leaves) (·.1)
    have hle' := Nat.le_trans hleaves.remaining_le hle
    exact enough_of_le hle' fun _ => hle'
  have hfacing : p.plan.Descends 0 .facing .moved →
      c.remaining ≤ limit ∨ c.current.isSome ∧ c.remaining ≤ limit + 1 →
      x.production.Enough limit limit x.cursor := by
    rintro hdescends (hle | ⟨hcurrent, hle⟩)
    · exact hstays hle
    · exact enough_of_less (less_of_descends hdescends hkeep ⟨.refl c, hcurrent⟩ hx) hle
  cases p with
  | call =>
    have hless := less_of_descends (s := .start) Plan.call_descends hkeep (.refl c) hx
    exact enough_of_less hless h
  | letStatement => exact hfacing Plan.letStatement_descends h
  | ifStatement => exact hfacing Plan.ifStatement_descends h
  | whileStatement => exact hfacing Plan.whileStatement_descends h
  | doStatement => exact hfacing Plan.doStatement_descends h
  | returnStatement => exact hfacing Plan.returnStatement_descends h
  | statement => exact enough_of_statement hx h
  | term =>
    have hle : c.remaining ≤ limit - 1 + 1 := Nat.le_trans h (by omega)
    rcases hbelow with hless | ⟨hleaves, hrank⟩
    · exact enough_of_less hless hle
    · rw [eq_call_of_rank hrank]
      exact Nat.le_trans hleaves.remaining_le hle
  | loop l =>
    rcases hbelow with hless | ⟨hleaves, hrank⟩
    · have hlt := hless.remaining_lt
      exact enough_of_le (Nat.le_trans (Nat.le_of_lt hlt) h.1) fun _ => by
        have hrounds := h.2
        change _ ≤ rounds - 1
        omega
    · refine enough_of_le (Nat.le_trans hleaves.remaining_le h.1) fun hrank' => ?_
      exact absurd hrank' (Nat.ne_of_lt hrank)
  | _ => exact hstays h

end Production

/-- Where nothing is left there is no token. -/
theorem token_eq_none_of_remaining {c : Cursor} (h : c.remaining ≤ 0) : c.token = none := by
  have hlength : c.current.toList.length = 0 := by
    unfold Cursor.remaining at h
    omega
  rw [Cursor.token, Option.toList_eq_nil_iff.mp (List.eq_nil_of_length_eq_zero hlength),
    Option.map_none]

/-- Where the limits are not reached, recognition follows the plan of its production. Where nothing
is left, nothing is recognised with a higher limit either. -/
theorem limited_apply_eq {limit rounds : Nat} {p : Production} {c : Cursor}
    (h : p.Enough limit rounds c) : limited limit rounds p c =
      p.plan.run (limited (p.inner limit rounds).1 (p.inner limit rounds).2) c := by
  by_cases hopen : p.Open limit rounds
  · rw [limited_eq hopen]
  cases p with
  | term =>
    obtain rfl : limit = 0 := Nat.eq_zero_of_not_pos hopen
    have hnone := token_eq_none_of_remaining h
    exact (term_of_none hnone 0).trans
      ((term_of_none hnone 1).symm.trans (congrFun (run_term 0).symm c))
  | statement =>
    obtain rfl : limit = 0 := Nat.eq_zero_of_not_pos hopen
    have hnone := token_eq_none_of_remaining h
    exact (statement_of_none hnone 0).trans
      ((statement_of_none hnone 1).symm.trans (congrFun (run_statement 0).symm c))
  | loop l =>
    obtain rfl : rounds = 0 := Nat.eq_zero_of_not_pos hopen
    have hstop : l.test c.token = false := by
      rw [token_eq_none_of_remaining h.2]
      cases l <;> rfl
    have hrounds := congrFun (run_rounds limit 0 l) c
    exact (repeatWhile_of_stop hstop (roundOf limit l) 0).trans
      ((repeatWhile_of_stop hstop (roundOf limit l) 1).symm.trans hrounds.symm)
  | _ => exact absurd trivial hopen

/-- Limits that are not reached make no difference. -/
theorem limited_apply_congr {limit rounds limit' rounds' : Nat} {x : Visit}
    (h : x.production.Enough limit rounds x.cursor)
    (h' : x.production.Enough limit' rounds' x.cursor) :
    limited limit rounds x.production x.cursor = limited limit' rounds' x.production x.cursor := by
  induction x using Visit.under_wellFounded.induction
    generalizing limit rounds limit' rounds' with
  | _ x ih =>
    rw [limited_apply_eq h, limited_apply_eq h']
    refine Plan.run_congr fun y hy => ih y (Visit.under_of_mem (limited_keeps _ _) hy) ?_ ?_
    · exact Production.enough_of_visit (limited_keeps _ _) h hy
    · exact Production.enough_of_visit (limited_keeps _ _) h' hy

/-- The recognisers of the productions, with limits that are never reached. -/
def unlimited : Recognisers := fun p c => limited c.remaining c.remaining p c

/-- Where the limits are enough the recogniser without limits does the same. -/
theorem limited_eq_unlimited {limit rounds : Nat} {p : Production} {c : Cursor}
    (h : p.Enough limit rounds c) : limited limit rounds p c = unlimited p c :=
  limited_apply_congr (x := ⟨p, c⟩) h
    (Production.enough_of_le (Nat.le_refl _) fun _ => Nat.le_refl _)

/-- Without limits recognition leaves what it should. -/
theorem unlimited_keeps (x : Visit) : unlimited.KeepAt x :=
  fun v c' h => limited_keeps x.cursor.remaining x.cursor.remaining x v c' h

/-- Without limits recognition follows the plans. -/
theorem unlimited_eq (p : Production) (c : Cursor) : unlimited p c = p.plan.run unlimited c := by
  have henough : p.Enough c.remaining c.remaining c :=
    Production.enough_of_le (Nat.le_refl _) fun _ => Nat.le_refl _
  refine (limited_apply_eq henough).trans (Plan.run_congr fun x hx => ?_)
  exact limited_eq_unlimited
    (Production.enough_of_visit (limited_keeps _ _) henough hx)

/-- There is one way only to follow the plans. -/
theorem eq_unlimited {nested : Recognisers} (h : ∀ p c, nested p c = p.plan.run nested c) :
    nested = unlimited := by
  suffices hvisit : ∀ x : Visit, unlimited x.production x.cursor = nested x.production x.cursor from
    funext fun p => funext fun c => (hvisit ⟨p, c⟩).symm
  intro x
  induction x using Visit.under_wellFounded.induction with
  | _ x ih =>
    rw [unlimited_eq, h]
    exact Plan.run_congr fun y hy => ih y (Visit.under_of_mem unlimited_keeps hy)

end JackStack.Syntax
