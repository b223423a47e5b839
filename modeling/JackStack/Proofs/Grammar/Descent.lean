import JackStack.Proofs.Grammar.Plans
import Mathlib.Data.List.Infix

/-!
# The descent of the grammar

Whatever a production visits, it visits with less input left than it had itself, or the production
visited is a lower one. How much a production has used up when it comes to a visit is told by
stages, and the steps of its plan lead from one stage to another.
-/

namespace JackStack

/-! ## What is left of the input -/

namespace Cursor

/-- What is left of the input: the current lexeme, the lexemes drawn by looking ahead, and the
outcomes that have not been drawn. -/
def input (c : Cursor) : List Outcome := (c.current.toList ++ c.ahead).map .lexeme ++ c.pending

/-- The second cursor has an end of the input of the first one left. -/
def Leaves (c c' : Cursor) : Prop := c'.input <:+ c.input

/-- The second cursor has an end of the input of the first one left, and not all of it. -/
def LeavesLess (c c' : Cursor) : Prop := c'.input <:+ c.input ∧ c'.input ≠ c.input

/-- What is left of the input is as long as the remaining lexemes are many. -/
theorem length_input (c : Cursor) : c.input.length = c.remaining := by
  simp only [input, remaining, List.length_append, List.length_map]

/-- Moving on uses up the current lexeme. -/
theorem input_advance {c : Cursor} {t : Option Token} (h : c.advance.result = .ok t) :
    c.input = c.current.toList.map .lexeme ++ c.advance.cursor.input := by
  obtain ⟨current, _ | ⟨lx, ahead⟩, pending, finish⟩ := c
  · rcases pending with _ | ⟨lx | e, pending⟩
    · simp [input, advance]
    · simp [input, advance]
    · cases h
  · simp [input, advance]

/-- Looking ahead leaves everything. -/
theorem input_peek {c : Cursor} {n : Nat} {t : Option Token} (h : (c.peek n).result = .ok t) :
    (c.peek n).cursor.input = c.input := by
  have hdraw := draw_eq (n - c.ahead.length) c.pending
  simp only [peek] at h ⊢
  generalize draw (n - c.ahead.length) c.pending = drawn at h hdraw ⊢
  obtain ⟨lexemes, _ | e, left⟩ := drawn
  · simp [input, hdraw]
  · cases h

namespace Leaves

variable {c c' c'' : Cursor}

theorem refl (c : Cursor) : c.Leaves c := List.suffix_refl _

theorem trans (h : c.Leaves c') (h' : c'.Leaves c'') : c.Leaves c'' := List.IsSuffix.trans h' h

/-- What leaves an end of the input leaves no more than there was. -/
theorem remaining_le (h : c.Leaves c') : c'.remaining ≤ c.remaining := by
  rw [← length_input, ← length_input]
  exact h.length_le

/-- An end of the input that is shorter is not all of it. -/
theorem less (h : c.Leaves c') (hlt : c'.remaining < c.remaining) : c.LeavesLess c' := by
  refine ⟨h, fun heq => ?_⟩
  rw [← length_input, ← length_input, heq] at hlt
  exact Nat.lt_irrefl _ hlt

end Leaves

namespace LeavesLess

variable {c c' c'' : Cursor}

theorem leaves (h : c.LeavesLess c') : c.Leaves c' := h.1

/-- What leaves an end of the input and not all of it leaves less. -/
theorem remaining_lt (h : c.LeavesLess c') : c'.remaining < c.remaining := by
  have hne : c'.input.length ≠ c.input.length := fun heq => h.2 (h.1.eq_of_length heq)
  rw [length_input, length_input] at hne
  have hle := h.leaves.remaining_le
  omega

/-- Where something has been used up it stays used up. -/
theorem trans_leaves (h : c.LeavesLess c') (h' : c'.Leaves c'') : c.LeavesLess c'' :=
  (h.leaves.trans h').less (Nat.lt_of_le_of_lt h'.remaining_le h.remaining_lt)

end LeavesLess

/-- What leaves an end of the input, and then less of it, leaves less. -/
theorem Leaves.trans_less {c c' c'' : Cursor} (h : c.Leaves c') (h' : c'.LeavesLess c'') :
    c.LeavesLess c'' :=
  (h.trans h'.leaves).less (Nat.lt_of_lt_of_le h'.remaining_lt h.remaining_le)

end Cursor

/-! ## How far recognition has come -/

/-- How far recognition has come since it began. -/
inductive Stage where
  /-- Perhaps nothing has been used up. -/
  | start
  /-- Perhaps nothing has been used up, and there is a current lexeme. -/
  | facing
  /-- Something has been used up. -/
  | moved

/-- What a stage says of the cursor, given the one at the beginning. -/
def Stage.At : Stage → Cursor → Cursor → Prop
  | start, c₀, c => c₀.Leaves c
  | facing, c₀, c => c₀.Leaves c ∧ c.current.isSome
  | moved, c₀, c => c₀.LeavesLess c

namespace Stage

variable {s : Stage} {c₀ c c' : Cursor}

/-- On every stage an end of the input is left. -/
theorem leaves_of_at (h : s.At c₀ c) : c₀.Leaves c := by
  cases s with
  | start => exact h
  | facing => exact h.1
  | moved => exact h.1

/-- A stage is kept by what changes neither the input nor the current lexeme. -/
theorem at_of_same (hinput : c'.input = c.input) (hcurrent : c'.current = c.current)
    (h : s.At c₀ c) : s.At c₀ c' := by
  have hleaves : ∀ {c₀ : Cursor}, c₀.Leaves c → c₀.Leaves c' := by
    intro c₀ h
    rwa [Cursor.Leaves, hinput]
  cases s with
  | start => exact hleaves h
  | facing => exact ⟨hleaves h.1, hcurrent ▸ h.2⟩
  | moved => exact ⟨hleaves h.1, hinput ▸ h.2⟩

end Stage

/-- The second stage says no more than the first one, as a hypothesis that the search can use. -/
class Stage.Covers (s t : Stage) : Prop where
  at_of_at : ∀ {c₀ c : Cursor}, s.At c₀ c → t.At c₀ c

instance {s : Stage} : s.Covers s := ⟨id⟩

instance {s : Stage} : s.Covers .start := ⟨Stage.leaves_of_at⟩

namespace Parser

variable {α β : Type}

/-- The recogniser leads from one stage to another. -/
class Steps (s : Stage) (p : Parser α) (t : outParam Stage) : Prop where
  run : ∀ {c₀ c c' : Cursor} {a : α}, s.At c₀ c → (p c).outcome = .ok (a, c') → t.At c₀ c'

/-- A success of two recognisers is one of the first and then one of the second. -/
theorem exists_of_bind_ok {p : Parser α} {f : α → Parser β} {c c' : Cursor} {b : β}
    (h : ((p >>= f) c).outcome = .ok (b, c')) :
    ∃ a c₁, (p c).outcome = .ok (a, c₁) ∧ (f a c₁).outcome = .ok (b, c') := by
  rcases hp : p c with ⟨actions, e | ⟨a, c₁⟩⟩
  · rw [bind_apply_of_error hp] at h
    cases h
  · rw [bind_apply_of_ok hp] at h
    exact ⟨a, c₁, rfl, h⟩

/-- The step from a lexeme to the one behind it uses it up. -/
theorem input_of_advance {c c' : Cursor} {a : Unit} (h : (advance c).outcome = .ok (a, c')) :
    c.input = c.current.toList.map .lexeme ++ c'.input := by
  simp only [advance] at h
  cases hresult : c.advance.result with
  | error e =>
    rw [hresult] at h
    cases h
  | ok t =>
    rw [hresult] at h
    cases h
    exact Cursor.input_advance hresult

/-- Moving on leaves an end of the input. -/
theorem leaves_of_advance {c c' : Cursor} {a : Unit} (h : (advance c).outcome = .ok (a, c')) :
    c.Leaves c' := ⟨_, (input_of_advance h).symm⟩

/-- Moving on from a lexeme uses something up. -/
theorem leavesLess_of_advance {c c' : Cursor} {a : Unit} (hc : c.current.isSome)
    (h : (advance c).outcome = .ok (a, c')) : c.LeavesLess c' := by
  refine (leaves_of_advance h).less ?_
  obtain ⟨lx, hlx⟩ := Option.isSome_iff_exists.mp hc
  have hlength := congrArg List.length (input_of_advance h)
  rw [hlx, List.length_append, Cursor.length_input, Cursor.length_input] at hlength
  simp only [Option.toList_some, List.map_cons, List.map_nil, List.length_singleton] at hlength
  omega

section Steps

variable {s : Stage}

instance pure_steps (a : α) : Steps s (pure a : Parser α) s := by
  refine ⟨fun hat h => ?_⟩
  cases h
  exact hat

instance report_steps (a : Action) : Steps s (report a) s := by
  refine ⟨fun hat h => ?_⟩
  cases h
  exact hat

instance look_steps : Steps s look s := by
  refine ⟨fun hat h => ?_⟩
  cases h
  exact hat

instance here_steps : Steps s here s := by
  refine ⟨fun hat h => ?_⟩
  cases h
  exact hat

instance fail_steps (expected : Expectation) : Steps s (fail expected : Parser α) .moved :=
  ⟨fun _ h => nomatch h⟩

instance peek_steps : Steps s peek s := by
  refine ⟨fun {c₀ c c' a} hat h => ?_⟩
  simp only [peek, ofDrawn] at h
  cases hresult : (c.peek 1).result with
  | error e =>
    rw [hresult] at h
    cases h
  | ok t =>
    rw [hresult] at h
    cases h
    exact Stage.at_of_same (Cursor.input_peek hresult) rfl hat

instance advance_steps_start : Steps .start advance .start :=
  ⟨fun hat h => Cursor.Leaves.trans hat (leaves_of_advance h)⟩

instance advance_steps_facing : Steps .facing advance .moved :=
  ⟨fun hat h => hat.1.trans_less (leavesLess_of_advance hat.2 h)⟩

instance advance_steps_moved : Steps .moved advance .moved :=
  ⟨fun hat h => Cursor.LeavesLess.trans_leaves hat (leaves_of_advance h)⟩

/-- A recogniser that leads to a stage, and behind it one of its continuations. -/
theorem Steps.bind {p : Parser α} {f : α → Parser β} {t u : Stage} [hp : Steps s p t]
    (hf : ∀ a, Steps t (f a) u) : Steps s (p >>= f) u := by
  refine ⟨fun hat h => ?_⟩
  obtain ⟨a, c₁, hfirst, hrest⟩ := exists_of_bind_ok h
  exact (hf a).run (hp.run hat hfirst) hrest

/-- Where a token was seen there is a current lexeme. -/
theorem steps_of_look {f : Option Token → Parser α} {t : Stage} (hnone : Steps s (f none) t)
    (hsome : ∀ token, Steps .facing (f (some token)) t) : Steps s (look >>= f) t := by
  refine ⟨fun {c₀ c c' a} hat h => ?_⟩
  rw [look_bind_apply] at h
  cases hcurrent : c.current with
  | none =>
    rw [Cursor.token, hcurrent] at h
    exact hnone.run hat h
  | some lx =>
    rw [Cursor.token, hcurrent] at h
    exact (hsome lx.token).run ⟨Stage.leaves_of_at hat, hcurrent ▸ rfl⟩ h

instance identifier_steps : Steps s identifier .moved := by
  unfold identifier
  refine steps_of_look inferInstance fun token => ?_
  cases token
  case identifier name => exact .bind fun _ => inferInstance
  all_goals infer_instance

instance expectKeyword_steps (word : Keyword) : Steps s (expectKeyword word) .moved := by
  unfold expectKeyword
  refine steps_of_look (fail_steps _) fun token => ?_
  split <;> infer_instance

/-- A symbol is used up where it stands. -/
theorem accept_cases {char : Char} {c c' : Cursor} {b : Bool}
    (h : (accept char c).outcome = .ok (b, c')) :
    b = true ∧ c.LeavesLess c' ∨ b = false ∧ c' = c := by
  rw [accept, look_bind_apply] at h
  cases htest : atSymbol char c.token with
  | false =>
    rw [htest] at h
    cases h
    exact .inr ⟨rfl, rfl⟩
  | true =>
    rw [htest] at h
    obtain ⟨a, c₁, hadvance, hrest⟩ := exists_of_bind_ok h
    cases hrest
    have htoken : c.token = some (.symbol char) := of_decide_eq_true htest
    have hcurrent := congrArg Option.isSome htoken
    rw [Cursor.token, Option.isSome_map] at hcurrent
    exact .inl ⟨rfl, leavesLess_of_advance hcurrent hadvance⟩

instance accept_steps_moved (char : Char) : Steps .moved (accept char) .moved := by
  refine ⟨fun hat h => ?_⟩
  rcases accept_cases h with ⟨-, hless⟩ | ⟨-, rfl⟩
  · exact Cursor.LeavesLess.trans_leaves hat hless.leaves
  · exact hat

/-- A symbol that has to stand somewhere is used up. -/
theorem steps_of_accept {char : Char} {f : Bool → Parser α} {t : Stage}
    (htrue : Steps .moved (f true) t) (hfalse : Steps s (f false) t) :
    Steps s (accept char >>= f) t := by
  refine ⟨fun hat h => ?_⟩
  obtain ⟨b, c₁, haccept, hrest⟩ := exists_of_bind_ok h
  rcases accept_cases haccept with ⟨rfl, hless⟩ | ⟨rfl, rfl⟩
  · exact htrue.run ((Stage.leaves_of_at hat).trans_less hless) hrest
  · exact hfalse.run hat hrest

instance expect_steps (char : Char) : Steps s (expect char) .moved := by
  unfold expect
  exact steps_of_accept (pure_steps ()) (fail_steps _)

end Steps

end Parser

namespace Syntax

open JackStack.Parser

section Steps

variable {s : Stage}

instance closeBlock_steps : Steps s closeBlock .moved := by
  unfold closeBlock
  exact steps_of_accept (pure_steps ()) (fail_steps _)

instance type_steps : Steps s type .moved := by
  unfold type
  refine steps_of_look (fail_steps _) fun token => ?_
  split
  · exact .bind fun _ => inferInstance
  · infer_instance

instance returnType_steps : Steps s returnType .moved := by
  unfold returnType
  refine steps_of_look (fail_steps _) fun token => ?_
  split <;> infer_instance

instance declaration_steps (kind : VarKind) (type : String) :
    Steps s (declaration kind type) .moved := by
  unfold declaration
  exact .bind fun pos => .bind fun name => inferInstance

instance parameter_steps : Steps s parameter .moved := by
  unfold parameter
  exact .bind fun type => inferInstance

instance keywordTerm_steps (word : Keyword) : Steps .facing (keywordTerm word) .moved := by
  unfold keywordTerm
  split
  case h_5 => infer_instance
  all_goals exact .bind fun _ => inferInstance

end Steps

/-! ## Lower productions -/

namespace Production

/-- The order of the productions: whoever has used up nothing visits a lower one only. -/
def rank : Production → Nat
  | call => 0
  | term => 1
  | expression => 2
  | arguments | letStatement | ifStatement | whileStatement | doStatement | returnStatement => 3
  | statement => 4
  | classVariables | localVariables | parameters | body | subroutine => 1
  | loop _ => 5
  | classDeclaration => 6
  | program => 7

/-- Arguments, parameters and loops may be empty, everything else uses something up. -/
def stage : Production → Stage
  | arguments | parameters | loop _ => .start
  | _ => .moved

/-- What the production leaves where it is recognised. -/
def Leaves (p : Production) (c c' : Cursor) : Prop := p.stage.At c c'

end Production

/-- The visit leaves less than there was, or it is one of a lower production. -/
def Visit.Below (x : Visit) (rank : Nat) (c₀ : Cursor) : Prop :=
  c₀.LeavesLess x.cursor ∨ c₀.Leaves x.cursor ∧ x.production.rank < rank

/-- Where the production of a visit is recognised, it leaves what it should. -/
def Recognisers.KeepAt (nested : Recognisers) (x : Visit) : Prop :=
  ∀ v c', (nested x.production x.cursor).outcome = .ok (v, c') → x.production.Leaves x.cursor c'

/-- A production of a lower rank that uses something up, as a hypothesis that the search can use. -/
class Production.Lower (q : Production) (rank : Nat) : Prop where
  lt : q.rank < rank
  moves : q.stage = .moved

namespace Plan

variable {α β : Type} {rank : Nat} {s t u : Stage}

/-- From the first stage on, the plan visits nothing but what is below, and leads to the second
stage. -/
class Descends (rank : Nat) (s t : Stage) (m : Plan α) : Prop where
  below : ∀ {nested : Recognisers} {c₀ c : Cursor},
    (∀ x : Visit, x.Below rank c₀ → nested.KeepAt x) → s.At c₀ c →
    ∀ x ∈ m.visits nested c, x.Below rank c₀
  leads : ∀ {nested : Recognisers} {c₀ c c' : Cursor} {a : α},
    (∀ x : Visit, x.Below rank c₀ → nested.KeepAt x) → s.At c₀ c →
    (m.run nested c).outcome = .ok (a, c') → t.At c₀ c'

/-- From stage to stage: what visits only what is below in either part does so in both. -/
theorem Descends.bind {m : Plan α} {f : α → Plan β} (hm : Descends rank s t m)
    (hf : ∀ a, Descends rank t u (f a)) : Descends rank s u (m >>= f) where
  below hkeep hat x hx := by
    rcases mem_visits_bind hx with hfirst | ⟨a, c', hok, hrest⟩
    · exact hm.below hkeep hat x hfirst
    · exact (hf a).below hkeep (hm.leads hkeep hat hok) x hrest
  leads hkeep hat h := by
    rw [run_bind] at h
    obtain ⟨a, c₁, hfirst, hrest⟩ := exists_of_bind_ok h
    exact (hf a).leads hkeep (hm.leads hkeep hat hfirst) hrest

/-- A stage that says less is reached as well. -/
theorem Descends.mono {m : Plan α} (h : Descends rank s t m) [ht : t.Covers u] :
    Descends rank s u m :=
  ⟨h.below, fun hkeep hat hok => ht.at_of_at (h.leads hkeep hat hok)⟩

/-- A step that is no visit leads where its recogniser does. -/
theorem descends_lift (p : Parser α) [hp : Steps s p t] : Descends rank s t (liftM p : Plan α) where
  below _ _ x hx := by
    change x ∈ (step p done).visits _ _ at hx
    rw [visits] at hx
    split at hx <;> cases hx
  leads _ hat h := by
    rw [run_lift] at h
    exact hp.run hat h

/-- A visit and what follows it. -/
theorem descends_visit {q : Production} {next : q.Value → Plan α}
    (hbelow : ∀ {c₀ c : Cursor}, s.At c₀ c → (Visit.mk q c).Below rank c₀)
    (hleads : ∀ {c₀ c c' : Cursor}, s.At c₀ c → q.Leaves c c' → t.At c₀ c')
    (hnext : ∀ v, Descends rank t u (next v)) : Descends rank s u (visit q next) where
  below {nested c₀ c} hkeep hat x hx := by
    rw [visits] at hx
    rcases List.mem_cons.mp hx with rfl | hx
    · exact hbelow hat
    · rcases hq : nested q c with ⟨actions, e | ⟨v, c₁⟩⟩
      · rw [hq] at hx
        cases hx
      · rw [hq] at hx
        have hkept := hkeep ⟨q, c⟩ (hbelow hat) v c₁ (congrArg Parse.outcome hq)
        exact (hnext v).below hkeep (hleads hat hkept) x hx
  leads {nested c₀ c c' a} hkeep hat h := by
    obtain ⟨v, c₁, hfirst, hrest⟩ := exists_of_bind_ok h
    exact (hnext v).leads hkeep (hleads hat (hkeep ⟨q, c⟩ (hbelow hat) v c₁ hfirst)) hrest

/-- Where something has been used up every visit is below. -/
theorem descends_visit_of_moved {q : Production} {next : q.Value → Plan α}
    (hnext : ∀ v, Descends rank .moved t (next v)) : Descends rank .moved t (visit q next) :=
  descends_visit (t := .moved) .inl
    (fun hat hq => Cursor.LeavesLess.trans_leaves hat (Stage.leaves_of_at hq)) hnext

instance pure_descends [h : s.Covers t] (a : α) : Descends rank s t (pure a : Plan α) where
  below _ _ _ hx := nomatch hx
  leads _ hat hok := by
    cases hok
    exact h.at_of_at hat

instance lift_descends (p : Parser α) [Steps s p t] [t.Covers u] :
    Descends rank s u (liftM p : Plan α) := (descends_lift p).mono

/-- A step of the plan that visits nothing, and what follows it. -/
theorem Descends.step {p : Parser α} {f : α → Plan β} [Steps s p t]
    (hf : ∀ a, Descends rank t u (f a)) : Descends rank s u ((liftM p : Plan α) >>= f) :=
  (descends_lift p).bind hf

instance enter_descends_moved (q : Production) [Stage.moved.Covers t] :
    Descends rank .moved t (enter q) :=
  descends_visit_of_moved fun _ => pure_descends ()

instance count_descends (l : Loop) [Stage.moved.Covers t] : Descends rank .moved t (count l) :=
  descends_visit_of_moved pure_descends

instance countArguments_descends [Stage.moved.Covers t] :
    Descends rank .moved t countArguments :=
  descends_visit_of_moved pure_descends

/-- Where nothing may have been used up the visit is one of a lower production. -/
instance enter_descends (q : Production) [hq : q.Lower rank] [Stage.moved.Covers t] :
    Descends rank s t (enter q) := by
  refine descends_visit (t := .moved) (fun hat => .inr ⟨Stage.leaves_of_at hat, hq.lt⟩) ?_
    fun _ => pure_descends ()
  intro c₀ c c' hat hleaves
  rw [Production.Leaves, hq.moves] at hleaves
  exact (Stage.leaves_of_at hat).trans_less hleaves

/-- A part of the plan that uses something up, and what follows it. -/
theorem Descends.behind {m : Plan α} {f : α → Plan β} [hm : Descends rank s .moved m]
    (hf : ∀ a, Descends rank .moved t (f a)) : Descends rank s t (m >>= f) :=
  hm.bind hf

/-- A condition that does not depend on the cursor. -/
theorem Descends.ite {P : Prop} [Decidable P] {m m' : Plan α} (hm : Descends rank s t m)
    (hm' : Descends rank s t m') : Descends rank s t (if P then m else m') := by
  split
  · exact hm
  · exact hm'

instance ite_descends {P : Prop} [Decidable P] {m m' : Plan α} [Descends rank s t m]
    [Descends rank s t m'] : Descends rank s t (if P then m else m') :=
  .ite inferInstance inferInstance

/-- Where a token was seen there is a current lexeme. -/
theorem descends_of_look {f : Option Token → Plan α} (hnone : Descends rank s t (f none))
    (hsome : ∀ token, Descends rank .facing t (f (some token))) :
    Descends rank s t ((liftM look : Plan (Option Token)) >>= f) := by
  have hcases : ∀ {c₀ c : Cursor}, s.At c₀ c →
      c.token = none ∧ s.At c₀ c ∨ ∃ token, c.token = some token ∧ Stage.facing.At c₀ c := by
    intro c₀ c hat
    cases hcurrent : c.current with
    | none => exact .inl ⟨by rw [Cursor.token, hcurrent]; rfl, hat⟩
    | some lx =>
      exact .inr ⟨lx.token, by rw [Cursor.token, hcurrent]; rfl, Stage.leaves_of_at hat,
        hcurrent ▸ rfl⟩
  constructor
  · intro nested c₀ c hkeep hat x hx
    rw [visits_look_bind] at hx
    rcases hcases hat with ⟨htoken, hat⟩ | ⟨token, htoken, hat⟩
    · rw [htoken] at hx
      exact hnone.below hkeep hat x hx
    · rw [htoken] at hx
      exact (hsome token).below hkeep hat x hx
  · intro nested c₀ c c' a hkeep hat h
    rw [run_bind, run_lift, look_bind_apply] at h
    rcases hcases hat with ⟨htoken, hat⟩ | ⟨token, htoken, hat⟩
    · rw [htoken] at h
      exact hnone.leads hkeep hat h
    · rw [htoken] at h
      exact (hsome token).leads hkeep hat h

/-! ## Expressions -/

instance arguments_descends [Production.Lower .expression rank] :
    Descends rank .start .start Plan.arguments := by
  unfold Plan.arguments
  exact .step fun _ => .ite inferInstance (.behind fun _ => .behind fun more => inferInstance)

instance callWith_descends (owner : Option String) (name : String) :
    Descends rank s .moved (Plan.callWith owner name) := by
  unfold Plan.callWith
  exact .step fun _ => .behind fun args => .step fun _ => inferInstance

instance call_descends : Descends rank s .moved Plan.call := by
  unfold Plan.call
  refine .step fun first => .step fun dot => .ite ?_ ?_
  · exact .step fun name => .step fun _ => inferInstance
  · exact .step fun _ => inferInstance

instance named_descends [Production.Lower .call rank] (name : String) (pos : Position) :
    Descends rank .facing .moved (Plan.named name pos) := by
  unfold Plan.named
  refine .step fun next => .ite inferInstance (.step fun _ => .step fun _ => .ite ?_ inferInstance)
  exact .step fun _ => .behind fun _ => .step fun _ => .step fun _ => inferInstance

instance symbolTerm_descends (c : Char) : Descends rank .facing .moved (Plan.symbolTerm c) := by
  unfold Plan.symbolTerm
  split
  · exact .step fun _ => .behind fun _ => inferInstance
  · exact .step fun _ => .behind fun _ => inferInstance
  · exact .step fun _ => .behind fun _ => inferInstance
  · infer_instance

/-- A term faces its first token when it visits a call, and has used it up when it visits anything
else. -/
theorem term_descends [Production.Lower .call rank] :
    Descends rank .start .moved Plan.term := by
  unfold Plan.term
  refine .step fun pos => descends_of_look (lift_descends _) fun token => ?_
  cases token
  case integer value => exact .step fun _ => .step fun _ => inferInstance
  case string content => exact .step fun _ => .step fun _ => inferInstance
  all_goals infer_instance

/-- An expression visits a term first, and the operators behind it. -/
theorem expression_descends [Production.Lower .term rank] :
    Descends rank .start .moved Plan.expression := by
  unfold Plan.expression
  exact .behind fun _ => inferInstance

/-! ## Statements -/

instance block_descends : Descends rank s .moved Plan.block := by
  unfold Plan.block
  exact .step fun _ => .behind fun _ => inferInstance

instance assignment_descends (store : Action) :
    Descends rank s .moved (Plan.assignment store) := by
  unfold Plan.assignment
  exact .step fun _ => .behind fun _ => .step fun _ => inferInstance

/-- A `let` has used up its name when it visits expressions. -/
theorem letStatement_descends [Steps s advance t] :
    Descends rank s .moved Plan.letStatement := by
  unfold Plan.letStatement
  refine .step fun _ => .step fun pos => .step fun name => .step fun _ => .step fun bracket =>
    .ite ?_ inferInstance
  exact .behind fun _ => .step fun _ => .step fun _ => inferInstance

/-- An `if` has used up a parenthesis when it visits its condition. -/
theorem ifStatement_descends [Steps s advance t] :
    Descends rank s .moved Plan.ifStatement := by
  unfold Plan.ifStatement
  refine .step fun _ => .step fun _ => .step fun _ => .behind fun _ => .step fun _ =>
    .step fun _ => .behind fun _ => .step fun _ => .step fun token => .ite ?_ ?_
  · exact .step fun _ => .behind fun _ => .step fun _ => inferInstance
  · exact .step fun _ => inferInstance

/-- A loop has used up a parenthesis when it visits its condition. -/
theorem whileStatement_descends [Steps s advance t] :
    Descends rank s .moved Plan.whileStatement := by
  unfold Plan.whileStatement
  exact .step fun _ => .step fun _ => .step fun _ => .step fun _ => .behind fun _ => .step fun _ =>
    .step fun _ => .behind fun _ => .step fun _ => inferInstance

/-- A `do` visits a call, which is lower, or behind the word that begins the statement. -/
theorem doStatement_descends [Steps s advance t] [Descends rank t .moved (enter .call)] :
    Descends rank s .moved Plan.doStatement := by
  unfold Plan.doStatement
  exact .step fun _ => .behind fun _ => .step fun _ => inferInstance

/-- A `return` visits an expression, which is lower, or behind the word that begins the statement. -/
theorem returnStatement_descends [Steps s advance t]
    [Descends rank t .moved (enter .expression)] :
    Descends rank s .moved Plan.returnStatement := by
  unfold Plan.returnStatement
  refine .step fun _ => .step fun token => .ite ?_ ?_
  · exact .step fun _ => .step fun _ => inferInstance
  · exact .behind fun _ => .step fun _ => inferInstance

/-- A statement visits one of the five kinds, which are all lower. -/
theorem statement_descends (h : 3 < rank) : Descends rank .start .moved Plan.statement := by
  have : Production.Lower .letStatement rank := ⟨h, rfl⟩
  have : Production.Lower .ifStatement rank := ⟨h, rfl⟩
  have : Production.Lower .whileStatement rank := ⟨h, rfl⟩
  have : Production.Lower .doStatement rank := ⟨h, rfl⟩
  have : Production.Lower .returnStatement rank := ⟨h, rfl⟩
  unfold Plan.statement
  refine descends_of_look (lift_descends _) fun token => ?_
  split <;> infer_instance

/-! ## Classes -/

instance declarations_descends (kind : VarKind) :
    Descends rank s .moved (Plan.declarations kind) := by
  unfold Plan.declarations
  exact .step fun type => .step fun _ => .behind fun _ => inferInstance

/-- Class variables have used up the word in front of them when the names are visited. -/
theorem classVariables_descends : Descends rank .start .moved Plan.classVariables := by
  unfold Plan.classVariables
  refine descends_of_look (lift_descends _) fun token => ?_
  split
  · exact .step fun _ => inferInstance
  · infer_instance

/-- Parameters may use up nothing; the loop is visited behind the first one. -/
theorem parameters_descends : Descends rank .start .start Plan.parameters := by
  unfold Plan.parameters
  exact .step fun _ => .ite inferInstance (.step fun _ => inferInstance)

/-- Local variables use up the word in front of them. -/
theorem localVariables_descends : Descends rank .start .moved Plan.localVariables := by
  unfold Plan.localVariables
  exact .step fun _ => inferInstance

/-- A body visits its loops behind the brace. -/
theorem body_descends : Descends rank .start .moved Plan.body := by
  unfold Plan.body
  exact .step fun _ => .behind fun _ => .step fun _ => .behind fun _ => inferInstance

/-- A subroutine visits its parameters and its body behind the word that begins it. -/
theorem subroutine_descends : Descends rank .start .moved Plan.subroutine := by
  unfold Plan.subroutine
  refine descends_of_look (lift_descends _) fun token => ?_
  split
  · exact .step fun _ => .step fun _ => .step fun _ => .step fun name => .step fun _ =>
      .step fun _ => .behind fun _ => .step fun _ => inferInstance
  · infer_instance

/-- A class visits its loops behind its name. -/
theorem classDeclaration_descends : Descends rank .start .moved Plan.classDeclaration := by
  unfold Plan.classDeclaration
  exact .step fun _ => .step fun name => .step fun _ => .step fun _ => .behind fun _ =>
    .behind fun _ => .step fun _ => inferInstance

/-- A program visits a class, which is lower. -/
theorem program_descends [Production.Lower .classDeclaration rank] :
    Descends rank .start .moved Plan.program := by
  unfold Plan.program
  exact .behind fun _ => .step fun _ => .ite inferInstance inferInstance

/-! ## Loops -/

/-- A round uses something up, and so the loop is visited again below. -/
theorem round_descends {l : Loop} {token : Token} (h : l.test (some token) = true) :
    Descends (Production.loop l).rank .facing .moved (l.plan (some token)) := by
  cases l with
  | operators =>
    obtain ⟨op, hop⟩ := Option.isSome_iff_exists.mp h
    simp only [Loop.plan, hop]
    exact .step fun _ => .behind fun _ => inferInstance
  | arguments =>
    unfold Loop.plan
    exact .step fun _ => inferInstance
  | names kind type =>
    unfold Loop.plan
    exact .step fun _ => inferInstance
  | parameters =>
    unfold Loop.plan
    exact .step fun _ => inferInstance
  | locals =>
    have : Production.Lower .localVariables (Production.loop .locals).rank := ⟨by decide, rfl⟩
    exact enter_descends .localVariables
  | classVariables =>
    have : Production.Lower .classVariables (Production.loop .classVariables).rank :=
      ⟨by decide, rfl⟩
    exact enter_descends .classVariables
  | subroutines =>
    have : Production.Lower .subroutine (Production.loop .subroutines).rank := ⟨by decide, rfl⟩
    exact enter_descends .subroutine
  | statements =>
    have : Production.Lower .statement (Production.loop .statements).rank := ⟨by decide, rfl⟩
    exact enter_descends .statement

/-- A loop that makes no round uses up nothing, and one that makes a round visits itself again with
less left. -/
theorem rounds_descends (l : Loop) :
    Descends (Production.loop l).rank .start .start (Plan.rounds l) := by
  unfold Plan.rounds
  refine descends_of_look ?_ fun token => ?_
  · have hnone : l.test none = false := by cases l <;> rfl
    rw [hnone]
    exact pure_descends 0
  · cases htest : l.test (some token) with
    | false => exact pure_descends 0
    | true =>
      have := round_descends htest
      exact .behind fun _ => .behind fun more => inferInstance

end Plan

/-- Whatever a production visits is below it, and where it is recognised it leaves what it
should. -/
theorem Production.plan_descends (p : Production) :
    Plan.Descends p.rank .start p.stage p.plan := by
  cases p with
  | program =>
    have : Lower .classDeclaration program.rank := ⟨by decide, rfl⟩
    exact Plan.program_descends
  | classDeclaration => exact Plan.classDeclaration_descends
  | classVariables => exact Plan.classVariables_descends
  | subroutine => exact Plan.subroutine_descends
  | parameters => exact Plan.parameters_descends
  | body => exact Plan.body_descends
  | localVariables => exact Plan.localVariables_descends
  | statement => exact Plan.statement_descends (by decide)
  | letStatement => exact Plan.letStatement_descends
  | ifStatement => exact Plan.ifStatement_descends
  | whileStatement => exact Plan.whileStatement_descends
  | doStatement =>
    have : Lower .call doStatement.rank := ⟨by decide, rfl⟩
    exact Plan.doStatement_descends
  | returnStatement =>
    have : Lower .expression returnStatement.rank := ⟨by decide, rfl⟩
    exact Plan.returnStatement_descends
  | expression =>
    have : Lower .term expression.rank := ⟨by decide, rfl⟩
    exact Plan.expression_descends
  | term =>
    have : Lower .call term.rank := ⟨by decide, rfl⟩
    exact Plan.term_descends
  | call => exact Plan.call_descends
  | arguments =>
    have : Lower .expression arguments.rank := ⟨by decide, rfl⟩
    exact Plan.arguments_descends
  | loop l => exact Plan.rounds_descends l

/-! ## The descent ends -/

/-- The order in which productions are visited from each other. -/
def Visit.Under (x y : Visit) : Prop := x.Below y.production.rank y.cursor

/-- What is visited while a production is recognised comes under it. -/
theorem Visit.under_of_mem {nested : Recognisers} (hkeep : ∀ x : Visit, nested.KeepAt x)
    {x y : Visit} (h : x ∈ y.production.plan.visits nested y.cursor) : x.Under y :=
  y.production.plan_descends.below (fun z _ => hkeep z) (.refl y.cursor) x h

/-- The order of visits ends: the input left and then the rank decrease. -/
theorem Visit.under_wellFounded : WellFounded Visit.Under := by
  refine Subrelation.wf (r := InvImage _ fun x : Visit => (x.cursor.remaining, x.production.rank))
    ?_ (InvImage.wf _ (Prod.lex Nat.lt_wfRel Nat.lt_wfRel).wf)
  intro x y h
  rcases h with hless | ⟨hleaves, hrank⟩
  · exact .left _ _ hless.remaining_lt
  · rcases Nat.lt_or_eq_of_le hleaves.remaining_le with hlt | heq
    · exact .left _ _ hlt
    · change Prod.Lex _ _ (x.cursor.remaining, _) _
      rw [heq]
      exact .right _ hrank

end Syntax

end JackStack
