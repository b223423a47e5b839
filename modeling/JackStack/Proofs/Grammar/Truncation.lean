import JackStack.Proofs.Grammar.Recognition
import Mathlib.Data.List.Infix

/-!
# Recognising the beginning of a source

Two cursors are compared, the first of which may be cut short by a failure. As long as it is not,
every recogniser does the same on both of them: it reports the same actions, apart from the lexemes
drawn, and ends with the same value or the same failure. Where the first one meets the failure that
cuts it short, its actions begin those on the other cursor. Limits make no difference as long as
they are not below the number of lexemes in front of the first cursor.
-/

namespace JackStack

/-! ## Cursors of which one may be cut short -/

/-- The lexemes of the first cursor begin those of the second one, and unless a failure cuts the
first one short both show the same. -/
structure Cursor.Begins (c d : Cursor) : Prop where
  left : c.Standing
  right : d.Settled
  lexemes : c.lexemes <+: d.lexemes
  whole : c.flaw = none → d.Shows c.lexemes none c.finish

namespace Cursor.Begins

variable {c d : Cursor}

/-- Behind their first lexemes the cursors begin each other as well. -/
theorem tail (h : c.Begins d) : c.lexemes.tail <+: d.lexemes.tail := by
  simpa only [List.drop_one] using h.lexemes.drop 1

/-- Both cursors stand in front of the same first lexeme, or both in front of none. -/
theorem head?_eq (h : c.Begins d) : c.lexemes.head? = d.lexemes.head? := by
  obtain ⟨more, hmore⟩ := h.lexemes
  cases hlexemes : c.lexemes with
  | nil => rw [(h.whole (h.left.unbroken hlexemes)).lexemes, hlexemes]
  | cons lx rest =>
    rw [← hmore, hlexemes]
    rfl

/-- Both cursors show the same token. -/
theorem token_eq (h : c.Begins d) : c.token = d.token := by
  rw [token, token, h.left.settled.current_eq, h.right.current_eq, h.head?_eq]

/-- Both cursors stand at the same place. -/
theorem pos_eq (h : c.Begins d) : c.pos = d.pos := by
  rw [h.left.settled.pos_eq, h.right.pos_eq]
  cases hlexemes : c.lexemes with
  | nil =>
    have hwhole := h.whole (h.left.unbroken hlexemes)
    rw [hwhole.lexemes, hwhole.finish, hlexemes]
  | cons lx rest =>
    have hhead := h.head?_eq
    rw [hlexemes] at hhead
    rw [placeOf, placeOf, ← hhead]
    rfl

/-- In front of no lexeme there is no token on either side. -/
theorem token_eq_none (h : c.Begins d) (hc : c.lexemes.length ≤ 0) :
    c.token = none ∧ d.token = none := by
  have hnil : c.lexemes = [] := List.eq_nil_of_length_eq_zero (Nat.le_zero.mp hc)
  have hnone : c.token = none := by
    rw [token, h.left.settled.current_eq, hnil]
    rfl
  exact ⟨hnone, h.token_eq ▸ hnone⟩

end Cursor.Begins

/-- Two parses of which the first one may be cut short. A success leaves at most `k` lexemes and the
failure behind them as it was. -/
inductive Parse.Begins {α : Type} (flaw : Option Error) (k : Nat) : Parse α → Parse α → Prop where
  | ok {xs ys : List Action} {a : α} {c d : Cursor}
      (actions : Action.withoutScans xs = Action.withoutScans ys) (cursors : c.Begins d)
      (kept : c.flaw = flaw) (left : c.lexemes.length ≤ k) :
      Parse.Begins flaw k ⟨xs, .ok (a, c)⟩ ⟨ys, .ok (a, d)⟩
  | error {xs ys : List Action} (e : Error)
      (actions : Action.withoutScans xs = Action.withoutScans ys) :
      Parse.Begins flaw k ⟨xs, .error e⟩ ⟨ys, .error e⟩
  | cut {xs : List Action} {r : Parse α} {e : Error} (met : flaw = some e)
      (begun : Action.withoutScans xs <+: Action.withoutScans r.actions) :
      Parse.Begins flaw k ⟨xs, .error e⟩ r

/-- The bound on the lexemes left may be raised. -/
theorem Parse.Begins.mono {α : Type} {flaw : Option Error} {j k : Nat} {r r' : Parse α}
    (h : r.Begins flaw k r') (hk : k ≤ j) : r.Begins flaw j r' := by
  cases h with
  | error e actions => exact .error e actions
  | cut met begun => exact .cut met begun
  | ok actions cursors kept left => exact .ok actions cursors kept (Nat.le_trans left hk)

/-- Two recognisers that do the same in front of at most `n` lexemes, as long as the first one is
not cut short, and use up a number of lexemes. -/
class Parser.Begins {α : Type} (n used : Nat) (p q : Parser α) : Prop where
  run : ∀ {c d : Cursor}, c.Begins d → c.lexemes.length ≤ n →
    (p c).Begins c.flaw (c.lexemes.length - used) (q d)

/-- A limit that is not below a number of lexemes, as a hypothesis that the search can use. -/
class Enough (n limit : Nat) : Prop where
  le : n ≤ limit

namespace Parser

variable {α β : Type} {n u : Nat}

/-- What is reported first is reported whatever follows. -/
theorem actions_begin_bind (q : Parser α) (g : α → Parser β) (d : Cursor) :
    Action.withoutScans (q d).actions <+: Action.withoutScans ((q >>= g) d).actions := by
  rcases hq : q d with ⟨ys, e | ⟨a, d'⟩⟩
  · rw [bind_apply_of_error hq]
  · rw [bind_apply_of_ok hq, Action.withoutScans_append]
    exact List.prefix_append _ _

/-- Behind a success both go on from where it leads. -/
theorem run_bind_begins {p q : Parser α} {f g : α → Parser β} {c d : Cursor} {flaw : Option Error}
    {j k : Nat} (h : (p c).Begins flaw k (q d))
    (hf : ∀ a {c' d' : Cursor}, c'.Begins d' → c'.lexemes.length ≤ k →
      (f a c').Begins c'.flaw j (g a d')) : ((p >>= f) c).Begins flaw j ((q >>= g) d) := by
  have hbegin := actions_begin_bind q g d
  generalize hpc : p c = x at h
  generalize hqd : q d = y at h hbegin
  cases h with
  | error e actions =>
    rw [bind_apply_of_error hpc, bind_apply_of_error hqd]
    exact .error e actions
  | cut met begun =>
    rw [bind_apply_of_error hpc]
    exact .cut met (begun.trans hbegin)
  | @ok xs ys a c' d' actions cursors kept left =>
    rw [bind_apply_of_ok hpc, bind_apply_of_ok hqd]
    have hnext := hf a cursors left
    rw [kept] at hnext
    generalize f a c' = x, g a d' = y at hnext ⊢
    cases hnext with
    | error e actions' =>
      refine .error e ?_
      rw [Action.withoutScans_append, Action.withoutScans_append, actions, actions']
    | cut met begun =>
      refine .cut met ?_
      rw [Action.withoutScans_append, Action.withoutScans_append, actions]
      exact (List.prefix_append_right_inj _).mpr begun
    | ok actions' cursors' kept' left' =>
      refine .ok ?_ cursors' kept' left'
      rw [Action.withoutScans_append, Action.withoutScans_append, actions, actions']

namespace Begins

variable {p q : Parser α} {f g : α → Parser β}

/-- A recogniser that uses up a lexeme need not be asked to. -/
theorem lax (h : Begins n 1 p q) : Begins n 0 p q :=
  ⟨fun hcd hn => (h.run hcd hn).mono (by omega)⟩

/-- Behind a recogniser that uses up a lexeme the limits may be lower by one. -/
theorem next [hp : Begins (n + 1) 1 p q] (hf : ∀ a, Begins n 0 (f a) (g a)) :
    Begins (n + 1) 1 (p >>= f) (q >>= g) := by
  refine ⟨fun {c d} h hn => run_bind_begins (hp.run h hn) fun a {c' d'} h' hn' => ?_⟩
  exact ((hf a).run h' (by omega)).mono hn'

/-- A recogniser that need not use up a lexeme, and another one behind it. -/
theorem bind [hp : Begins n 0 p q] (hf : ∀ a, Begins n u (f a) (g a)) :
    Begins n u (p >>= f) (q >>= g) := by
  refine ⟨fun {c d} h hn => run_bind_begins (hp.run h hn) fun a {c' d'} h' hn' => ?_⟩
  exact ((hf a).run h' (Nat.le_trans hn' hn)).mono (Nat.sub_le_sub_right hn' u)

/-- A recogniser that uses up a lexeme, and any other one behind it. -/
theorem bind_of_used [hp : Begins n 1 p q] (hf : ∀ a, Begins n 0 (f a) (g a)) :
    Begins n 1 (p >>= f) (q >>= g) := by
  refine ⟨fun {c d} h hn => run_bind_begins (hp.run h hn) fun a {c' d'} h' hn' => ?_⟩
  exact ((hf a).run h' (by omega)).mono hn'

/-- A condition that does not depend on the cursors. -/
theorem ite {P : Prop} [Decidable P] {p' q' : Parser α} (hp : Begins n u p p')
    (hq : Begins n u q q') : Begins n u (if P then p else q) (if P then p' else q') := by
  split
  · exact hp
  · exact hq

end Begins

instance pure_begins (a : α) : Begins n 0 (pure a : Parser α) (pure a) :=
  ⟨fun h _ => .ok rfl h rfl (Nat.le_refl _)⟩

instance look_begins : Begins n 0 look look := by
  refine ⟨fun {c d} h _ => ?_⟩
  rw [look, look, h.token_eq]
  exact .ok rfl h rfl (Nat.le_refl _)

instance here_begins : Begins n 0 here here := by
  refine ⟨fun {c d} h _ => ?_⟩
  rw [here, here, h.pos_eq]
  exact .ok rfl h rfl (Nat.le_refl _)

instance fail_begins (expected : Expectation) :
    Begins n u (fail expected : Parser α) (fail expected) := by
  refine ⟨fun {c d} h _ => ?_⟩
  rw [fail, fail, h.token_eq, h.pos_eq]
  exact .error _ rfl

instance report_begins (a : Action) : Begins n 0 (report a) (report a) :=
  ⟨fun h _ => .ok rfl h rfl (Nat.le_refl _)⟩

/-- What draws from the cursor draws the same as long as the first one is not cut short. The second
cursor cannot meet a failure that the first one has not met. -/
theorem Draws.begins {p : Parser α} {value : List Token → α} {left : List Lexeme → List Lexeme}
    (h : Draws p value left)
    (hvalue : ∀ {c d : Cursor}, c.Begins d → (c.lexemes.tail = [] → c.flaw = none) →
      value c.tokens = value d.tokens)
    (hbegins : ∀ {ls ms : List Lexeme}, ls <+: ms → left ls <+: left ms)
    (hlength : ∀ ls, (left ls).length ≤ ls.length - u) (hnil : ∀ ls, left ls = [] → ls.tail = []) :
    Begins n u p p := by
  refine ⟨fun {c d} hcd _ => ?_⟩
  obtain ⟨drawn, c', hc, hs, hn⟩ | ⟨e, hc, hn, hf⟩ := h c hcd.left.settled
  · obtain ⟨drawn', d', hd, hs', hn'⟩ | ⟨e', hd, hn', hf'⟩ := h d hcd.right
    · have hcursors : c'.Begins d' := by
        refine ⟨⟨hs.settled, fun hempty => ?_⟩, hs'.settled, ?_, fun hflaw => ?_⟩
        · rw [hs.lexemes] at hempty
          rw [hs.flaw, hn (hnil _ hempty)]
        · rw [hs.lexemes, hs'.lexemes]
          exact hbegins hcd.lexemes
        · have hwhole := hcd.whole (hs.flaw ▸ hflaw)
          rw [hwhole.lexemes, hwhole.flaw, hwhole.finish] at hs'
          rw [hs.lexemes, hs.finish]
          exact hs'
      rw [hc, hd, hvalue hcd hn]
      refine .ok (by simp only [Action.withoutScans_map_scan]) hcursors hs.flaw ?_
      rw [hs.lexemes]
      exact hlength c.lexemes
    · have htail : c.lexemes.tail = [] := by
        apply List.prefix_nil.mp
        rw [← hn']
        exact hcd.tail
      have hflaw := (hcd.whole (hn htail)).flaw
      rw [hf'] at hflaw
      cases hflaw
  · rw [hc]
    exact .cut hf List.nil_prefix

instance advance_begins : Begins n 1 advance advance := by
  refine advance_draws.begins (fun _ _ => rfl) ?_ ?_ (fun _ h => h)
  · intro ls ms h
    simpa only [List.drop_one] using h.drop 1
  · intro ls
    exact Nat.le_of_eq List.length_tail

instance advance_begins_lax : Begins n 0 advance advance := advance_begins.lax

instance peek_begins : Begins n 0 peek peek := by
  refine peek_draws.begins ?_ (fun h => h) (fun _ => Nat.le_refl _) ?_
  · intro c d h hn
    rw [Cursor.tokens, Cursor.tokens, ← List.map_tail, ← List.map_tail, List.head?_map,
      List.head?_map]
    cases htail : c.lexemes.tail with
    | nil => rw [(h.whole (hn htail)).lexemes, htail]
    | cons lx rest =>
      obtain ⟨more, hmore⟩ := h.tail
      rw [← hmore, htail]
      rfl
  · rintro _ rfl
    rfl

instance accept_begins (char : Char) : Begins n 0 (accept char) (accept char) := by
  unfold accept
  exact .bind fun _ => .ite (.bind fun _ => inferInstance) inferInstance

instance expect_begins (char : Char) : Begins n 0 (expect char) (expect char) := by
  unfold expect
  exact .bind fun _ => .ite inferInstance inferInstance

instance expectKeyword_begins (word : Keyword) :
    Begins n 0 (expectKeyword word) (expectKeyword word) := by
  unfold expectKeyword
  exact .bind fun _ => .ite inferInstance inferInstance

instance identifier_begins : Begins n 1 identifier identifier := by
  unfold identifier
  refine .bind fun token => ?_
  split
  · exact .bind_of_used fun _ => inferInstance
  · infer_instance

instance identifier_begins_lax : Begins n 0 identifier identifier := identifier_begins.lax

/-! ## Rounds -/

/-- The test fails at the end of the input, as a hypothesis that the search can use. -/
class FailsAtEnd (test : Option Token → Bool) : Prop where
  none : test none = false

/-- Rounds that do the same in front of tokens that pass the test, and use up a lexeme there. -/
class Rounds (test : Option Token → Bool) (n : Nat) (p q : Parser Unit) : Prop where
  run : ∀ {c d : Cursor}, c.Begins d → c.lexemes.length ≤ n → test c.token = true →
    (p c).Begins c.flaw (c.lexemes.length - 1) (q d)

instance {test : Option Token → Bool} {p q : Parser Unit} [h : Begins n 1 p q] :
    Rounds test n p q :=
  ⟨fun hcd hn _ => h.run hcd hn⟩

/-- Where the test passes a round is made, and then the others. -/
theorem repeatWhile_of_pass {test : Option Token → Bool} {c : Cursor} (h : test c.token = true)
    (round : Parser Unit) (limit : Nat) : repeatWhile test round (limit + 1) c =
      (do round; let rounds ← repeatWhile test round limit; return rounds + 1 : Parser Nat) c := by
  rw [repeatWhile, look_bind_apply, if_pos h]

/-- Every round leaves less in front of the first cursor, so the limits are never reached. -/
instance repeatWhile_begins {test : Option Token → Bool} [htest : FailsAtEnd test]
    {p q : Parser Unit} [h : Rounds test n p q] {a b : Nat} [ha : Enough n a] [hb : Enough n b] :
    Begins n 0 (repeatWhile test p a) (repeatWhile test q b) := by
  obtain ⟨ha⟩ := ha
  obtain ⟨hb⟩ := hb
  suffices hm : ∀ m ≤ n, ∀ a b, m ≤ a → m ≤ b →
      Begins m 0 (repeatWhile test p a) (repeatWhile test q b) from hm n (Nat.le_refl n) a b ha hb
  intro m
  induction m with
  | zero =>
    intro _ a b _ _
    refine ⟨fun {c d} hcd hlength => ?_⟩
    obtain ⟨hc, hd⟩ := hcd.token_eq_none hlength
    rw [repeatWhile_of_stop (hc ▸ htest.none), repeatWhile_of_stop (hd ▸ htest.none)]
    exact .ok rfl hcd rfl (Nat.le_refl _)
  | succ m ih =>
    intro hmn a b ha hb
    obtain ⟨a, rfl⟩ : ∃ k, a = k + 1 := ⟨a - 1, by omega⟩
    obtain ⟨b, rfl⟩ : ∃ k, b = k + 1 := ⟨b - 1, by omega⟩
    refine ⟨fun {c d} hcd hlength => ?_⟩
    cases hpass : test c.token with
    | false =>
      rw [repeatWhile_of_stop hpass, repeatWhile_of_stop (hcd.token_eq ▸ hpass)]
      exact .ok rfl hcd rfl (Nat.le_refl _)
    | true =>
      rw [repeatWhile_of_pass hpass, repeatWhile_of_pass (hcd.token_eq ▸ hpass)]
      refine run_bind_begins (h.run hcd (Nat.le_trans hlength hmn) hpass) fun _ {c' d'} h' hn' => ?_
      have hrest := ih (Nat.le_of_succ_le hmn) a b (Nat.le_of_succ_le_succ ha)
        (Nat.le_of_succ_le_succ hb)
      have hall : Begins m 0 (do let rounds ← repeatWhile test p a; return rounds + 1)
          (do let rounds ← repeatWhile test q b; return rounds + 1) := .bind fun _ => inferInstance
      exact (hall.run h' (by omega)).mono (by omega)

instance (char : Char) : FailsAtEnd (atSymbol char) := ⟨rfl⟩

instance (word : Keyword) : FailsAtEnd (atKeyword word) := ⟨rfl⟩

instance commaSeparated_begins {p q : Parser Unit} [Begins n 0 p q] {a b : Nat} [Enough n a]
    [Enough n b] : Begins n 0 (commaSeparated p a) (commaSeparated q b) := by
  unfold commaSeparated
  have : Begins n 1 (do advance; p) (do advance; q) := .bind_of_used fun _ => inferInstance
  exact .bind fun _ => .bind fun _ => inferInstance

end Parser

/-! ## The grammar -/

namespace Syntax

open JackStack.Parser

variable {n a b : Nat}

instance : FailsAtEnd atOperator := ⟨rfl⟩

instance : FailsAtEnd atStatement := ⟨rfl⟩

instance : FailsAtEnd (fun t => (classVarKind? t).isSome) := ⟨rfl⟩

instance : FailsAtEnd (fun t => (subKind? t).isSome) := ⟨rfl⟩

section Parameters

variable {p q : Parser Unit} [Begins n 0 p q] [Enough n a] [Enough n b]

omit [Enough n a] [Enough n b] in
/-- In front of an operator an operation uses it up. -/
instance operation_rounds : Rounds atOperator n (operation p) (operation q) := by
  refine ⟨fun {c d} h hn hpass => ?_⟩
  obtain ⟨op, hop⟩ := Option.isSome_iff_exists.mp hpass
  rw [operation, operation, look_bind_apply, look_bind_apply, ← h.token_eq, hop]
  have hbehind : Begins n 1 (do advance; p; report (.applyBinary op))
      (do advance; q; report (.applyBinary op)) :=
    .bind_of_used fun _ => .bind fun _ => inferInstance
  exact hbehind.run h hn

instance chain_begins : Begins n 0 (chain p a) (chain q b) := by
  unfold chain
  exact .bind fun _ => .bind fun _ => inferInstance

instance arguments_begins : Begins n 0 (arguments p a) (arguments q b) := by
  unfold arguments
  exact .bind fun _ => .ite inferInstance inferInstance

instance callWith_begins (owner : Option String) (name : String) :
    Begins n 0 (callWith p a owner name) (callWith q b owner name) := by
  unfold callWith
  exact .bind fun _ => .bind fun _ => .bind fun _ => inferInstance

instance call_begins_lax : Begins n 0 (call p a) (call q b) := by
  unfold call
  refine .bind fun first => .bind fun dot => .ite ?_ ?_
  · exact .bind fun name => .bind fun _ => inferInstance
  · exact .bind fun _ => inferInstance

/-- The name of a call is used up before its arguments. -/
instance call_begins : Begins (n + 1) 1 (call p a) (call q b) := by
  unfold call
  refine .next fun first => .bind fun dot => .ite ?_ ?_
  · exact .bind fun name => .bind fun _ => inferInstance
  · exact .bind fun _ => inferInstance

instance named_begins (name : String) (pos : Position) :
    Begins (n + 1) 0 (named p a name pos) (named q b name pos) := by
  unfold named
  refine .bind fun next => .ite call_begins.lax (.bind fun _ => ?_)
  refine (Begins.next fun _ => .ite ?_ inferInstance).lax
  exact .bind fun _ => .bind fun _ => .bind fun _ => .bind fun _ => inferInstance

instance symbolTerm_begins (c : Char) :
    Begins (n + 1) 0 (symbolTerm p a c) (symbolTerm q b c) := by
  unfold symbolTerm
  split
  · exact (Begins.next fun _ => .bind fun _ => inferInstance).lax
  · exact (Begins.next fun _ => .bind fun _ => inferInstance).lax
  · exact (Begins.next fun _ => .bind fun _ => inferInstance).lax
  · infer_instance

omit [Begins n 0 p q] [Enough n a] [Enough n b] in
instance keywordTerm_begins (word : Keyword) :
    Begins n 0 (keywordTerm word) (keywordTerm word) := by
  unfold keywordTerm
  split
  case h_5 => infer_instance
  all_goals exact .bind fun _ => inferInstance

/-- Whatever a term begins with is used up before the terms inside it. -/
instance termWith_begins : Begins (n + 1) 0 (termWith p a) (termWith q b) := by
  unfold termWith
  refine .bind fun pos => .bind fun token => ?_
  split
  case h_3 | h_4 => exact .bind fun _ => .bind fun _ => inferInstance
  all_goals infer_instance

end Parameters

/-- Terms are nested less deep than the lexemes in front of the cursor are many. -/
theorem term_begins (ha : n ≤ a) (hb : n ≤ b) : Begins n 0 (term a) (term b) := by
  induction n generalizing a b with
  | zero =>
    refine ⟨fun {c d} h hn => ?_⟩
    obtain ⟨hc, hd⟩ := h.token_eq_none hn
    rw [term_of_none hc, term_of_none hd]
    exact (fail_begins .term).run h hn
  | succ n ih =>
    obtain ⟨a, rfl⟩ : ∃ k, a = k + 1 := ⟨a - 1, by omega⟩
    obtain ⟨b, rfl⟩ : ∃ k, b = k + 1 := ⟨b - 1, by omega⟩
    have hinner := ih (Nat.le_of_succ_le_succ ha) (Nat.le_of_succ_le_succ hb)
    have : Enough n a := ⟨Nat.le_of_succ_le_succ ha⟩
    have : Enough n b := ⟨Nat.le_of_succ_le_succ hb⟩
    exact termWith_begins

section Limits

variable [ha : Enough n a] [hb : Enough n b]

instance expression_begins : Begins n 0 (expression a) (expression b) := by
  have := term_begins ha.le hb.le
  unfold expression
  infer_instance

omit ha hb in
instance closeBlock_begins : Begins n 0 closeBlock closeBlock := by
  unfold closeBlock
  exact .bind fun _ => .ite inferInstance inferInstance

instance block_begins {p q : Parser Unit} [Begins n 1 p q] :
    Begins n 0 (block p a) (block q b) := by
  unfold block
  exact .bind fun _ => .bind fun _ => inferInstance

instance assignment_begins (store : Action) :
    Begins n 0 (assignment a store) (assignment b store) := by
  unfold assignment
  exact .bind fun _ => .bind fun _ => .bind fun _ => inferInstance

instance letStatement_begins : Begins (n + 1) 1 (letStatement a) (letStatement b) := by
  unfold letStatement
  refine .next fun _ => .bind fun pos => .bind fun name => .bind fun _ => .bind fun bracket =>
    .ite ?_ inferInstance
  exact .bind fun _ => .bind fun _ => .bind fun _ => inferInstance

instance ifStatement_begins {p q : Parser Unit} [Begins n 1 p q] :
    Begins (n + 1) 1 (ifStatement p a) (ifStatement q b) := by
  unfold ifStatement
  refine .next fun _ => .bind fun _ => .bind fun _ => .bind fun _ => .bind fun _ => .bind fun _ =>
    .bind fun _ => .bind fun _ => .bind fun token => .ite ?_ ?_
  · exact .bind fun _ => .bind fun _ => .bind fun _ => inferInstance
  · exact .bind fun _ => inferInstance

instance whileStatement_begins {p q : Parser Unit} [Begins n 1 p q] :
    Begins (n + 1) 1 (whileStatement p a) (whileStatement q b) := by
  unfold whileStatement
  exact .next fun _ => .bind fun _ => .bind fun _ => .bind fun _ => .bind fun _ => .bind fun _ =>
    .bind fun _ => .bind fun _ => .bind fun _ => inferInstance

instance doStatement_begins : Begins (n + 1) 1 (doStatement a) (doStatement b) := by
  unfold doStatement
  exact .next fun _ => .bind fun _ => .bind fun _ => inferInstance

instance returnStatement_begins : Begins (n + 1) 1 (returnStatement a) (returnStatement b) := by
  unfold returnStatement
  refine .next fun _ => .bind fun token => .ite ?_ ?_
  · exact .bind fun _ => .bind fun _ => inferInstance
  · exact .bind fun _ => .bind fun _ => inferInstance

end Limits

/-- Without a token a statement fails, whatever the limit is. -/
theorem statement_of_none {c : Cursor} (h : c.token = none) (limit : Nat) :
    statement limit c = fail .statement c := by
  cases limit with
  | zero => rfl
  | succ limit =>
    rw [statement, look_bind_apply, h]

/-- Statements are nested less deep than the lexemes in front of the cursor are many. -/
theorem statement_begins (ha : n ≤ a) (hb : n ≤ b) : Begins n 1 (statement a) (statement b) := by
  induction n generalizing a b with
  | zero =>
    refine ⟨fun {c d} h hn => ?_⟩
    obtain ⟨hc, hd⟩ := h.token_eq_none hn
    rw [statement_of_none hc, statement_of_none hd]
    exact (fail_begins .statement).run h hn
  | succ n ih =>
    obtain ⟨a, rfl⟩ : ∃ k, a = k + 1 := ⟨a - 1, by omega⟩
    obtain ⟨b, rfl⟩ : ∃ k, b = k + 1 := ⟨b - 1, by omega⟩
    have hinner := ih (Nat.le_of_succ_le_succ ha) (Nat.le_of_succ_le_succ hb)
    have : Enough n a := ⟨Nat.le_of_succ_le_succ ha⟩
    have : Enough n b := ⟨Nat.le_of_succ_le_succ hb⟩
    unfold statement
    exact .bind fun token => by split <;> infer_instance

section Limits

variable [ha : Enough n a] [hb : Enough n b]

omit ha hb in
instance type_begins : Begins n 0 type type := by
  unfold type
  refine .bind fun token => ?_
  split
  · exact .bind fun _ => inferInstance
  · infer_instance

omit ha hb in
instance returnType_begins : Begins n 0 returnType returnType := by
  unfold returnType
  exact .bind fun _ => .ite inferInstance inferInstance

omit ha hb in
instance declaration_begins (kind : VarKind) (type : String) :
    Begins n 0 (declaration kind type) (declaration kind type) := by
  unfold declaration
  exact .bind fun pos => .bind fun name => inferInstance

instance declarations_begins (kind : VarKind) :
    Begins n 0 (declarations kind a) (declarations kind b) := by
  unfold declarations
  exact .bind fun type => .bind fun _ => inferInstance

instance classVariables_begins : Begins n 1 (classVariables a) (classVariables b) := by
  unfold classVariables
  refine .bind fun token => ?_
  split
  · exact .bind_of_used fun _ => inferInstance
  · infer_instance

omit ha hb in
instance parameter_begins : Begins n 0 parameter parameter := by
  unfold parameter
  exact .bind fun type => inferInstance

instance parameters_begins : Begins n 0 (parameters a) (parameters b) := by
  unfold parameters
  exact .bind fun _ => .ite inferInstance (.bind fun _ => inferInstance)

instance localVariables_begins : Begins n 1 (localVariables a) (localVariables b) := by
  unfold localVariables
  exact .bind_of_used fun _ => inferInstance

instance body_begins : Begins n 0 (body a) (body b) := by
  have := statement_begins ha.le hb.le
  unfold body
  exact .bind fun _ => .bind fun _ => .bind fun _ => .bind fun _ => inferInstance

instance subroutine_begins : Begins n 1 (subroutine a) (subroutine b) := by
  unfold subroutine
  refine .bind fun token => ?_
  split
  · exact .bind_of_used fun _ => .bind fun _ => .bind fun _ => .bind fun name => .bind fun _ =>
      .bind fun _ => .bind fun _ => .bind fun _ => inferInstance
  · infer_instance

instance classDeclaration_begins : Begins n 0 (classDeclaration a) (classDeclaration b) := by
  unfold classDeclaration
  exact .bind fun _ => .bind fun name => .bind fun _ => .bind fun _ => .bind fun _ => .bind fun _ =>
    .bind fun _ => .ite inferInstance inferInstance

instance program_begins : Begins n 0 (program a) (program b) := by
  unfold program
  exact .bind fun _ => .bind fun _ => .ite inferInstance inferInstance

end Limits

/-! ## Whole sources -/

/-- Two parses that report the same, apart from the lexemes drawn, and end in the same way. -/
structure Same (p q : Parse Unit) : Prop where
  actions : Action.withoutScans p.actions = Action.withoutScans q.actions
  outcome : p.outcome.map (fun _ => ()) = q.outcome.map (fun _ => ())

/-- Recognition of a source of which the lexemes, up to the first failure, begin those of another
source. It reports the same and ends in the same way, or it meets the failure that cuts it short and
reports the beginning of what it reports for the other source. Without a lexeme in the second source
there is none in the first, which then ends there. -/
theorem parse_begins_of_prefix {outcomes outcomes' : List Outcome} (finish finish' : Position)
    (h : Outcome.lexemes outcomes <+: Outcome.lexemes outcomes')
    (hwhole : Outcome.flaw? outcomes = none → outcomes' = outcomes ∧ finish' = finish) :
    Same (parse outcomes finish) (parse outcomes' finish') ∨
    ∃ e, Outcome.flaw? outcomes = some e ∧ (parse outcomes finish).outcome = .error e ∧
      Action.withoutScans (parse outcomes finish).actions <+:
        Action.withoutScans (parse outcomes' finish').actions := by
  rcases parse_begins outcomes finish with ⟨e, rest, rfl, hparse⟩ | ⟨drawn, c, hparse, hc, hshows⟩
  · rw [hparse]
    exact .inr ⟨e, rfl, rfl, List.nil_prefix⟩
  rcases parse_begins outcomes' finish' with
    ⟨e, rest, rfl, -⟩ | ⟨drawn', d, hparse', hd, hshows'⟩
  · have hnil : c.lexemes = [] := by rw [hshows.lexemes, List.prefix_nil.mp h]
    have hflaw := hshows.flaw.symm.trans (hc.unbroken hnil)
    obtain ⟨rfl, -⟩ := hwhole hflaw
    cases hflaw
  have hbegins : c.Begins d := by
    refine ⟨hc, hd.settled, ?_, ?_⟩
    · rwa [hshows.lexemes, hshows'.lexemes]
    · intro hflaw
      obtain ⟨rfl, rfl⟩ := hwhole (hshows.flaw ▸ hflaw)
      rw [hshows.flaw] at hflaw
      rw [hshows.lexemes, hshows.finish, ← hflaw]
      exact hshows'
  have hlength : c.lexemes.length ≤ (Outcome.lexemes outcomes).length := by rw [hshows.lexemes]
  have : Enough (Outcome.lexemes outcomes).length outcomes.length := ⟨length_lexemes_le outcomes⟩
  have : Enough (Outcome.lexemes outcomes).length outcomes'.length :=
    ⟨Nat.le_trans h.length_le (length_lexemes_le outcomes')⟩
  have hprogram : Begins (Outcome.lexemes outcomes).length 0 (program outcomes.length)
      (program outcomes'.length) := inferInstance
  have hrun := hprogram.run hbegins hlength
  rw [hparse, hparse']
  rw [hshows.flaw] at hrun
  have hdrawn : ∀ (lexemes : List Lexeme) (actions : List Action),
      Action.withoutScans (lexemes.map .scan ++ actions) = Action.withoutScans actions := by
    intro lexemes actions
    rw [Action.withoutScans_append, Action.withoutScans_map_scan, List.nil_append]
  generalize program outcomes.length c = r, program outcomes'.length d = r' at hrun ⊢
  cases hrun with
  | ok actions _ _ _ => exact .inl ⟨by rwa [hdrawn, hdrawn], rfl⟩
  | error e actions => exact .inl ⟨by rwa [hdrawn, hdrawn], rfl⟩
  | cut met begun => exact .inr ⟨_, met, rfl, by rwa [hdrawn, hdrawn]⟩

/-- What stands behind the first failure makes no difference to recognition: two such sources are
cut short by the same failure, and what is reported for each begins what is reported for the other.
-/
theorem parse_eq_of_lexemes {outcomes outcomes' : List Outcome} {finish finish' : Position}
    (h : Outcome.lexemes outcomes = Outcome.lexemes outcomes')
    (hflaw : Outcome.flaw? outcomes = Outcome.flaw? outcomes')
    (hfinish : Outcome.flaw? outcomes = none → finish = finish') :
    Same (parse outcomes finish) (parse outcomes' finish') := by
  have hsame : Outcome.flaw? outcomes = none → outcomes = outcomes' := by
    intro hnone
    have hback := Outcome.eq_map_of_flaw? (hflaw.symm.trans hnone)
    rw [← h] at hback
    exact (Outcome.eq_map_of_flaw? hnone).trans hback.symm
  have hfront := parse_begins_of_prefix finish finish' (h ▸ List.prefix_refl _)
    fun hnone => ⟨(hsame hnone).symm, (hfinish hnone).symm⟩
  have hback := parse_begins_of_prefix finish' finish (h ▸ List.prefix_refl _)
    fun hnone => ⟨hsame (hflaw ▸ hnone), hfinish (hflaw ▸ hnone)⟩
  rcases hfront with hequal | ⟨e, hmet, herror, hbegun⟩
  · exact hequal
  rcases hback with hequal | ⟨e', hmet', herror', hbegun'⟩
  · exact ⟨hequal.actions.symm, hequal.outcome.symm⟩
  rw [hflaw, hmet'] at hmet
  cases hmet
  refine ⟨hbegun.eq_of_length_le hbegun'.length_le, ?_⟩
  rw [herror, herror']

end Syntax

end JackStack
