import JackStack.Syntax.Class
import Mathlib.Data.List.Forall2

/-!
# Recognisers see tokens only

Two cursors are alike when the same tokens stand in front of them and what stops those tokens is
the same, wherever the tokens stand in their sources and however many of them were drawn by
looking ahead. Every recogniser of the grammar does alike things on alike cursors: it reports the
same actions, apart from the lexemes drawn, and ends with the same value or the same failure.
Positions enter through a relation between those of the one source and those of the other, which
the reports and failures then keep.
-/

namespace JackStack

/-- The failure at another place. -/
def Error.withPos (p : Position) : Error → Error
  | unterminatedString _ => unterminatedString p
  | unterminatedComment _ => unterminatedComment p
  | unexpectedChar _ c => unexpectedChar p c
  | invalidString _ => invalidString p
  | unexpectedToken _ expected found => unexpectedToken p expected found
  | redefined _ name => redefined p name
  | undefined _ name => undefined p name
  | intOutOfRange _ value => intOutOfRange p value
  | charOutOfRange _ c => charOutOfRange p c
  | io e => io e

namespace Action

/-- The action at another place. -/
def withPos (p : Position) : Action → Action
  | declare kind type name _ => declare kind type name p
  | use name _ => use name p
  | checkInteger value _ => checkInteger value p
  | checkString content _ => checkString content p
  | a => a

/-- The place that an action names. -/
@[reducible] def pos? : Action → Option Position
  | declare _ _ _ p | use _ p | checkInteger _ p | checkString _ p => some p
  | _ => none

/-- A lexeme was drawn. -/
def isScan : Action → Bool
  | scan _ => true
  | _ => false

/-- The actions apart from the lexemes drawn. -/
def withoutScans (actions : List Action) : List Action := actions.filter (! ·.isScan)

/-- Lexemes drawn are left out of two pieces of actions one by one. -/
@[simp] theorem withoutScans_append (front back : List Action) :
    withoutScans (front ++ back) = withoutScans front ++ withoutScans back :=
  List.filter_append ..

@[simp] theorem withoutScans_map_scan (lexemes : List Lexeme) :
    withoutScans (lexemes.map .scan) = [] := by
  rw [withoutScans, List.filter_eq_nil_iff]
  intro a ha
  obtain ⟨lx, -, rfl⟩ := List.mem_map.mp ha
  exact Bool.false_ne_true

end Action

namespace Outcome

/-- The lexemes in front of the first failure. -/
def lexemes : List Outcome → List Lexeme
  | .lexeme lx :: rest => lx :: lexemes rest
  | _ => []

/-- The first failure. -/
def flaw? : List Outcome → Option Error
  | .lexeme _ :: rest => flaw? rest
  | .failure e :: _ => some e
  | [] => none

/-- Outcomes that begin with lexemes have them in front of their others. -/
theorem lexemes_map_append (front : List Lexeme) (more : List Outcome) :
    lexemes (front.map .lexeme ++ more) = front ++ lexemes more := by
  induction front with
  | nil => rfl
  | cons lx rest ih => exact congrArg (lx :: ·) ih

/-- Lexemes in front make no difference to the first failure. -/
theorem flaw?_map_append (front : List Lexeme) (more : List Outcome) :
    flaw? (front.map .lexeme ++ more) = flaw? more := by
  induction front with
  | nil => rfl
  | cons lx rest ih => exact ih

theorem lexemes_map (lexemes : List Lexeme) :
    Outcome.lexemes (lexemes.map .lexeme) = lexemes := by
  rw [← List.append_nil (lexemes.map _), lexemes_map_append]
  exact List.append_nil lexemes

theorem flaw?_map (lexemes : List Lexeme) : flaw? (lexemes.map .lexeme) = none := by
  rw [← List.append_nil (lexemes.map _), flaw?_map_append]
  rfl

/-- Without a failure all outcomes are lexemes. -/
theorem eq_map_of_flaw? {outcomes : List Outcome} (h : flaw? outcomes = none) :
    outcomes = (Outcome.lexemes outcomes).map .lexeme := by
  induction outcomes with
  | nil => rfl
  | cons o rest ih =>
    cases o with
    | lexeme lx => exact congrArg (_ :: ·) (ih h)
    | failure e => cases h

end Outcome

namespace Cursor

/-- The lexemes from the current one on, up to the first failure. -/
def lexemes (c : Cursor) : List Lexeme :=
  c.current.toList ++ c.ahead ++ Outcome.lexemes c.pending

/-- The tokens from the current one on, up to the first failure. -/
def tokens (c : Cursor) : List Token := c.lexemes.map (·.token)

/-- The failure behind those lexemes. -/
def flaw (c : Cursor) : Option Error := Outcome.flaw? c.pending

/-- The cursor stands on the first of its lexemes, if there is one. -/
def Settled (c : Cursor) : Prop := c.current = none → c.lexemes = []

/-- What a settled cursor shows. -/
structure Shows (c : Cursor) (lexemes : List Lexeme) (flaw : Option Error) (finish : Position) :
    Prop where
  settled : c.Settled
  lexemes : c.lexemes = lexemes
  flaw : c.flaw = flaw
  finish : c.finish = finish

/-- The current lexeme of a settled cursor is the first of its lexemes. -/
theorem Settled.current_eq {c : Cursor} (h : c.Settled) : c.current = c.lexemes.head? := by
  obtain ⟨_ | lx, ahead, pending, finish⟩ := c
  · rw [h rfl]
    rfl
  · rfl

/-- The current token of a settled cursor is the first of its tokens. -/
theorem Settled.token_eq {c : Cursor} (h : c.Settled) : c.token = c.tokens.head? := by
  rw [token, h.current_eq, tokens, List.head?_map]

end Cursor

namespace Parser

/-- On a settled cursor the recogniser gives a value that depends on the tokens and leaves some of
the lexemes; it fails exactly where a failure stands in place of the second lexeme. -/
def Draws {α : Type} (p : Parser α) (value : List Token → α)
    (left : List Lexeme → List Lexeme) : Prop :=
  ∀ c : Cursor, c.Settled →
    (∃ (drawn : List Lexeme) (c' : Cursor),
      p c = ⟨drawn.map .scan, .ok (value c.tokens, c')⟩ ∧
        c'.Shows (left c.lexemes) c.flaw c.finish ∧ (c.lexemes.tail = [] → c.flaw = none)) ∨
    ∃ e, p c = ⟨[], .error e⟩ ∧ c.lexemes.tail = [] ∧ c.flaw = some e

/-- Moving on drops the first lexeme. -/
theorem advance_draws : Draws advance (fun _ => ()) List.tail := by
  intro c h
  obtain ⟨current, ahead, pending, finish⟩ := c
  have hnil : current = none → ahead = [] ∧ Outcome.lexemes pending = [] := by
    rintro rfl
    simpa [Cursor.lexemes] using h rfl
  rcases ahead with _ | ⟨lx, ahead⟩
  · rcases pending with _ | ⟨lx | e, pending⟩
    · refine .inl ⟨[], ⟨none, [], [], finish⟩, rfl, ⟨fun _ => rfl, ?_, rfl, rfl⟩, fun _ => rfl⟩
      cases current <;> rfl
    · rcases current with _ | first
      · exact absurd (hnil rfl).2 (List.cons_ne_nil _ _)
      · refine .inl ⟨[lx], ⟨some lx, [], pending, finish⟩, rfl, ⟨nofun, rfl, rfl, rfl⟩, ?_⟩
        exact fun hn => absurd hn (List.cons_ne_nil _ _)
    · refine .inr ⟨e, rfl, ?_, rfl⟩
      cases current <;> rfl
  · rcases current with _ | first
    · exact absurd (hnil rfl).1 (List.cons_ne_nil _ _)
    · refine .inl ⟨[], ⟨some lx, ahead, pending, finish⟩, rfl, ⟨nofun, rfl, rfl, rfl⟩, ?_⟩
      exact fun hn => absurd hn (List.cons_ne_nil _ _)

/-- Looking ahead shows the second token and drops nothing. -/
theorem peek_draws : Draws peek (fun ts => ts.tail.head?) id := by
  intro c h
  obtain ⟨current, ahead, pending, finish⟩ := c
  have hnil : current = none → ahead = [] ∧ Outcome.lexemes pending = [] := by
    rintro rfl
    simpa [Cursor.lexemes] using h rfl
  rcases ahead with _ | ⟨lx, ahead⟩
  · rcases pending with _ | ⟨lx | e, pending⟩
    · refine .inl ⟨[], ⟨current, [], [], finish⟩, ?_, ⟨h, rfl, rfl, rfl⟩, fun _ => rfl⟩
      cases current <;> rfl
    · rcases current with _ | first
      · exact absurd (hnil rfl).2 (List.cons_ne_nil _ _)
      · refine .inl ⟨[lx], ⟨some first, [lx], pending, finish⟩, rfl, ⟨nofun, rfl, rfl, rfl⟩, ?_⟩
        exact fun hn => absurd hn (List.cons_ne_nil _ _)
    · refine .inr ⟨e, rfl, ?_, rfl⟩
      cases current <;> rfl
  · rcases current with _ | first
    · exact absurd (hnil rfl).1 (List.cons_ne_nil _ _)
    · refine .inl ⟨[], ⟨some first, lx :: ahead, pending, finish⟩, ?_, ⟨h, rfl, rfl, rfl⟩, ?_⟩
      · simp [peek, ofDrawn, Cursor.peek, Cursor.draw, Cursor.tokens, Cursor.lexemes, Except.map]
      · exact fun hn => absurd hn (List.cons_ne_nil _ _)

end Parser

/-! ## Alike runs -/

section Relations

variable (S : Position → Position → Prop)

/-- Two lexemes with the same token at related places. -/
structure Lexeme.Alike (l m : Lexeme) : Prop where
  token : l.token = m.token
  pos : S l.pos m.pos

/-- Two failures that differ in their place only, at related places. -/
structure Error.Alike (e f : Error) : Prop where
  cause : e.withPos .start = f.withPos .start
  pos : Option.Rel S e.pos f.pos

/-- Two actions that differ in their place only, at related places. -/
structure Action.Alike (a b : Action) : Prop where
  content : a.withPos .start = b.withPos .start
  pos : Option.Rel S a.pos? b.pos?

/-- Two sequences of actions that are alike apart from the lexemes drawn. -/
def Action.ListAlike (xs ys : List Action) : Prop :=
  List.Forall₂ (Action.Alike S) (Action.withoutScans xs) (Action.withoutScans ys)

/-- Two settled cursors in front of the same tokens, with the same failure behind them. -/
structure Cursor.Alike (c d : Cursor) : Prop where
  left : c.Settled
  right : d.Settled
  lexemes : List.Forall₂ (Lexeme.Alike S) c.lexemes d.lexemes
  flaw : Option.Rel (Error.Alike S) c.flaw d.flaw
  finish : S c.finish d.finish

/-- Two parses that end alike; a success leaves the failure behind the lexemes as it was. -/
inductive Parse.Alike {α : Type} (flaw : Option Error) : Parse α → Parse α → Prop where
  | ok {xs ys : List Action} {a : α} {c d : Cursor} (actions : Action.ListAlike S xs ys)
      (cursors : c.Alike S d) (kept : c.flaw = flaw) :
      Parse.Alike flaw ⟨xs, .ok (a, c)⟩ ⟨ys, .ok (a, d)⟩
  | error {xs ys : List Action} {e f : Error} (actions : Action.ListAlike S xs ys)
      (errors : e.Alike S f) : Parse.Alike flaw ⟨xs, .error e⟩ ⟨ys, .error f⟩

/-- Two recognisers that do alike things on alike cursors. -/
class Parser.Alike {α : Type} (p q : Parser α) : Prop where
  run : ∀ {c d : Cursor}, c.Alike S d → (p c).Alike S c.flaw (q d)

/-- Two related places, as a hypothesis that the search for the class above can use. -/
class Paired (x y : Position) : Prop where
  related : S x y

/-- No place, as a hypothesis that the search can use. -/
class Placeless (p : Option Position) : Prop where
  eq_none : p = none

end Relations

instance : Placeless none := ⟨rfl⟩

variable {S : Position → Position → Prop} {α β : Type}

/-- Alike actions behind alike actions are alike. -/
theorem Action.ListAlike.append {xs ys xs' ys' : List Action} (h : Action.ListAlike S xs ys)
    (h' : Action.ListAlike S xs' ys') : Action.ListAlike S (xs ++ xs') (ys ++ ys') := by
  rw [Action.ListAlike, Action.withoutScans_append, Action.withoutScans_append]
  exact List.rel_append h h'

/-- Lexemes drawn make no difference. -/
theorem Action.ListAlike.scans (drawn drawn' : List Lexeme) :
    Action.ListAlike S (drawn.map .scan) (drawn'.map .scan) := by
  rw [Action.ListAlike, Action.withoutScans_map_scan, Action.withoutScans_map_scan]
  exact .nil

namespace Cursor.Alike

variable {c d : Cursor}

/-- Alike cursors show the same token. -/
theorem token_eq (h : c.Alike S d) : c.token = d.token := by
  have hlexemes := h.lexemes
  rw [token, token, h.left.current_eq, h.right.current_eq]
  generalize c.lexemes = ls, d.lexemes = ms at hlexemes
  cases hlexemes with
  | nil => rfl
  | cons hl _ => exact congrArg some hl.token

/-- Alike cursors stand at related places. -/
theorem pos (h : c.Alike S d) : S c.pos d.pos := by
  have hlexemes := h.lexemes
  rw [Cursor.pos, Cursor.pos, h.left.current_eq, h.right.current_eq]
  generalize c.lexemes = ls, d.lexemes = ms at hlexemes
  cases hlexemes with
  | nil => exact h.finish
  | cons hl _ => exact hl.pos

/-- Alike cursors stand in front of the same tokens. -/
theorem tokens_eq (h : c.Alike S d) : c.tokens = d.tokens := by
  rw [tokens, tokens, ← List.forall₂_eq_eq_eq, List.forall₂_map_left_iff,
    List.forall₂_map_right_iff]
  exact h.lexemes.imp fun _ _ hl => hl.token

end Cursor.Alike

namespace Parser

instance pure_alike (a : α) : Alike S (pure a : Parser α) (pure a) :=
  ⟨fun h => .ok .nil h rfl⟩

/-- Alike recognisers with alike continuations are alike: the actions add up, and the failure behind
the lexemes is kept by both. The first recogniser is searched for, what follows is given. -/
theorem Alike.bind {p q : Parser α} {f g : α → Parser β} [hp : Alike S p q]
    (hf : ∀ a, Alike S (f a) (g a)) : Alike S (p >>= f) (q >>= g) := by
  refine ⟨fun {c d} h => ?_⟩
  have hpq := hp.run h
  generalize hpc : p c = x at hpq
  generalize hqd : q d = y at hpq
  cases hpq with
  | error ha he =>
    rw [bind_apply_of_error hpc, bind_apply_of_error hqd]
    exact .error ha he
  | @ok _ _ a c' d' ha hc hk =>
    rw [bind_apply_of_ok hpc, bind_apply_of_ok hqd]
    have hfg := (hf a).run hc
    generalize f a c' = x at hfg ⊢
    generalize g a d' = y at hfg ⊢
    cases hfg with
    | error ha' he => exact .error (ha.append ha') he
    | ok ha' hc' hk' => exact .ok (ha.append ha') hc' (hk'.trans hk)

/-- A side condition on what follows a recogniser is searched for along the chain. -/
instance (priority := low) {p q : Parser α} {f g : α → Parser β} [Alike S p q]
    [hf : ∀ a, Alike S (f a) (g a)] : Alike S (p >>= f) (q >>= g) := .bind hf

/-- Where the value is of no consequence there is nothing to introduce on the way. -/
instance (priority := low) {p q : Parser α} {p' q' : Parser β} [Alike S p q] [hp : Alike S p' q'] :
    Alike S (p >>= fun _ => p') (q >>= fun _ => q') := .bind fun _ => hp

/-- A condition that does not depend on the cursor leads to alike recognisers. -/
theorem Alike.ite {P : Prop} [Decidable P] {p q p' q' : Parser α} (hp : Alike S p p')
    (hq : Alike S q q') : Alike S (if P then p else q) (if P then p' else q') := by
  split
  · exact hp
  · exact hq

/-- The place is used alike when all related places are. -/
theorem here_bind_alike {f g : Position → Parser β}
    (hf : ∀ x y, Paired S x y → Alike S (f x) (g y)) : Alike S (here >>= f) (here >>= g) := by
  refine ⟨fun {c d} h => ?_⟩
  rw [bind_apply_of_ok (rfl : here c = ⟨[], .ok (c.pos, c)⟩),
    bind_apply_of_ok (rfl : here d = ⟨[], .ok (d.pos, d)⟩)]
  exact (hf c.pos d.pos ⟨h.pos⟩).run h

instance ite_alike {P : Prop} [Decidable P] {p q p' q' : Parser α} [Alike S p p'] [Alike S q q'] :
    Alike S (if P then p else q) (if P then p' else q') := .ite inferInstance inferInstance

instance look_alike : Alike S look look := by
  refine ⟨fun {c d} h => ?_⟩
  simp only [look, h.token_eq]
  exact .ok .nil h rfl

instance fail_alike (expected : Expectation) :
    Alike S (fail expected : Parser α) (fail expected) := by
  refine ⟨fun {c d} h => ?_⟩
  simp only [fail, h.token_eq]
  exact .error .nil ⟨rfl, .some h.pos⟩

/-- What draws from the cursor draws alike from alike cursors. -/
theorem Draws.alike {p : Parser α} {value : List Token → α} {left : List Lexeme → List Lexeme}
    (h : Draws p value left)
    (hleft : ∀ {ls ms : List Lexeme}, List.Forall₂ (Lexeme.Alike S) ls ms →
      List.Forall₂ (Lexeme.Alike S) (left ls) (left ms)) : Alike S p p := by
  refine ⟨fun {c d} hcd => ?_⟩
  have hflaw := hcd.flaw
  have htail : c.lexemes.tail = [] ↔ d.lexemes.tail = [] := by
    have hlexemes := hcd.lexemes
    generalize c.lexemes = ls, d.lexemes = ms at hlexemes
    rcases hlexemes with _ | ⟨_, _ | _⟩ <;> simp
  obtain ⟨drawn, c', hc, hs, hn⟩ | ⟨e, hc, hn, hf⟩ := h c hcd.left <;>
    obtain ⟨drawn', d', hd, hs', hn'⟩ | ⟨e', hd, hn', hf'⟩ := h d hcd.right <;>
      rw [hc, hd]
  · rw [hcd.tokens_eq]
    refine .ok (.scans drawn drawn') ⟨hs.settled, hs'.settled, ?_, ?_, ?_⟩ hs.flaw
    · rw [hs.lexemes, hs'.lexemes]
      exact hleft hcd.lexemes
    · rwa [hs.flaw, hs'.flaw]
    · rw [hs.finish, hs'.finish]
      exact hcd.finish
  · rw [hn (htail.mpr hn'), hf'] at hflaw
    cases hflaw
  · rw [hn' (htail.mp hn), hf] at hflaw
    cases hflaw
  · rw [hf, hf'] at hflaw
    cases hflaw with
    | some he => exact .error .nil he

instance advance_alike : Alike S advance advance := by
  refine advance_draws.alike fun h => ?_
  cases h with
  | nil => exact .nil
  | cons _ h => exact h

instance peek_alike : Alike S peek peek := peek_draws.alike fun h => h

instance report_alike (a : Action) [h : Placeless a.pos?] : Alike S (report a) (report a) := by
  refine ⟨fun {c d} hcd => .ok ?_ hcd rfl⟩
  have ha : a.Alike S a := ⟨rfl, by rw [h.eq_none]; exact .none⟩
  unfold Action.ListAlike Action.withoutScans
  cases hs : a.isScan <;> simp [hs, ha]

instance report_use_alike (name : String) (x y : Position) [h : Paired S x y] :
    Alike S (report (.use name x)) (report (.use name y)) :=
  ⟨fun hcd => .ok (.cons ⟨rfl, .some h.related⟩ .nil) hcd rfl⟩

instance report_checkInteger_alike (value : UInt32) (x y : Position) [h : Paired S x y] :
    Alike S (report (.checkInteger value x)) (report (.checkInteger value y)) :=
  ⟨fun hcd => .ok (.cons ⟨rfl, .some h.related⟩ .nil) hcd rfl⟩

instance report_checkString_alike (content : String) (x y : Position) [h : Paired S x y] :
    Alike S (report (.checkString content x)) (report (.checkString content y)) :=
  ⟨fun hcd => .ok (.cons ⟨rfl, .some h.related⟩ .nil) hcd rfl⟩

instance report_declare_alike (kind : VarKind) (type name : String) (x y : Position)
    [h : Paired S x y] :
    Alike S (report (.declare kind type name x)) (report (.declare kind type name y)) :=
  ⟨fun hcd => .ok (.cons ⟨rfl, .some h.related⟩ .nil) hcd rfl⟩

instance accept_alike (char : Char) : Alike S (accept char) (accept char) := by
  unfold accept
  exact .bind fun _ => .ite (.bind fun _ => inferInstance) inferInstance

instance expect_alike (char : Char) : Alike S (expect char) (expect char) := by
  unfold expect
  exact .bind fun _ => .ite inferInstance inferInstance

instance expectKeyword_alike (word : Keyword) :
    Alike S (expectKeyword word) (expectKeyword word) := by
  unfold expectKeyword
  exact .bind fun _ => .ite inferInstance inferInstance

instance identifier_alike : Alike S identifier identifier := by
  unfold identifier
  refine .bind fun token => ?_
  split
  · exact .bind fun _ => inferInstance
  · infer_instance

instance repeatWhile_alike (test : Option Token → Bool) {p q : Parser Unit} [Alike S p q]
    (limit : Nat) : Alike S (repeatWhile test p limit) (repeatWhile test q limit) := by
  induction limit with
  | zero => exact pure_alike 0
  | succ limit ih =>
    unfold repeatWhile
    refine .bind fun token => .ite ?_ inferInstance
    exact .bind fun _ => .bind fun rounds => inferInstance

instance commaSeparated_alike {p q : Parser Unit} [Alike S p q] (limit : Nat) :
    Alike S (commaSeparated p limit) (commaSeparated q limit) := by
  unfold commaSeparated
  exact .bind fun _ => .bind fun _ => inferInstance

end Parser

/-! ## The grammar -/

namespace Syntax

open JackStack.Parser

section Parameters

variable {p q : Parser Unit} [Alike S p q]

instance operation_alike : Alike S (operation p) (operation q) := by
  unfold operation
  refine .bind fun token => ?_
  split
  · exact .bind fun _ => .bind fun _ => inferInstance
  · infer_instance

instance chain_alike (limit : Nat) : Alike S (chain p limit) (chain q limit) := by
  unfold chain
  exact .bind fun _ => .bind fun _ => inferInstance

instance arguments_alike (limit : Nat) : Alike S (arguments p limit) (arguments q limit) := by
  unfold arguments
  exact .bind fun _ => .ite inferInstance inferInstance

instance callWith_alike (limit : Nat) (owner : Option String) (name : String) :
    Alike S (callWith p limit owner name) (callWith q limit owner name) := by
  unfold callWith
  exact .bind fun _ => .bind fun _ => .bind fun _ => inferInstance

instance call_alike (limit : Nat) : Alike S (call p limit) (call q limit) := by
  unfold call
  refine .bind fun first => .bind fun dot => .ite ?_ ?_
  · exact .bind fun name => .bind fun _ => inferInstance
  · exact .bind fun _ => inferInstance

instance named_alike (limit : Nat) (name : String) (x y : Position) [Paired S x y] :
    Alike S (named p limit name x) (named q limit name y) := by
  unfold named
  refine .bind fun next => .ite inferInstance (.bind fun _ => .bind fun _ => .ite ?_ inferInstance)
  exact .bind fun _ => .bind fun _ => .bind fun _ => .bind fun _ => inferInstance

instance symbolTerm_alike (limit : Nat) (c : Char) :
    Alike S (symbolTerm p limit c) (symbolTerm q limit c) := by
  unfold symbolTerm
  split
  · exact .bind fun _ => .bind fun _ => inferInstance
  · exact .bind fun _ => .bind fun _ => inferInstance
  · exact .bind fun _ => .bind fun _ => inferInstance
  · infer_instance

instance keywordTerm_alike (word : Keyword) : Alike S (keywordTerm word) (keywordTerm word) := by
  unfold keywordTerm
  split
  case h_5 => infer_instance
  all_goals exact .bind fun _ => inferInstance

instance termWith_alike (limit : Nat) : Alike S (termWith p limit) (termWith q limit) := by
  unfold termWith
  refine here_bind_alike fun x y _ => .bind fun token => ?_
  split
  case h_3 | h_4 => exact .bind fun _ => .bind fun _ => inferInstance
  all_goals infer_instance

end Parameters

instance term_alike (limit : Nat) : Alike S (term limit) (term limit) := by
  induction limit with
  | zero =>
    unfold term
    infer_instance
  | succ limit ih =>
    unfold term
    infer_instance

instance expression_alike (limit : Nat) : Alike S (expression limit) (expression limit) := by
  unfold expression
  infer_instance

instance closeBlock_alike : Alike S closeBlock closeBlock := by
  unfold closeBlock
  exact .bind fun _ => .ite inferInstance inferInstance

instance block_alike {p q : Parser Unit} [Alike S p q] (limit : Nat) :
    Alike S (block p limit) (block q limit) := by
  unfold block
  exact .bind fun _ => .bind fun _ => inferInstance

instance assignment_alike (limit : Nat) (store : Action) [Placeless store.pos?] :
    Alike S (assignment limit store) (assignment limit store) := by
  unfold assignment
  exact .bind fun _ => .bind fun _ => .bind fun _ => inferInstance

instance letStatement_alike (limit : Nat) : Alike S (letStatement limit) (letStatement limit) := by
  unfold letStatement
  refine .bind fun _ => here_bind_alike fun x y _ => .bind fun name => .bind fun _ =>
    .bind fun bracket => .ite ?_ inferInstance
  exact .bind fun _ => .bind fun _ => .bind fun _ => inferInstance

instance ifStatement_alike {p q : Parser Unit} [Alike S p q] (limit : Nat) :
    Alike S (ifStatement p limit) (ifStatement q limit) := by
  unfold ifStatement
  refine .bind fun _ => .bind fun _ => .bind fun _ => .bind fun _ => .bind fun _ => .bind fun _ =>
    .bind fun _ => .bind fun _ => .bind fun token => .ite ?_ ?_
  · exact .bind fun _ => .bind fun _ => .bind fun _ => inferInstance
  · exact .bind fun _ => inferInstance

instance whileStatement_alike {p q : Parser Unit} [Alike S p q] (limit : Nat) :
    Alike S (whileStatement p limit) (whileStatement q limit) := by
  unfold whileStatement
  exact .bind fun _ => .bind fun _ => .bind fun _ => .bind fun _ => .bind fun _ => .bind fun _ =>
    .bind fun _ => .bind fun _ => .bind fun _ => inferInstance

instance doStatement_alike (limit : Nat) : Alike S (doStatement limit) (doStatement limit) := by
  unfold doStatement
  exact .bind fun _ => .bind fun _ => .bind fun _ => inferInstance

instance returnStatement_alike (limit : Nat) :
    Alike S (returnStatement limit) (returnStatement limit) := by
  unfold returnStatement
  refine .bind fun _ => .bind fun token => .ite ?_ ?_
  · exact .bind fun _ => .bind fun _ => inferInstance
  · exact .bind fun _ => .bind fun _ => inferInstance

instance statement_alike (limit : Nat) : Alike S (statement limit) (statement limit) := by
  induction limit with
  | zero =>
    unfold statement
    infer_instance
  | succ limit ih =>
    unfold statement
    exact .bind fun token => by split <;> infer_instance

instance type_alike : Alike S type type := by
  unfold type
  refine .bind fun token => ?_
  split
  · exact .bind fun _ => inferInstance
  · infer_instance

instance returnType_alike : Alike S returnType returnType := by
  unfold returnType
  exact .bind fun _ => .ite inferInstance inferInstance

instance declaration_alike (kind : VarKind) (type : String) :
    Alike S (declaration kind type) (declaration kind type) := by
  unfold declaration
  exact here_bind_alike fun x y _ => .bind fun name => inferInstance

instance declarations_alike (kind : VarKind) (limit : Nat) :
    Alike S (declarations kind limit) (declarations kind limit) := by
  unfold declarations
  exact .bind fun type => .bind fun _ => inferInstance

instance classVariables_alike (limit : Nat) :
    Alike S (classVariables limit) (classVariables limit) := by
  unfold classVariables
  refine .bind fun token => ?_
  split
  · exact .bind fun _ => inferInstance
  · infer_instance

instance parameter_alike : Alike S parameter parameter := by
  unfold parameter
  exact .bind fun type => inferInstance

instance parameters_alike (limit : Nat) : Alike S (parameters limit) (parameters limit) := by
  unfold parameters
  exact .bind fun _ => .ite inferInstance (.bind fun _ => inferInstance)

instance localVariables_alike (limit : Nat) :
    Alike S (localVariables limit) (localVariables limit) := by
  unfold localVariables
  exact .bind fun _ => inferInstance

instance body_alike (limit : Nat) : Alike S (body limit) (body limit) := by
  unfold body
  exact .bind fun _ => .bind fun _ => .bind fun _ => .bind fun _ => inferInstance

instance subroutine_alike (limit : Nat) : Alike S (subroutine limit) (subroutine limit) := by
  unfold subroutine
  refine .bind fun token => ?_
  split
  · exact .bind fun _ => .bind fun _ => .bind fun _ => .bind fun name => .bind fun _ =>
      .bind fun _ => .bind fun _ => .bind fun _ => inferInstance
  · infer_instance

instance classDeclaration_alike (limit : Nat) :
    Alike S (classDeclaration limit) (classDeclaration limit) := by
  unfold classDeclaration
  exact .bind fun _ => .bind fun name => .bind fun _ => .bind fun _ => .bind fun _ => .bind fun _ =>
    .bind fun _ => .ite inferInstance inferInstance

instance program_alike (limit : Nat) : Alike S (program limit) (program limit) := by
  unfold program
  exact .bind fun _ => .bind fun _ => .ite inferInstance inferInstance

end Syntax

end JackStack
