import JackStack.Proofs.Grammar.Alike

/-!
# What recognisers read

Since recognisers see tokens only, a success is a relation between the tokens in front, the
actions reported, the value and the tokens left. `Parser.Reads` is that relation, and it is the
same from every cursor that shows the tokens. Each elementary recogniser has an equation for it,
and `reads_bind` puts two of them together.
-/

namespace JackStack

/-- Relates any two places. -/
abbrev Anywhere : Position → Position → Prop := fun _ _ => True

instance (x y : Position) : Paired Anywhere x y := ⟨trivial⟩

/-- The actions without places, apart from the lexemes drawn. -/
def Action.unplaced (actions : List Action) : List Action :=
  (withoutScans actions).map (withPos .start)

namespace Action

@[simp] theorem unplaced_append (front back : List Action) :
    unplaced (front ++ back) = unplaced front ++ unplaced back := by
  rw [unplaced, withoutScans_append, List.map_append]
  rfl

@[simp] theorem unplaced_map_scan (lexemes : List Lexeme) :
    unplaced (lexemes.map .scan) = [] := by
  rw [unplaced, withoutScans_map_scan, List.map_nil]

/-- Alike actions are the same without their places. -/
theorem ListAlike.unplaced_eq {S : Position → Position → Prop} {xs ys : List Action}
    (h : ListAlike S xs ys) : unplaced xs = unplaced ys := by
  rw [unplaced, unplaced, ← List.forall₂_eq_eq_eq, List.forall₂_map_left_iff,
    List.forall₂_map_right_iff]
  exact h.imp fun _ _ ha => ha.content

end Action

namespace Cursor

/-- The cursor in front of tokens that all stand at the first place. -/
def atStart (flaw : Option Error) (tokens : List Token) : Cursor :=
  ⟨tokens.head?.map (⟨·, .start⟩), [],
    tokens.tail.map (fun t => .lexeme ⟨t, .start⟩) ++ flaw.toList.map .failure, .start⟩

/-- In front of the cursor stand the tokens, all at the first place. -/
@[simp] theorem lexemes_atStart (flaw : Option Error) (tokens : List Token) :
    (atStart flaw tokens).lexemes = tokens.map (⟨·, .start⟩) := by
  have h : ∀ ts : List Token, Outcome.lexemes
      (ts.map (fun t => .lexeme ⟨t, .start⟩) ++ flaw.toList.map .failure) =
        ts.map (⟨·, .start⟩) := by
    intro ts
    induction ts with
    | nil => cases flaw <;> rfl
    | cons t ts ih => exact congrArg (_ :: ·) ih
  cases tokens with
  | nil => exact h []
  | cons t ts => exact congrArg (_ :: ·) (h ts)

@[simp] theorem tokens_atStart (flaw : Option Error) (tokens : List Token) :
    (atStart flaw tokens).tokens = tokens := by
  rw [Cursor.tokens, lexemes_atStart, List.map_map]
  exact List.map_id tokens

/-- Behind the tokens stands the failure that was put there. -/
@[simp] theorem flaw_atStart (flaw : Option Error) (tokens : List Token) :
    (atStart flaw tokens).flaw = flaw := by
  have h : ∀ ts : List Token, Outcome.flaw?
      (ts.map (fun t => .lexeme ⟨t, .start⟩) ++ flaw.toList.map .failure) = flaw := by
    intro ts
    induction ts with
    | nil => cases flaw <;> rfl
    | cons t ts ih => exact ih
  exact h tokens.tail

/-- The cursor stands on the first of its tokens. -/
theorem settled_atStart (flaw : Option Error) (tokens : List Token) :
    (atStart flaw tokens).Settled := by
  intro h
  cases tokens with
  | nil => exact lexemes_atStart flaw []
  | cons t ts => cases h

/-- A settled cursor is like the one in front of the same tokens at the first place. -/
theorem Settled.alike_atStart {c : Cursor} (h : c.Settled) :
    c.Alike Anywhere (atStart c.flaw c.tokens) := by
  refine ⟨h, settled_atStart _ _, ?_, ?_, trivial⟩
  · rw [lexemes_atStart, Cursor.tokens, List.map_map, List.forall₂_map_right_iff]
    exact List.forall₂_same.mpr fun lx _ => ⟨rfl, trivial⟩
  · rw [flaw_atStart]
    cases c.flaw with
    | none => exact .none
    | some e => exact .some ⟨rfl, by cases e.pos <;> constructor; trivial⟩

end Cursor

namespace Parser

variable {α β : Type}

/-- In front of the tokens, with the failure behind them, the recogniser succeeds with the value,
having reported the actions, and leaves the rest of the tokens. -/
def Reads (flaw : Option Error) (p : Parser α) (ts : List Token) (acts : List Action) (a : α)
    (rest : List Token) : Prop :=
  ∃ xs c', p (.atStart flaw ts) = ⟨xs, .ok (a, c')⟩ ∧ Action.unplaced xs = acts ∧ c'.tokens = rest

variable {flaw : Option Error} {ts rest : List Token} {acts : List Action}

/-- A success from any settled cursor is one in front of its tokens. -/
theorem reads_of_eq_ok {p : Parser α} [h : Alike Anywhere p p] {c c' : Cursor} {xs : List Action}
    {a : α} (hc : c.Settled) (hp : p c = ⟨xs, .ok (a, c')⟩) :
    Reads c.flaw p c.tokens (Action.unplaced xs) a c'.tokens ∧ c'.Settled ∧ c'.flaw = c.flaw := by
  have hrun := h.run hc.alike_atStart
  rw [hp] at hrun
  generalize hq : p (.atStart c.flaw c.tokens) = y at hrun
  cases hrun with
  | ok ha hcd hk => exact ⟨⟨_, _, hq, ha.unplaced_eq.symm, hcd.tokens_eq.symm⟩, hcd.left, hk⟩

/-- What succeeds in front of the tokens succeeds from every settled cursor that shows them. -/
theorem Reads.eq_ok {p : Parser α} [h : Alike Anywhere p p] {c : Cursor} {a : α}
    (hr : Reads c.flaw p c.tokens acts a rest) (hc : c.Settled) :
    ∃ xs c', p c = ⟨xs, .ok (a, c')⟩ ∧ Action.unplaced xs = acts ∧ c'.tokens = rest ∧
      c'.Settled ∧ c'.flaw = c.flaw := by
  obtain ⟨ys, d, hq, rfl, rfl⟩ := hr
  have hrun := h.run hc.alike_atStart
  rw [hq] at hrun
  generalize hp : p c = x at hrun
  cases hrun with
  | ok ha hcd hk => exact ⟨_, _, rfl, ha.unplaced_eq, hcd.tokens_eq, hcd.left, hk⟩

/-- One recogniser and then another. -/
theorem reads_bind {p : Parser α} {f : α → Parser β} [hp : Alike Anywhere p p]
    [hf : ∀ a, Alike Anywhere (f a) (f a)] {b : β} :
    Reads flaw (p >>= f) ts acts b rest ↔
      ∃ a mid acts₁ acts₂, Reads flaw p ts acts₁ a mid ∧ Reads flaw (f a) mid acts₂ b rest ∧
        acts = acts₁ ++ acts₂ := by
  have hs := Cursor.settled_atStart flaw ts
  constructor
  · rintro ⟨zs, c'', hpf, rfl, rfl⟩
    rcases hpc : p (.atStart flaw ts) with ⟨xs, e | ⟨a, c'⟩⟩
    · rw [bind_apply_of_error hpc] at hpf
      cases hpf
    · rw [bind_apply_of_ok hpc] at hpf
      obtain ⟨-, hs', hk⟩ := reads_of_eq_ok hs hpc
      rcases hfc : f a c' with ⟨ys, e | ⟨b', d⟩⟩
      · rw [hfc] at hpf
        cases hpf
      · rw [hfc] at hpf
        cases hpf
        have hr := (reads_of_eq_ok hs' hfc).1
        rw [hk, Cursor.flaw_atStart] at hr
        exact ⟨a, c'.tokens, _, _, ⟨xs, c', hpc, rfl, rfl⟩, hr, Action.unplaced_append xs ys⟩
  · rintro ⟨a, mid, acts₁, acts₂, ⟨xs, c', hpc, rfl, rfl⟩, hr, rfl⟩
    obtain ⟨-, hs', hk⟩ := reads_of_eq_ok hs hpc
    rw [Cursor.flaw_atStart] at hk
    rw [← hk] at hr
    obtain ⟨ys, d, hfc, rfl, rfl, -, -⟩ := hr.eq_ok hs'
    refine ⟨xs ++ ys, d, ?_, Action.unplaced_append xs ys, rfl⟩
    rw [bind_apply_of_ok hpc, hfc]

/-- Two successes, the second where the first one ended, make one. -/
theorem Reads.bind {p : Parser α} {f : α → Parser β} [Alike Anywhere p p]
    [∀ a, Alike Anywhere (f a) (f a)] {a : α} {b : β} {mid : List Token}
    {acts₁ acts₂ : List Action} (hp : Reads flaw p ts acts₁ a mid)
    (hf : Reads flaw (f a) mid acts₂ b rest) : Reads flaw (p >>= f) ts (acts₁ ++ acts₂) b rest :=
  reads_bind.mpr ⟨a, mid, acts₁, acts₂, hp, hf, rfl⟩

/-- What the recogniser reads is always the tokens of an item, with the actions of that item. -/
def OnlyReads {T : Type} (p : Parser Unit) (tokens : T → List Token)
    (actions : T → List Action) : Prop :=
  ∀ ⦃flaw : Option Error⦄ ⦃ts rest : List Token⦄ ⦃acts : List Action⦄,
    Reads flaw p ts acts () rest → ∃ x, ts = tokens x ++ rest ∧ acts = actions x

/-- The recogniser reads every item that is not longer than the limit, in front of all that may
follow it. -/
def ReadsAll {T : Type} (p : Parser Unit) (tokens : T → List Token) (actions : T → List Action)
    (follow : Option Token → Prop) (limit : Nat) : Prop :=
  ∀ ⦃x : T⦄ ⦃rest : List Token⦄, (tokens x).length ≤ limit → follow rest.head? →
    Reads none p (tokens x ++ rest) (actions x) () rest

/-! ## Elementary recognisers -/

/-- A value is given without reading anything. -/
@[simp] theorem reads_pure {a b : α} :
    Reads flaw (pure a) ts acts b rest ↔ acts = [] ∧ b = a ∧ rest = ts := by
  constructor
  · rintro ⟨xs, c', h, rfl, rfl⟩
    cases h
    exact ⟨rfl, rfl, Cursor.tokens_atStart flaw ts⟩
  · rintro ⟨rfl, rfl, rfl⟩
    exact ⟨[], _, rfl, rfl, Cursor.tokens_atStart flaw rest⟩

/-- A recogniser whose value is put into another one. -/
theorem reads_bind_pure {p : Parser α} [Alike Anywhere p p] {g : α → β} {b : β} :
    Reads flaw (do let a ← p; return g a) ts acts b rest ↔
      ∃ a, Reads flaw p ts acts a rest ∧ b = g a := by
  rw [reads_bind]
  constructor
  · rintro ⟨a, mid, acts₁, acts₂, hp, hf, rfl⟩
    obtain ⟨rfl, rfl, rfl⟩ := reads_pure.mp hf
    exact ⟨a, by rwa [List.append_nil], rfl⟩
  · rintro ⟨a, hp, rfl⟩
    exact ⟨a, rest, acts, [], hp, reads_pure.mpr ⟨rfl, rfl, rfl⟩, (List.append_nil acts).symm⟩

/-- A failure reads nothing. -/
@[simp] theorem not_reads_fail {expected : Expectation} {a : α} :
    ¬ Reads flaw (fail expected) ts acts a rest := by
  rintro ⟨xs, c', h, -, -⟩
  cases h

/-- A report reads nothing and reports its action. -/
@[simp] theorem reads_report {x : Action} {u : Unit} :
    Reads flaw (report x) ts acts u rest ↔ acts = Action.unplaced [x] ∧ rest = ts := by
  constructor
  · rintro ⟨xs, c', h, rfl, rfl⟩
    cases h
    exact ⟨rfl, Cursor.tokens_atStart flaw ts⟩
  · rintro ⟨rfl, rfl⟩
    exact ⟨[x], _, rfl, rfl, Cursor.tokens_atStart flaw rest⟩

/-- What looks without moving and reports nothing hands its answer on. -/
private theorem bind_of_silent {p : Parser α} {c : Cursor} {a : α} (h : p c = ⟨[], .ok (a, c)⟩)
    (f : α → Parser β) : (p >>= f) c = f a c := bind_apply_of_ok h f

/-- What follows a look at the token may use the first one. -/
theorem reads_look_bind {f : Option Token → Parser β} {b : β} :
    Reads flaw (look >>= f) ts acts b rest ↔ Reads flaw (f ts.head?) ts acts b rest := by
  have h : look (.atStart flaw ts) = ⟨[], .ok (ts.head?, .atStart flaw ts)⟩ := by
    rw [look, (Cursor.settled_atStart flaw ts).token_eq, Cursor.tokens_atStart]
  rw [Reads, Reads, bind_of_silent h]

/-- What follows a look at the place may take it for the first one. -/
theorem reads_here_bind {f : Position → Parser β} {b : β} :
    Reads flaw (here >>= f) ts acts b rest ↔ Reads flaw (f .start) ts acts b rest := by
  have h : here (.atStart flaw ts) = ⟨[], .ok (.start, .atStart flaw ts)⟩ := by
    cases ts <;> rfl
  rw [Reads, Reads, bind_of_silent h]

/-- A reported action stands in front of what follows. -/
theorem reads_report_bind {x : Action} {f : Unit → Parser β} {b : β} :
    Reads flaw (report x >>= f) ts acts b rest ↔
      ∃ acts', acts = Action.unplaced [x] ++ acts' ∧ Reads flaw (f ()) ts acts' b rest := by
  have h := bind_apply_of_ok (rfl : report x (.atStart flaw ts) = ⟨[x], .ok ((), _)⟩) f
  constructor
  · rintro ⟨xs, c', hf, rfl, rfl⟩
    rcases hr : f () (.atStart flaw ts) with ⟨ys, e | ⟨b', d⟩⟩ <;> rw [h, hr] at hf <;> cases hf
    exact ⟨Action.unplaced ys, Action.unplaced_append [x] ys, ys, c', hr, rfl, rfl⟩
  · rintro ⟨acts', rfl, ys, c', hr, rfl, rfl⟩
    exact ⟨x :: ys, c', by rw [h, hr]; rfl, Action.unplaced_append [x] ys, rfl⟩

/-- The tokens do not end at a failure. -/
def Unbroken (flaw : Option Error) (rest : List Token) : Prop := rest = [] → flaw = none

@[simp] theorem unbroken_none (rest : List Token) : Unbroken none rest := fun _ => rfl

/-- Where no token is left, unbroken means that no failure stands there. -/
theorem unbroken_nil (flaw : Option Error) : Unbroken flaw [] ↔ flaw = none :=
  ⟨fun h => h rfl, fun h _ => h⟩

/-- Moving on drops a token, unless a failure stands in place of the next one. -/
theorem reads_advance_bind {f : Unit → Parser β} {b : β} :
    Reads flaw (advance >>= f) ts acts b rest ↔
      Unbroken flaw ts.tail ∧ Reads flaw (f ()) ts.tail acts b rest := by
  by_cases hu : Unbroken flaw ts.tail
  · obtain ⟨drawn, h⟩ : ∃ drawn : List Lexeme,
        advance (.atStart flaw ts) = ⟨drawn.map .scan, .ok ((), .atStart flaw ts.tail)⟩ := by
      rcases ts with _ | ⟨t, _ | ⟨u, ts⟩⟩
      · obtain rfl := hu rfl
        exact ⟨[], rfl⟩
      · obtain rfl := hu rfl
        exact ⟨[], rfl⟩
      · exact ⟨[⟨u, .start⟩], rfl⟩
    have h := bind_apply_of_ok h f
    simp only [hu, true_and, Reads, h]
    constructor
    · rintro ⟨xs, c', hf, rfl, rfl⟩
      rcases hr : f () (.atStart flaw ts.tail) with ⟨ys, e | ⟨b', d⟩⟩ <;> rw [hr] at hf <;> cases hf
      exact ⟨ys, c', rfl, by simp, rfl⟩
    · rintro ⟨ys, c', hr, rfl, rfl⟩
      exact ⟨drawn.map .scan ++ ys, c', by rw [hr], by simp, rfl⟩
  · have hnil : ts.tail = [] := Classical.byContradiction fun hn => hu fun h => absurd h hn
    obtain ⟨e, rfl⟩ : ∃ e, flaw = some e :=
      Option.ne_none_iff_exists'.mp fun hf => hu fun _ => hf
    have h : advance (.atStart (some e) ts) = ⟨[], .error e⟩ := by
      rcases ts with _ | ⟨t, _ | ⟨u, ts⟩⟩
      · rfl
      · rfl
      · exact absurd hnil (List.cons_ne_nil u ts)
    simp only [hu, false_and, iff_false]
    rintro ⟨xs, c', hf, -, -⟩
    rw [bind_apply_of_error h] at hf
    cases hf

/-- Looking ahead gives the second token, unless a failure stands in its place. -/
theorem reads_peek {next : Option Token} :
    Reads flaw peek ts acts next rest ↔
      Unbroken flaw ts.tail ∧ acts = [] ∧ next = ts.tail.head? ∧ rest = ts := by
  have htail : (Cursor.atStart flaw ts).lexemes.tail = [] ↔ ts.tail = [] := by
    rw [Cursor.lexemes_atStart, ← List.map_tail, List.map_eq_nil_iff]
  obtain ⟨drawn, c', h, hs, hn⟩ | ⟨e, h, hn, he⟩ := peek_draws _ (Cursor.settled_atStart flaw ts)
  · rw [htail, Cursor.flaw_atStart] at hn
    have ht : c'.tokens = ts := by
      rw [Cursor.tokens, hs.lexemes]
      exact Cursor.tokens_atStart flaw ts
    rw [Cursor.tokens_atStart] at h
    constructor
    · rintro ⟨xs, d, hp, rfl, rfl⟩
      rw [h] at hp
      cases hp
      exact ⟨hn, Action.unplaced_map_scan drawn, rfl, ht⟩
    · rintro ⟨-, rfl, rfl, rfl⟩
      exact ⟨_, c', h, Action.unplaced_map_scan drawn, ht⟩
  · rw [htail] at hn
    rw [Cursor.flaw_atStart] at he
    constructor
    · rintro ⟨xs, d, hp, -, -⟩
      rw [h] at hp
      cases hp
    · rintro ⟨hu, -⟩
      exact absurd (hu hn) (he ▸ Option.some_ne_none e)

/-- What follows a look ahead may use the second token. -/
theorem reads_peek_bind {f : Option Token → Parser β} [∀ t, Alike Anywhere (f t) (f t)] {b : β} :
    Reads flaw (peek >>= f) ts acts b rest ↔
      Unbroken flaw ts.tail ∧ Reads flaw (f ts.tail.head?) ts acts b rest := by
  rw [reads_bind]
  constructor
  · rintro ⟨next, mid, acts₁, acts₂, hp, hf, rfl⟩
    obtain ⟨hu, rfl, rfl, rfl⟩ := reads_peek.mp hp
    exact ⟨hu, hf⟩
  · rintro ⟨hu, hf⟩
    exact ⟨_, ts, [], acts, reads_peek.mpr ⟨hu, rfl, rfl, rfl⟩, hf, rfl⟩

/-- A symbol is accepted where it stands, and nothing is read where it does not. -/
theorem reads_accept_bind {char : Char} {f : Bool → Parser β} {b : β} :
    Reads flaw (accept char >>= f) ts acts b rest ↔
      (∃ mid, ts = .symbol char :: mid ∧ Unbroken flaw mid ∧ Reads flaw (f true) mid acts b rest) ∨
        (ts.head? ≠ some (.symbol char) ∧ Reads flaw (f false) ts acts b rest) := by
  simp only [accept, bind_assoc, reads_look_bind]
  by_cases h : ts.head? = some (.symbol char)
  · obtain ⟨mid, rfl⟩ := List.head?_eq_some_iff.mp h
    simp [atSymbol, reads_advance_bind]
  · have hn : ∀ mid, ts ≠ .symbol char :: mid := by
      rintro mid rfl
      exact h rfl
    simp [atSymbol, h, hn]

/-- Nothing follows a failure. -/
@[simp] theorem not_reads_fail_bind {expected : Expectation} {f : α → Parser β} {b : β} :
    ¬ Reads flaw (fail expected >>= f) ts acts b rest := by
  rintro ⟨xs, c', h, -, -⟩
  rw [bind_apply_of_error (rfl : fail expected (.atStart flaw ts) = ⟨[], .error _⟩)] at h
  cases h

/-- A symbol that has to stand somewhere is read there. -/
theorem reads_expect_bind {char : Char} {f : Unit → Parser β} {b : β} :
    Reads flaw (expect char >>= f) ts acts b rest ↔
      ∃ mid, ts = .symbol char :: mid ∧ Unbroken flaw mid ∧ Reads flaw (f ()) mid acts b rest := by
  simp [expect, bind_assoc, reads_accept_bind]

/-- A reserved word that has to stand somewhere is read there. -/
theorem reads_expectKeyword_bind {word : Keyword} {f : Unit → Parser β} {b : β} :
    Reads flaw (expectKeyword word >>= f) ts acts b rest ↔
      ∃ mid, ts = .keyword word :: mid ∧ Unbroken flaw mid ∧ Reads flaw (f ()) mid acts b rest := by
  simp only [expectKeyword, bind_assoc, reads_look_bind]
  by_cases h : ts.head? = some (.keyword word)
  · obtain ⟨mid, rfl⟩ := List.head?_eq_some_iff.mp h
    simp [atKeyword, reads_advance_bind]
  · have hn : ∀ mid, ts ≠ .keyword word :: mid := by
      rintro mid rfl
      exact h rfl
    simp [atKeyword, h, hn]

/-- An identifier is read and its name is given. -/
theorem reads_identifier_bind {f : String → Parser β} {b : β} :
    Reads flaw (identifier >>= f) ts acts b rest ↔
      ∃ name mid, ts = .identifier name :: mid ∧ Unbroken flaw mid ∧
        Reads flaw (f name) mid acts b rest := by
  simp only [identifier, bind_assoc, reads_look_bind]
  rcases ts with _ | ⟨_ | _ | _ | _ | _, ts⟩ <;> simp [reads_advance_bind]

/-! The same where nothing follows. -/

/-- Moving on reports nothing. -/
theorem reads_advance {u : Unit} :
    Reads flaw advance ts acts u rest ↔ Unbroken flaw ts.tail ∧ acts = [] ∧ rest = ts.tail := by
  rw [← bind_pure advance, reads_advance_bind]
  simp

/-- Reading a symbol reports nothing. -/
theorem reads_expect {char : Char} {u : Unit} :
    Reads flaw (expect char) ts acts u rest ↔
      ts = .symbol char :: rest ∧ Unbroken flaw rest ∧ acts = [] := by
  rw [← bind_pure (expect char), reads_expect_bind]
  grind [reads_pure]

/-! ## Repetition -/

section Repetition

variable {test : Option Token → Bool} {round : Parser Unit} {limit n : Nat}

/-- Without a round left nothing is read. -/
theorem reads_repeatWhile_zero :
    Reads flaw (repeatWhile test round 0) ts acts n rest ↔ acts = [] ∧ n = 0 ∧ rest = ts :=
  reads_pure

/-- No round is made where the test fails, whatever the limit. -/
theorem reads_repeatWhile_stop (h : test ts.head? = false) :
    Reads flaw (repeatWhile test round limit) ts acts n rest ↔ acts = [] ∧ n = 0 ∧ rest = ts := by
  cases limit with
  | zero => exact reads_repeatWhile_zero
  | succ limit => simp [repeatWhile, reads_look_bind, h]

/-- A round and then the others. -/
theorem reads_repeatWhile_go [Alike Anywhere round round] (h : test ts.head? = true) :
    Reads flaw (repeatWhile test round (limit + 1)) ts acts n rest ↔
      ∃ mid acts₁ acts₂ m, Reads flaw round ts acts₁ () mid ∧
        Reads flaw (repeatWhile test round limit) mid acts₂ m rest ∧ acts = acts₁ ++ acts₂ ∧
          n = m + 1 := by
  simp only [repeatWhile, reads_look_bind, h, if_true]
  rw [reads_bind]
  constructor
  · rintro ⟨u, mid, acts₁, acts₂, h₁, h₂, rfl⟩
    obtain ⟨m, h₃, rfl⟩ := reads_bind_pure.mp h₂
    exact ⟨mid, acts₁, acts₂, m, h₁, h₃, rfl, rfl⟩
  · rintro ⟨mid, acts₁, acts₂, m, h₁, h₂, rfl, rfl⟩
    exact ⟨(), mid, acts₁, acts₂, h₁, reads_bind_pure.mpr ⟨m, h₂, rfl⟩, rfl⟩

variable {T : Type} {tokens : T → List Token} {actions : T → List Action}

/-- If every round reads an item, all rounds together read a list of items. -/
theorem Reads.exists_rounds [Alike Anywhere round round]
    (h : ∀ ⦃ts rest : List Token⦄ ⦃acts : List Action⦄, test ts.head? = true →
      Reads flaw round ts acts () rest → ∃ x, ts = tokens x ++ rest ∧ acts = actions x)
    (hr : Reads flaw (repeatWhile test round limit) ts acts n rest) :
    ∃ xs : List T, ts = xs.flatMap tokens ++ rest ∧ acts = xs.flatMap actions ∧ n = xs.length := by
  induction limit generalizing ts acts n with
  | zero =>
    obtain ⟨rfl, rfl, rfl⟩ := reads_repeatWhile_zero.mp hr
    exact ⟨[], rfl, rfl, rfl⟩
  | succ limit ih =>
    cases ht : test ts.head? with
    | false =>
      obtain ⟨rfl, rfl, rfl⟩ := (reads_repeatWhile_stop ht).mp hr
      exact ⟨[], rfl, rfl, rfl⟩
    | true =>
      obtain ⟨mid, acts₁, acts₂, m, h₁, h₂, rfl, rfl⟩ := (reads_repeatWhile_go ht).mp hr
      obtain ⟨x, rfl, rfl⟩ := h ht h₁
      obtain ⟨xs, rfl, rfl, rfl⟩ := ih h₂
      exact ⟨x :: xs, by simp, by simp, rfl⟩

/-- A list of items is read by as many rounds, if the test tells the items from what follows them
and every item may follow another one. The rounds use up their limit, but the limit of an item stays
as it is. -/
theorem ReadsAll.rounds [Alike Anywhere round round] {follow : Option Token → Prop}
    (h : ReadsAll round tokens actions follow limit) (hpos : ∀ x, 0 < (tokens x).length)
    (htest : ∀ x back, test (tokens x ++ back).head? = true)
    (hnext : ∀ x back, follow (tokens x ++ back).head?)
    (hend : test rest.head? = false) (hrest : follow rest.head?) {xs : List T}
    (hxs : (xs.flatMap tokens).length ≤ limit) :
    Reads none (repeatWhile test round limit) (xs.flatMap tokens ++ rest) (xs.flatMap actions)
      xs.length rest := by
  suffices ∀ count, (xs.flatMap tokens).length ≤ count →
      Reads none (repeatWhile test round count) (xs.flatMap tokens ++ rest) (xs.flatMap actions)
        xs.length rest from this limit hxs
  induction xs with
  | nil =>
    intro count _
    exact (reads_repeatWhile_stop hend).mpr ⟨rfl, rfl, rfl⟩
  | cons x xs ih =>
    intro count hcount
    have hx := hpos x
    simp only [List.flatMap_cons, List.length_append] at hxs hcount
    obtain ⟨count, rfl⟩ : ∃ k, count = k + 1 := ⟨count - 1, by omega⟩
    have hfollow : follow (xs.flatMap tokens ++ rest).head? := by
      cases xs with
      | nil => exact hrest
      | cons y ys =>
        rw [List.flatMap_cons, List.append_assoc]
        exact hnext y _
    have hround := h (by omega : (tokens x).length ≤ limit) hfollow
    have hrounds := ih (by omega) count (by omega)
    simp only [List.flatMap_cons, List.append_assoc, List.length_cons]
    exact (reads_repeatWhile_go (htest x _)).mpr ⟨_, _, _, _, hround, hrounds, rfl, rfl⟩

end Repetition

section Commas

variable {item : Parser Unit} [Alike Anywhere item item] {limit n : Nat} {T : Type}
  {tokens : T → List Token} {actions : T → List Action}

/-- Items with commas are an item and then rounds that begin with a comma. -/
theorem reads_commaSeparated :
    Reads flaw (commaSeparated item limit) ts acts n rest ↔
      ∃ mid acts₁ acts₂ m, Reads flaw item ts acts₁ () mid ∧
        Reads flaw (repeatWhile (atSymbol ',') (do advance; item) limit) mid acts₂ m rest ∧
          acts = acts₁ ++ acts₂ ∧ n = m + 1 := by
  unfold commaSeparated
  rw [reads_bind]
  constructor
  · rintro ⟨u, mid, acts₁, acts₂, h₁, h₂, rfl⟩
    obtain ⟨m, h₃, rfl⟩ := reads_bind_pure.mp h₂
    exact ⟨mid, acts₁, acts₂, m, h₁, h₃, rfl, rfl⟩
  · rintro ⟨mid, acts₁, acts₂, m, h₁, h₂, rfl, rfl⟩
    exact ⟨(), mid, acts₁, acts₂, h₁, reads_bind_pure.mpr ⟨m, h₂, rfl⟩, rfl⟩

/-- If the recogniser reads an item, then with commas it reads a list of them. -/
theorem Reads.exists_commaSeparated (h : OnlyReads item tokens actions)
    (hr : Reads flaw (commaSeparated item limit) ts acts n rest) :
    ∃ (x : T) (xs : List T),
      ts = tokens x ++ xs.flatMap (fun y => .symbol ',' :: tokens y) ++ rest ∧
        acts = actions x ++ xs.flatMap actions ∧ n = xs.length + 1 := by
  obtain ⟨mid, acts₁, acts₂, m, h₁, h₂, rfl, rfl⟩ := reads_commaSeparated.mp hr
  obtain ⟨x, rfl, rfl⟩ := h h₁
  have hround : ∀ ⦃ts rest : List Token⦄ ⦃acts : List Action⦄, atSymbol ',' ts.head? = true →
      Reads flaw (do advance; item) ts acts () rest →
        ∃ y, ts = .symbol ',' :: tokens y ++ rest ∧ acts = actions y := by
    intro ts rest acts ht hr
    obtain ⟨back, rfl⟩ := List.head?_eq_some_iff.mp (of_decide_eq_true ht)
    obtain ⟨-, hitem⟩ := reads_advance_bind.mp hr
    obtain ⟨y, hy, rfl⟩ := h hitem
    exact ⟨y, congrArg (_ :: ·) hy, rfl⟩
  obtain ⟨xs, rfl, rfl, rfl⟩ := h₂.exists_rounds hround
  exact ⟨x, xs, by simp, rfl, rfl⟩

/-- Items with commas between them are read, if a comma may follow an item. -/
theorem ReadsAll.commas {follow : Option Token → Prop}
    (h : ReadsAll item tokens actions follow limit) (hcomma : follow (some (.symbol ',')))
    (hend : rest.head? ≠ some (.symbol ',')) (hrest : follow rest.head?) {x : T} {xs : List T}
    (hxs : (tokens x ++ xs.flatMap fun y => .symbol ',' :: tokens y).length ≤ limit) :
    Reads none (commaSeparated item limit)
      (tokens x ++ xs.flatMap (fun y => .symbol ',' :: tokens y) ++ rest)
      (actions x ++ xs.flatMap actions) (xs.length + 1) rest := by
  have hround : ReadsAll (do advance; item) (fun y => .symbol ',' :: tokens y) actions follow
      limit := by
    intro y back hy hback
    have hitem := h (Nat.le_of_succ_le hy) hback
    exact reads_advance_bind.mpr ⟨unbroken_none _, hitem⟩
  rw [List.length_append] at hxs
  have hfollow : follow (xs.flatMap (fun y => .symbol ',' :: tokens y) ++ rest).head? := by
    cases xs with
    | nil => exact hrest
    | cons y ys => exact hcomma
  have hfirst := h (by omega : (tokens x).length ≤ limit) hfollow
  have hothers : Reads none (repeatWhile (atSymbol ',') (do advance; item) limit) _ _ _ rest :=
    hround.rounds (fun y => Nat.succ_pos _) (fun y back => by simp [atSymbol])
      (fun y back => hcomma) (by simp [atSymbol, hend]) hrest
      (by omega : (xs.flatMap fun y => .symbol ',' :: tokens y).length ≤ limit)
  rw [List.append_assoc]
  exact reads_commaSeparated.mpr ⟨_, _, _, _, hfirst, hothers, rfl, rfl⟩

end Commas

end Parser

end JackStack
