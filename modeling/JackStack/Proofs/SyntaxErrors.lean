import JackStack.Proofs.Grammar.Recognition
import JackStack.Proofs.Source.Places
import JackStack.Proofs.Translation

/-!
# Syntax errors

A compilation that fails because of a token it did not expect names the first token that cannot
stand where it stands. Failures of other kinds, which the source, the actions and the sink may
have, are told apart by their classes.
-/

namespace JackStack

/-! ## Failures of other kinds -/

/-- What fails when an action is carried out are names and constants. -/
theorem Generator.step_error {g : Generator} {a : Action} {e : Error} (h : g.step a = .error e) :
    e.errorClass = .semantic := by
  cases a with
  | declare kind type name pos =>
    cases kind <;> simp only [step, declare] at h <;> split at h <;> cases h <;> rfl
  | use name pos =>
    rw [step] at h
    split at h <;> cases h
    rfl
  | checkInteger value pos =>
    rw [step] at h
    split at h <;> cases h
    rfl
  | checkString content pos =>
    rw [step] at h
    split at h <;> cases h
    next hfault =>
    unfold stringFault at hfault
    split at hfault
    · cases hfault
      rfl
    · dsimp only at hfault
      split at hfault <;> cases hfault
      rfl
  | _ => cases h

/-- The generator fails by names and constants only. -/
theorem Generator.run_error {g : Generator} {actions : List Action} {e : Error}
    (h : (g.run [] actions).2 = .error e) : e.errorClass = .semantic := by
  induction actions generalizing g with
  | nil => cases h
  | cons a rest ih =>
    rcases hstep : g.step a with e' | ⟨g', new⟩
    · rw [run_cons_of_error hstep] at h
      cases h
      exact step_error hstep
    · rw [run_cons_of_ok hstep] at h
      exact ih h

namespace Run

/-- A failure of a delivery is that of the run or one of the sink. -/
theorem error_of_deliverFrom {indent : Nat} {verdict : Except Error Unit} {events : List Event}
    {w : Writer} {notes : List Note} {e : Error}
    (h : (deliverFrom indent verdict w notes events).verdict = .error e) :
    verdict = .error e ∨ e.errorClass = .io := by
  induction events generalizing w notes with
  | nil =>
    unfold deliverFrom at h
    split at h
    · exact .inl h
    · split at h <;> cases h
      exact .inr rfl
  | cons event events ih =>
    cases event with
    | note n => exact ih h
    | emit i =>
      rw [deliverFrom] at h
      split at h
      · exact ih h
      · cases h
        exact .inr rfl

/-- A run that fails by the grammar fails in recognition. -/
theorem parse_of_syntactic {readings : List Reading} {e : Error}
    (h : (Run.ofReadings readings).verdict = .error e) (he : e.errorClass = .syntactic) :
    ∃ xs, Syntax.parse (Unread.ofReadings readings).outcomes (Unread.ofReadings readings).finish =
      ⟨xs, .error e⟩ := by
  simp only [Run.ofReadings] at h
  rcases hparse : Syntax.parse (Unread.ofReadings readings).outcomes
    (Unread.ofReadings readings).finish with ⟨xs, outcome⟩
  rw [hparse] at h
  rcases hrun : generate xs with ⟨events, e' | g⟩
  · have hsemantic : e'.errorClass = .semantic := Generator.run_error (congrArg Prod.snd hrun)
    simp only [hrun] at h
    cases h
    rw [he] at hsemantic
    cases hsemantic
  · simp only [hrun] at h
    cases outcome with
    | error e' =>
      cases h
      exact ⟨xs, rfl⟩
    | ok r => cases h

end Run

/-! ## The earliest token -/

/-- The first failure among outcomes is one of them. -/
theorem Outcome.mem_of_flaw? {outcomes : List Outcome} {e : Error} (h : flaw? outcomes = some e) :
    .failure e ∈ outcomes := by
  induction outcomes with
  | nil => cases h
  | cons o rest ih =>
    cases o with
    | lexeme lx => exact List.mem_cons_of_mem _ (ih h)
    | failure e' =>
      cases h
      exact List.mem_cons_self

/-- The lexemes in front of the first failure are the first of all lexemes. -/
theorem Outcome.filterMap_lexeme?_eq (outcomes : List Outcome) :
    ∃ more, outcomes.filterMap lexeme? = lexemes outcomes ++ more ∧
      (flaw? outcomes = none → more = []) := by
  induction outcomes with
  | nil => exact ⟨[], rfl, fun _ => rfl⟩
  | cons o rest ih =>
    cases o with
    | lexeme lx =>
      obtain ⟨more, hmore, hnone⟩ := ih
      exact ⟨more, congrArg (lx :: ·) hmore, hnone⟩
    | failure e => exact ⟨rest.filterMap lexeme?, rfl, nofun⟩

/-- The lexemes of a source are parted where a syntax error stands. -/
structure Parted (scanned used rest : List Lexeme) (finish pos : Position) (found : Option Token)
    (size : Nat) : Prop where
  split : scanned = used ++ rest
  place : pos = Cursor.placeOf finish rest
  got : found = rest.head?.map (·.token)
  begun : ∃ c : Tree.Class, used.map (·.token) <+: c.tokens
  /-- No class up to the size begins with the tokens up to the refused one. -/
  refused : ∀ c : Tree.Class, c.tokens.length ≤ size →
    c.tokens.take (used.length + 1) ≠ (scanned.map (·.token)).take (used.length + 1)

/-- A syntax error parts the lexemes of the source, those behind lexical failures included. Lexemes
behind a failure only follow where a refused token stands in front of it. -/
theorem exists_parted {bytes : List UInt8} {sink : Sink} {options : Options} {pos : Position}
    {expected : Expectation} {found : Option Token}
    (h : (compile (Reading.ofBytes bytes) sink options).verdict =
      .error (.unexpectedToken pos expected found)) (size : Nat) :
    ∃ used rest, Parted
      ((Unread.ofReadings (Reading.ofBytes bytes)).outcomes.filterMap Outcome.lexeme?) used rest
      (Position.start.after bytes) pos found size := by
  have hrun := (Run.error_of_deliverFrom h).resolve_right nofun
  obtain ⟨xs, hparse⟩ := Run.parse_of_syntactic hrun rfl
  have hfinish :
      (Unread.ofReadings (Reading.ofBytes bytes)).finish = Position.start.after bytes := by
    rw [Unread.finish, Unread.ofReadings, Reading.bytes_ofBytes]
  have hflaw : ∀ e, Outcome.flaw? (Unread.ofReadings (Reading.ofBytes bytes)).outcomes = some e →
      e.errorClass ≠ .syntactic := by
    intro e he hclass
    have hlexical := Unread.failures_lexical (Outcome.mem_of_flaw? he)
    rw [hclass] at hlexical
    cases hlexical
  obtain ⟨used, rest, hsplit, hend, hplace, hfound, hbegun, hrefused⟩ :=
    Syntax.parse_refuses hparse hflaw size
  obtain ⟨more, hmore, hnone⟩ :=
    Outcome.filterMap_lexeme?_eq (Unread.ofReadings (Reading.ofBytes bytes)).outcomes
  rw [hsplit, List.append_assoc] at hmore
  have hhead : (rest ++ more).head? = rest.head? := by
    cases rest with
    | nil => rw [hnone (hend rfl)]; rfl
    | cons lx rest => rfl
  have htake : ((used ++ (rest ++ more)).map (·.token)).take (used.length + 1) =
      ((used ++ rest).map (·.token)).take (used.length + 1) := by
    simp only [← List.map_take, List.take_length_add_append, List.take_one, hhead]
  refine ⟨used, rest ++ more, hmore, ?_, ?_, hbegun, ?_⟩
  · rw [hplace, hfinish, Cursor.placeOf, Cursor.placeOf, hhead]
  · rw [hfound, hhead]
  · intro c hc
    rw [hmore, htake]
    exact hrefused c hc

/-- The place of the error tells how many lexemes stand in front of it. -/
theorem Parted.countP_eq {bytes : List UInt8} {used rest : List Lexeme} {pos : Position}
    {found : Option Token} {size : Nat}
    (h : Parted ((Unread.ofReadings (Reading.ofBytes bytes)).outcomes.filterMap Outcome.lexeme?)
      used rest (Position.start.after bytes) pos found size) :
    ((Unread.ofReadings (Reading.ofBytes bytes)).outcomes.filterMap Outcome.lexeme?).countP
      (fun lx => lx.pos.Before pos) = used.length := by
  have horder := Unread.lexemes_inOrder bytes
  rw [h.split] at horder ⊢
  rw [h.place]
  exact horder.countP_before

/-- A syntax error stands at the earliest token. The tokens in front of it begin a class. If it
stands at a token, it names that token, and no class begins with the tokens up to that one; if it
stands at the end of the source, it names that end, and the tokens are those of no class. -/
theorem syntax_error_earliest {bytes : List UInt8} {sink : Sink} {options : Options}
    {pos : Position} {expected : Expectation} {found : Option Token}
    (h : (compile (Reading.ofBytes bytes) sink options).verdict =
      .error (.unexpectedToken pos expected found)) :
    let scanned := (Unread.ofReadings (Reading.ofBytes bytes)).outcomes.filterMap Outcome.lexeme?
    let tokens := scanned.map (·.token)
    let k := scanned.countP fun lx => lx.pos.Before pos
    (∃ c : Tree.Class, tokens.take k <+: c.tokens) ∧
      (∀ lx, scanned[k]? = some lx →
        pos = lx.pos ∧ ∀ c : Tree.Class, ¬tokens.take (k + 1) <+: c.tokens) ∧
      (scanned[k]? = none →
        pos = Position.start.after bytes ∧ k = tokens.length ∧
          ∀ c : Tree.Class, c.tokens ≠ tokens) ∧
      found = tokens[k]? ∧
      (Error.unexpectedToken pos expected found).message = pos.text ++ ": " ++
        ("expected " ++ expected.text ++ ", got " ++ Token.describe tokens[k]?) := by
  intro scanned tokens k
  obtain ⟨used, rest, hparted⟩ := exists_parted h 0
  have hk : k = used.length := hparted.countP_eq
  have hsplit : scanned = used ++ rest := hparted.split
  have hat : scanned[k]? = rest.head? := by
    rw [hsplit, hk, List.getElem?_append_right (Nat.le_refl _), Nat.sub_self,
      List.head?_eq_getElem?]
  have hrefused : ∀ c : Tree.Class, c.tokens.take (k + 1) ≠ tokens.take (k + 1) := by
    intro c
    obtain ⟨used', rest', hparted'⟩ := exists_parted h c.tokens.length
    have hk' : k = used'.length := hparted'.countP_eq
    rw [hk']
    exact hparted'.refused c (Nat.le_refl _)
  have hfound : found = tokens[k]? := by
    rw [hparted.got, ← hat]
    exact (List.getElem?_map ..).symm
  refine ⟨?_, ?_, ?_, hfound, ?_⟩
  · have htake : tokens.take k = used.map (·.token) := by
      simp only [tokens, hsplit, hk, List.map_append]
      exact List.take_left' (List.length_map _)
    rw [htake]
    exact hparted.begun
  · intro lx hlx
    rw [hat] at hlx
    refine ⟨?_, fun c hc => hrefused c ?_⟩
    · rw [hparted.place, Cursor.placeOf, hlx]
      rfl
    · obtain ⟨back, hback⟩ := hc
      have hlength : (tokens.take (k + 1)).length = k + 1 := by
        obtain ⟨rest, rfl⟩ := List.head?_eq_some_iff.mp hlx
        simp only [tokens, hsplit, List.length_take, List.length_map, List.length_append,
          List.length_cons]
        omega
      rw [← hback]
      exact List.take_left' hlength
  · intro hnone
    rw [hat, List.head?_eq_none_iff] at hnone
    subst hnone
    rw [List.append_nil] at hsplit
    have hlength : tokens.length = k := by
      rw [hk, ← hsplit]
      exact List.length_map _
    refine ⟨hparted.place, hlength.symm, fun c hc => hrefused c ?_⟩
    rw [hc]
  · rw [hfound]
    rfl

/-- A class whose body begins with a statement; a byte that begins nothing follows. -/
def strayLet : List UInt8 := utf8 "class A \x7b let @ \x7d"

/-- The statement is refused, since no class goes on with it. -/
theorem strayLet_refused :
    (compile (Reading.ofBytes strayLet) {} {}).verdict =
        .error (.unexpectedToken ⟨1, 11⟩ .member (some (.keyword .letKw))) ∧
      (∃ c : Tree.Class, [.keyword .classKw, .identifier "A", .symbol '{'] <+: c.tokens) ∧
      ∀ c : Tree.Class,
        ¬[.keyword .classKw, .identifier "A", .symbol '{', .keyword .letKw] <+: c.tokens := by
  have hverdict : (compile (Reading.ofBytes strayLet) {} {}).verdict =
      .error (.unexpectedToken ⟨1, 11⟩ .member (some (.keyword .letKw))) := by decide +kernel
  have hscanned : (Unread.ofReadings (Reading.ofBytes strayLet)).outcomes.filterMap
      Outcome.lexeme? = [⟨.keyword .classKw, ⟨1, 1⟩⟩, ⟨.identifier "A", ⟨1, 7⟩⟩,
        ⟨.symbol '{', ⟨1, 9⟩⟩, ⟨.keyword .letKw, ⟨1, 11⟩⟩, ⟨.symbol '}', ⟨1, 17⟩⟩] := by
    decide +kernel
  obtain ⟨hbegun, hrefused, -⟩ := syntax_error_earliest hverdict
  rw [hscanned] at hbegun hrefused
  exact ⟨hverdict, hbegun, (hrefused _ rfl).2⟩

end JackStack
