import JackStack.Proofs.Printing
import JackStack.Proofs.SemanticErrors
import JackStack.Proofs.Sinks

/-!
# String constants

A string constant becomes code that makes a string object and appends its characters in order, or
it is refused: for its first character that is too large, and where there is none for its length.
Nothing is emitted for a refused constant. All of this holds for constants of any length, where the
length counts in 32 bits: one with 2³² characters is taken for an empty one.
-/

namespace JackStack

open JackStack.Tree

/-! ## Emitting behind what was carried out -/

namespace Generator

variable {g g' : Generator} {code : List Instruction}

/-- Behind actions that were carried out, the others are carried out from where they led. -/
theorem run_append_of_carries {xs : List Action} (h : Carries g xs code g') (ys : List Action) :
    Event.instructions (g.run [] (xs ++ ys)).1 =
        code ++ Event.instructions (g'.run [] ys).1 ∧
      (g.run [] (xs ++ ys)).2 = (g'.run [] ys).2 := by
  obtain ⟨events, hrun, rfl⟩ := h
  rw [run_append, hrun]
  exact ⟨Event.instructions_append _ _, rfl⟩

/-- A string constant that is not refused is carried out into its code. -/
theorem carries_string {content : String} {pos : Position}
    (h : stringFault content pos = none) (g : Generator) (drawn : List Lexeme) :
    Carries g (.checkString content pos :: (drawn.map .scan ++ [.loadString content]))
      (stringCode content) g := by
  have hcheck : g.step (.checkString content pos) = .ok (g, []) := by
    simp only [step, h]
  have hload : g.step (.loadString content) = .ok (g, emitAll (stringCode content)) := rfl
  refine (carries_cons_of_ok hcheck).mpr ⟨stringCode content, rfl, ?_⟩
  rw [← carries_unplaced, Action.unplaced_append, Action.unplaced_map_scan, List.nil_append]
  refine (carries_cons_of_ok hload).mpr ⟨[], ?_, carries_nil.mpr ⟨rfl, rfl⟩⟩
  rw [instructions_emitAll, List.append_nil]

end Generator

/-! ## Coming to a string constant -/

/-- The compilation of a source comes to a string constant at a place, as a term: what stands before
it has been carried out and has emitted code. Behind the constant a token is scanned or the source
ends. -/
structure Meets (bytes : List UInt8) (content : String) (pos : Position)
    (code : List Instruction) : Prop where
  reached : ∃ xs ys g, (Syntax.parse (Unread.ofReadings (Reading.ofBytes bytes)).outcomes
      (Unread.ofReadings (Reading.ofBytes bytes)).finish).actions =
        xs ++ .checkString content pos :: ys ∧ Generator.Carries {} xs code g
  followed : ∀ e, Outcome.flaw? (Unread.ofReadings (Reading.ofBytes bytes)).outcomes = some e →
    ∃ lx ∈ Outcome.lexemes (Unread.ofReadings (Reading.ofBytes bytes)).outcomes,
      pos.Before lx.pos

/-- Where a token follows the constant, its value is wanted next. No token stands behind the last
one in front of the failure. -/
theorem Meets.exists_loadString {bytes : List UInt8} {content : String} {pos : Position}
    {code : List Instruction} (h : Meets bytes content pos code) {xs ys : List Action}
    (hactions : (Syntax.parse (Unread.ofReadings (Reading.ofBytes bytes)).outcomes
      (Unread.ofReadings (Reading.ofBytes bytes)).finish).actions =
        xs ++ .checkString content pos :: ys) :
    ∃ (drawn : List Lexeme) (more : List Action),
      ys = drawn.map .scan ++ .loadString content :: more := by
  have hplace : (Action.checkString content pos).pos? ≠ none := nofun
  obtain ⟨c, hshows, hsighted⟩ := Syntax.parse_sighted hactions hplace
  obtain ⟨used, rest, lx, front, back, m, -, split, place, -, looks, -, -, -, -, sequel⟩ := hsighted
  have hmark : m = .string content := by
    cases m <;> cases looks
    rfl
  refine sequel (.loadString content) (by rw [hmark]; rfl) ?_
  rintro rfl
  rw [hshows.flaw]
  cases hflaw : Outcome.flaw? (Unread.ofReadings (Reading.ofBytes bytes)).outcomes with
  | none => rfl
  | some e =>
    obtain ⟨next, hnext, hbefore⟩ := h.followed e hflaw
    rw [← hshows.lexemes, split] at hnext
    obtain ⟨more, hmore, -⟩ :=
      Outcome.filterMap_lexeme?_eq (Unread.ofReadings (Reading.ofBytes bytes)).outcomes
    have horder := (Unread.lexemes_inOrder bytes).sorted
    rw [hmore, ← hshows.lexemes, split] at horder
    have hpos : pos = lx.pos := Option.some.inj place
    rw [hpos] at hbefore
    rcases List.mem_append.mp hnext with hused | hlast
    · have hearlier := (List.pairwise_append.mp (List.pairwise_append.mp horder).1).2.2 next hused
        lx List.mem_cons_self
      exact absurd hbefore hearlier.asymm
    · rw [List.mem_singleton.mp hlast] at hbefore
      exact absurd hbefore lx.pos.not_before_self

/-- What a compilation does with a string constant that it comes to. If a character is too large,
it fails and reports the first such character; otherwise it fails if the length, in 32 bits, is
too large; otherwise it emits the code of the constant. Where it fails nothing is emitted for the
constant. -/
theorem string_constant_compiled {bytes : List UInt8} {content : String} {pos : Position}
    {code : List Instruction} (h : Meets bytes content pos code) (options : Options) :
    let report := compile (Reading.ofBytes bytes) {} options
    let emitted := Event.instructions (Run.ofReadings (Reading.ofBytes bytes)).events
    report.output = (codeText options.indent emitted).toUTF8 ∧
      ((∃ x ∈ content.toList, 32767 < x.toNat) →
        ∃ front c back, content.toList = front ++ c :: back ∧ (∀ x ∈ front, x.toNat ≤ 32767) ∧
          32767 < c.toNat ∧ report.verdict = .error (.charOutOfRange pos c) ∧ emitted = code) ∧
      ((∀ x ∈ content.toList, x.toNat ≤ 32767) → 32767 < content.length % UInt32.size →
        report.verdict = .error (.intOutOfRange pos (.ofNat content.length)) ∧ emitted = code) ∧
      ((∀ x ∈ content.toList, x.toNat ≤ 32767) → content.length % UInt32.size ≤ 32767 →
        ∃ more : List Instruction, emitted = code ++
          (.push .constant (.ofNat content.length) :: .call "String.new" 1 ::
            content.toList.flatMap fun c =>
              [.push .constant c.val, .call "String.appendChar" 2]) ++ more) := by
  intro report emitted
  obtain ⟨houtput, hverdict⟩ := compile_default (Reading.ofBytes bytes) options
  obtain ⟨xs, ys, g, hactions, hxs⟩ := h.reached
  obtain ⟨hcode, hend⟩ :=
    Generator.run_append_of_carries hxs (.checkString content pos :: ys)
  rw [← hactions] at hcode hend
  have hrefused : ∀ e, stringFault content pos = some e →
      report.verdict = .error e ∧ emitted = code := by
    intro e he
    have hstep : g.step (.checkString content pos) = .error e := by
      simp only [Generator.step, he]
    rw [Generator.run_cons_of_error hstep] at hcode hend
    refine ⟨hverdict.trans ?_, hcode.trans (List.append_nil code)⟩
    simp only [Run.ofReadings, generate, hend]
    rfl
  have haccepted : stringFault content pos = none →
      ∃ more, emitted = code ++ stringCode content ++ more := by
    intro hnone
    obtain ⟨drawn, more, rfl⟩ := h.exists_loadString hactions
    have hstring := Generator.carries_string hnone g drawn
    obtain ⟨hcode', -⟩ := Generator.run_append_of_carries hstring more
    refine ⟨Event.instructions (g.run [] more).1, hcode.trans ?_⟩
    rw [List.append_assoc, ← hcode']
    simp
  have hcases := stringFault_cases content pos
  refine ⟨houtput, ?_, ?_, ?_⟩
  · rintro ⟨x, hx, hlarge⟩
    rcases hcases with ⟨front, c, back, hsplit, hsmall, hc, hfault⟩ | ⟨hall, -⟩
    · exact ⟨front, c, back, hsplit, hsmall, hc, hrefused _ hfault⟩
    · exact absurd (hall x hx) (Nat.not_le.mpr hlarge)
  · intro hall hlong
    rcases hcases with ⟨front, c, back, hsplit, -, hc, -⟩ | ⟨-, hfault⟩
    · exact absurd (hall c (by simp [hsplit])) (Nat.not_le.mpr hc)
    · rw [if_pos hlong] at hfault
      exact hrefused _ hfault
  · intro hall hshort
    rcases hcases with ⟨front, c, back, hsplit, -, hc, -⟩ | ⟨-, hfault⟩
    · exact absurd (hall c (by simp [hsplit])) (Nat.not_le.mpr hc)
    · rw [if_neg (Nat.not_lt.mpr hshort)] at hfault
      exact haccepted hfault

/-- A function that calls another one with a text. -/
def greeting : List UInt8 :=
  utf8 "class A \x7b function void f() \x7b do g(\"né\"); return; \x7d \x7d"

theorem greeting_meets : Meets greeting "né" ⟨1, 36⟩ [.function "A.f" 0] := by
  let actions := (Syntax.parse (Unread.ofReadings (Reading.ofBytes greeting)).outcomes
    (Unread.ofReadings (Reading.ofBytes greeting)).finish).actions
  have hsplit : actions = actions.take 18 ++ .checkString "né" ⟨1, 36⟩ :: actions.drop 19 := by
    decide +kernel
  have hunplaced : Action.unplaced (actions.take 18) =
      [.nameClass "A", .openSub .function, .nameSub "f", .openBody, .receiveThis] := by
    decide +kernel
  have hflaw : Outcome.flaw? (Unread.ofReadings (Reading.ofBytes greeting)).outcomes = none := by
    decide +kernel
  constructor
  case reached =>
    refine ⟨actions.take 18, actions.drop 19, { className := "A", subName := "f" }, hsplit, ?_⟩
    rw [← Generator.carries_unplaced, hunplaced]
    exact ⟨_, rfl, rfl⟩
  case followed =>
    intro e he
    rw [hflaw] at he
    cases he

/-- The code that makes the text. -/
def greetingCode : List Instruction :=
  [.push .constant 2, .call "String.new" 1, .push .constant 110, .call "String.appendChar" 2,
    .push .constant 233, .call "String.appendChar" 2]

/-- The text is made with its two characters, the second of which takes two bytes. -/
theorem greeting_compiled : Meets greeting "né" ⟨1, 36⟩ [.function "A.f" 0] ∧
    ∃ more, Event.instructions (Run.ofReadings (Reading.ofBytes greeting)).events =
      .function "A.f" 0 :: greetingCode ++ more := by
  obtain ⟨-, -, -, hcode⟩ := string_constant_compiled greeting_meets {}
  have hsmall : ∀ x ∈ "né".toList, x.toNat ≤ 32767 := by
    change ∀ x ∈ ['n', 'é'], x.toNat ≤ 32767
    simp only [List.forall_mem_cons]
    exact ⟨by decide, by decide, List.forall_mem_nil _⟩
  exact ⟨greeting_meets, hcode hsmall (by decide)⟩

/-! ## A length that does not fit -/

/-- A text of equal letters. -/
def letters (n : Nat) : String := String.ofList (List.replicate n 'a')

theorem mem_letters {n : Nat} {c : Char} (h : c ∈ (letters n).toList) : c = 'a' := by
  rw [letters, String.toList_ofList] at h
  exact List.eq_of_mem_replicate h

theorem length_letters (n : Nat) : (letters n).length = n := by
  rw [letters, String.length_ofList, List.length_replicate]

/-- A class whose only function calls itself with a text of equal letters. -/
def shout (n : Nat) : Tree.Class where
  name := "A"
  groups := []
  subroutines :=
    [⟨.function, none, "f", [], [],
      [.perform (.mk none "f" [.chain (.string (letters n)) []]), .giveBack none]⟩]

theorem shout_tokens (n : Nat) : (shout n).tokens =
    [.keyword .classKw, .identifier "A", .symbol '{', .keyword .functionKw, .keyword .voidKw,
      .identifier "f", .symbol '(', .symbol ')', .symbol '{', .keyword .doKw, .identifier "f",
      .symbol '(', .string (letters n), .symbol ')', .symbol ';', .keyword .returnKw,
      .symbol ';', .symbol '}', .symbol '}'] := rfl

/-- The class as a text, with a blank between any two tokens. -/
def shoutText (n : Nat) : ByteArray :=
  (printTokens (fun _ => ⟨32, by decide, []⟩) (shout n).tokens).toByteArray

theorem shout_scannable (n : Nat) : ∀ t ∈ (shout n).tokens, t.Scannable := by
  have hclass : (Token.identifier "A").Scannable :=
    ⟨⟨'A', [], rfl, rfl, nofun⟩, by intro k; cases k <;> decide⟩
  have hname : (Token.identifier "f").Scannable :=
    ⟨⟨'f', [], rfl, rfl, nofun⟩, by intro k; cases k <;> decide⟩
  have hsymbols : (['{', '}', '(', ')', ';'].all fun c => c ∈ symbols.toList) = true := by decide
  have hsymbol : ∀ c ∈ ['{', '}', '(', ')', ';'], (Token.symbol c).Scannable := by
    intro c hc
    have hmem := List.all_eq_true.mp hsymbols c hc
    exact of_decide_eq_true (p := c ∈ symbols.toList) hmem
  have hstring : (Token.string (letters n)).Scannable := by
    intro hquote
    exact absurd (mem_letters hquote) (by decide)
  have hkeyword : ∀ k : Keyword, (Token.keyword k).Scannable := fun _ => trivial
  rw [shout_tokens]
  simp only [List.forall_mem_cons] at hsymbol ⊢
  simp [hclass, hname, hstring, hkeyword, hsymbol]

theorem shoutText_scans (n : Nat) : ScansTo (shoutText n) (shout n).tokens := by
  apply CutsInto.scansTo
  rw [shoutText, List.data_toByteArray, ← List.append_nil (printTokens _ _)]
  exact cutsInto_printTokens (shout_scannable n) _ nofun .nil

/-- The code behind that of the text. -/
def shoutEnd : List Instruction := [.call "f" 1, .pop .temp 0, .push .constant 0, .ret]

/-- Whenever the number of letters has a small remainder, the class is carried out, into code that
makes a string object for the remainder. -/
theorem shout_emits {n : Nat} (h : n % UInt32.size ≤ 32767) :
    (shout n).Emits (.function "A.f" 0 :: (stringCode (letters n) ++ shoutEnd)) := by
  let opening : List Action :=
    [.nameClass "A", .openSub .function, .nameSub "f", .openBody, .receiveThis]
  let constant : List Action :=
    .checkString (letters n) .start :: ([].map .scan ++ [.loadString (letters n)])
  let closing : List Action := [.call none "f" 1, .discard, .loadZero, .giveBack]
  have hactions : (shout n).actions = opening ++ (constant ++ closing) := by
    simp [opening, constant, closing, shout, Class.actions, Subroutine.actions, blockActions,
      Statement.actions, Call.actions, argumentActions, Expression.actions, Term.actions,
      operationActions]
  have hfault : stringFault (letters n) .start = none := by
    rcases stringFault_cases (letters n) .start with ⟨front, c, back, hsplit, -, hc, -⟩ |
      ⟨-, hfault⟩
    · have hmem : c ∈ (letters n).toList := by
        rw [hsplit]
        simp
      rw [mem_letters hmem] at hc
      exact absurd hc (by decide)
    · rw [length_letters, if_neg (Nat.not_lt.mpr h)] at hfault
      exact hfault
  have hopening : Generator.Carries {} opening [.function "A.f" 0]
      { className := "A", subName := "f" } := ⟨_, rfl, rfl⟩
  have hclosing : Generator.Carries { className := "A", subName := "f" } closing shoutEnd
      { className := "A", subName := "f" } := ⟨_, rfl, rfl⟩
  refine ⟨{ className := "A", subName := "f" }, ?_⟩
  rw [hactions, Generator.carries_append]
  have hstring := Generator.carries_string hfault { className := "A", subName := "f" } []
  exact ⟨_, _, _, hopening, Generator.carries_append.mpr ⟨_, _, _, hstring, hclosing, rfl⟩, rfl⟩

/-- A text of 2³² letters, which is longer than a string constant may be, is accepted and taken for
an empty one. -/
theorem shout_accepted :
    ScansTo (shoutText UInt32.size) (shout UInt32.size).tokens ∧
      .string (letters UInt32.size) ∈ (shout UInt32.size).tokens ∧
      32767 < (letters UInt32.size).length ∧ (∀ c ∈ (letters UInt32.size).toList, c.toNat ≤ 32767) ∧
      (compile (Reading.ofBytes (shoutText UInt32.size).toList) {} {}).verdict = .ok () ∧
      ∃ more, Event.instructions
        (Run.ofReadings (Reading.ofBytes (shoutText UInt32.size).toList)).events =
          .function "A.f" 0 :: .push .constant 0 :: .call "String.new" 1 :: more := by
  have hscans := shoutText_scans UInt32.size
  have hemits := shout_emits (n := UInt32.size) (by decide)
  obtain ⟨hverdict, hcode⟩ := (Run.ofReadings_emits hscans).mpr hemits
  refine ⟨hscans, ?_, ?_, ?_, (compile_default _ {}).2.trans hverdict, ?_⟩
  · rw [shout_tokens]
    simp
  · rw [length_letters]
    decide
  · intro c hc
    rw [mem_letters hc]
    decide
  · have hzero : UInt32.ofNat UInt32.size = 0 := by decide
    rw [hcode, stringCode, length_letters, hzero, List.cons_append, List.cons_append]
    exact ⟨_, rfl⟩

end JackStack
