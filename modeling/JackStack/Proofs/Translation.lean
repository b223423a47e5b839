import JackStack.Compile
import JackStack.Proofs.Code.Bounds
import JackStack.Proofs.Code.Declaring
import JackStack.Proofs.Grammar.Unambiguous

/-!
# Translation

A source that scans to the tokens of a well-formed class is compiled to the code of that class,
and a source that is compiled at all scans to the tokens of exactly one class, which is
well-formed.
-/

namespace JackStack

open JackStack.Tree

/-! ## Delivering code -/

/-- The sink takes these bytes without a failure. -/
def Sink.Accepts (sink : Sink) (bytes : ByteArray) : Prop :=
  sink.flushFault = none ∧ ∀ n, sink.capacity = some n → bytes.size ≤ n

/-- The text of code inside a class: one line for each instruction. -/
def codeText (indent : Nat) (code : List Instruction) : String :=
  String.join (code.map (Instruction.bodyLine indent))

theorem codeText_cons (indent : Nat) (i : Instruction) (code : List Instruction) :
    codeText indent (i :: code) = i.bodyLine indent ++ codeText indent code := by
  rw [codeText, List.map_cons, String.join_cons]
  rfl

theorem codeText_toUTF8_cons (indent : Nat) (i : Instruction) (code : List Instruction) :
    (codeText indent (i :: code)).toUTF8 =
      (i.bodyLine indent).toUTF8 ++ (codeText indent code).toUTF8 := by
  rw [codeText_cons]
  exact String.toByteArray_append

/-- The bytes of code: those of its first line and then those of the others. -/
theorem codeText_toUTF8_emit (indent : Nat) (i : Instruction) (events : List Event) :
    (codeText indent (Event.instructions (.emit i :: events))).toUTF8 =
      (i.bodyLine indent).toUTF8 ++ (codeText indent (Event.instructions events)).toUTF8 :=
  codeText_toUTF8_cons indent i _

/-- A sink without limits accepts everything. -/
theorem Sink.accepts_default (bytes : ByteArray) : ({} : Sink).Accepts bytes :=
  ⟨rfl, fun _ h => absurd h.symm (Option.some_ne_none _)⟩

/-- What a sink accepts it takes completely. -/
theorem Sink.take_of_accepts {sink : Sink} {written bytes more : ByteArray}
    (h : sink.Accepts (written ++ (bytes ++ more))) :
    sink.take written bytes = (written ++ bytes, none) := by
  unfold Sink.take
  cases hc : sink.capacity with
  | none => rfl
  | some n =>
    have hle := h.2 n hc
    rw [ByteArray.size_append, ByteArray.size_append] at hle
    exact if_pos (by omega)

namespace Run

/-- A sink that accepts the whole text is given the whole text. -/
theorem deliverFrom_of_accepts {indent : Nat} {events : List Event} {w : Writer} {notes : List Note}
    (h : w.sink.Accepts (w.written ++ (codeText indent (Event.instructions events)).toUTF8)) :
    ∃ notes', deliverFrom indent (.ok ()) w notes events =
      ⟨w.written ++ (codeText indent (Event.instructions events)).toUTF8, notes', .ok ()⟩ := by
  induction events generalizing w notes with
  | nil =>
    have hempty : (codeText indent (Event.instructions [])).toUTF8 = ByteArray.empty := rfl
    refine ⟨notes.reverse, ?_⟩
    simp only [deliverFrom, Writer.flush, h.1, hempty, ByteArray.append_empty]
  | cons event events ih =>
    cases event with
    | note n => exact ih h
    | emit i =>
      rw [codeText_toUTF8_emit] at h ⊢
      have hput : w.put (i.bodyLine indent) =
          ({ w with written := w.written ++ (i.bodyLine indent).toUTF8 }, none) := by
        rw [Writer.put, Sink.take_of_accepts h]
      rw [← ByteArray.append_assoc] at h ⊢
      simp only [deliverFrom, hput]
      exact ih h

/-- The same for a whole run. -/
theorem deliver_of_accepts {r : Run} (hr : r.verdict = .ok ()) {sink : Sink} {options : Options}
    (h : sink.Accepts (codeText options.indent (Event.instructions r.events)).toUTF8) :
    ∃ notes, r.deliver sink options =
      ⟨(codeText options.indent (Event.instructions r.events)).toUTF8, notes, .ok ()⟩ := by
  have hempty : ∀ bytes : ByteArray, ({ sink } : Writer).written ++ bytes = bytes :=
    fun _ => ByteArray.empty_append
  have hdeliver : ∃ notes, deliverFrom options.indent (.ok ()) { sink } [] r.events = _ :=
    deliverFrom_of_accepts (by rwa [hempty])
  rw [hempty] at hdeliver
  rwa [deliver, hr]

/-- What is delivered without a failure is the whole text. -/
theorem output_of_deliverFrom {indent : Nat} {verdict : Except Error Unit} {events : List Event}
    {w : Writer} {notes : List Note}
    (h : (deliverFrom indent verdict w notes events).verdict = .ok ()) :
    (deliverFrom indent verdict w notes events).output =
      w.written ++ (codeText indent (Event.instructions events)).toUTF8 := by
  induction events generalizing w notes with
  | nil =>
    have hempty : (codeText indent (Event.instructions [])).toUTF8 = ByteArray.empty := rfl
    rw [hempty, ByteArray.append_empty]
    unfold deliverFrom
    split
    · rfl
    · split <;> rfl
  | cons event events ih =>
    cases event with
    | note n => exact ih h
    | emit i =>
      rw [deliverFrom] at h ⊢
      split at h
      · next w' hput =>
        have hwritten : w'.written = w.written ++ (i.bodyLine indent).toUTF8 :=
          Sink.take_of_none (congrArg (fun p => (p.1.written, p.2)) hput)
        rw [codeText_toUTF8_emit, ← ByteArray.append_assoc, ← hwritten]
        exact ih h
      · cases h

/-- What is delivered without a failure had none before. -/
theorem verdict_of_deliverFrom {indent : Nat} {verdict : Except Error Unit} {events : List Event}
    {w : Writer} {notes : List Note}
    (h : (deliverFrom indent verdict w notes events).verdict = .ok ()) : verdict = .ok () := by
  induction events generalizing w notes with
  | nil =>
    cases verdict with
    | ok u => rfl
    | error e => cases h
  | cons event events ih =>
    cases event with
    | note n => exact ih h
    | emit i =>
      rw [deliverFrom] at h
      split at h
      · exact ih h
      · cases h

end Run

/-! ## Reading a class -/

namespace Syntax

open JackStack.Parser

/-- Recognition begins in front of the first outcome, if that is a lexeme. -/
theorem parse_started (outcomes : List Outcome) (finish : Position)
    (h : ∀ e rest, outcomes ≠ .failure e :: rest) :
    ∃ (drawn : List Lexeme) (c : Cursor), parse outcomes finish =
        ⟨drawn.map .scan ++ (program outcomes.length c).actions,
          (program outcomes.length c).outcome⟩ ∧
      c.Settled ∧ c.lexemes = Outcome.lexemes outcomes ∧ c.flaw = Outcome.flaw? outcomes := by
  rcases outcomes with _ | ⟨lx | e, rest⟩
  · have hadvance : advance (.before [] finish) = ⟨[], .ok ((), ⟨none, [], [], finish⟩)⟩ := rfl
    exact ⟨[], _, bind_apply_of_ok hadvance _, fun _ => rfl, rfl, rfl⟩
  · have hadvance : advance (.before (.lexeme lx :: rest) finish) =
      ⟨[.scan lx], .ok ((), ⟨some lx, [], rest, finish⟩)⟩ := rfl
    exact ⟨[lx], _, bind_apply_of_ok hadvance _, fun hn => absurd hn (Option.some_ne_none lx), rfl,
      rfl⟩
  · exact absurd rfl (h e rest)

/-- In front of the tokens of a class recognition succeeds and reports the actions of the class. -/
theorem parse_of_tokens {c : Tree.Class} {lexemes : List Lexeme}
    (h : lexemes.map (·.token) = c.tokens) (finish : Position) :
    ∃ xs r, parse (lexemes.map .lexeme) finish = ⟨xs, .ok r⟩ ∧ Action.unplaced xs = c.actions := by
  have hstart : ∀ e rest, lexemes.map Outcome.lexeme ≠ .failure e :: rest := by
    intro e rest hrest
    cases lexemes <;> cases hrest
  obtain ⟨drawn, c₀, hparse, hsettled, hlexemes, hflaw⟩ := parse_started _ finish hstart
  rw [Outcome.lexemes_map] at hlexemes
  rw [Outcome.flaw?_map] at hflaw
  have htokens : c₀.tokens = c.tokens := by rw [Cursor.tokens, hlexemes, h]
  have hlimit : c.tokens.length ≤ (lexemes.map Outcome.lexeme).length :=
    Nat.le_of_eq (by rw [← h, List.length_map, List.length_map])
  have hreads := program_readsAll c hlimit
  rw [← hflaw, ← htokens] at hreads
  obtain ⟨xs, c', hprogram, hxs, -⟩ := hreads.eq_ok hsettled
  rw [hprogram] at hparse
  exact ⟨_, _, hparse, by simp [hxs]⟩

/-- Recognition succeeds in front of the tokens of a class only. -/
theorem tokens_of_parse {outcomes : List Outcome} {finish : Position} {xs : List Action}
    {r : Unit × Cursor} (h : parse outcomes finish = ⟨xs, .ok r⟩) :
    ∃ (c : Tree.Class) (lexemes : List Lexeme), outcomes = lexemes.map .lexeme ∧
      lexemes.map (·.token) = c.tokens ∧ Action.unplaced xs = c.actions := by
  have hstart : ∀ e rest, outcomes ≠ .failure e :: rest := by
    rintro e rest rfl
    have hadvance : advance (.before (.failure e :: rest) finish) = ⟨[], .error e⟩ := rfl
    rw [parse, bind_apply_of_error hadvance] at h
    cases h
  obtain ⟨drawn, c₀, hparse, hsettled, hlexemes, hflaw⟩ := parse_started _ finish hstart
  rcases hprogram : program outcomes.length c₀ with ⟨ys, e | ⟨u, c'⟩⟩
  · rw [hparse, hprogram] at h
    cases h
  · rw [hparse, hprogram] at h
    cases h
    obtain ⟨c, htokens, hactions, hnone, -⟩ :=
      program_onlyReads (reads_of_eq_ok hsettled hprogram).1
    rw [hflaw] at hnone
    refine ⟨c, Outcome.lexemes outcomes, Outcome.eq_map_of_flaw? hnone, ?_, ?_⟩
    · rw [← hlexemes, ← htokens]
      rfl
    · simp [hactions]

end Syntax

/-! ## Compiling a class -/

/-- The run of a source in which a class was recognised succeeds exactly when its actions are
carried out, and emits what they emit. -/
theorem Run.ofReadings_of_parse {readings : List Reading} {xs : List Action} {r : Unit × Cursor}
    (h : Syntax.parse (Unread.ofReadings readings).outcomes (Unread.ofReadings readings).finish =
      ⟨xs, .ok r⟩) {code : List Instruction} :
    ((Run.ofReadings readings).verdict = .ok () ∧
      Event.instructions (Run.ofReadings readings).events = code) ↔
        ∃ g', Generator.Carries {} xs code g' := by
  simp only [Run.ofReadings, Generator.Carries, generate, h]
  rcases hrun : Generator.run {} [] xs with ⟨events, e | g'⟩
  · simp [Except.bind]
  · simp [Except.bind, Except.map]

/-- A source that scans to the tokens of a class is compiled exactly when the class is carried
out. -/
theorem Run.ofReadings_emits {bytes : ByteArray} {c : Tree.Class} (h : ScansTo bytes c.tokens)
    {code : List Instruction} :
    ((Run.ofReadings (Reading.ofBytes bytes.toList)).verdict = .ok () ∧
      Event.instructions (Run.ofReadings (Reading.ofBytes bytes.toList)).events = code) ↔
        c.Emits code := by
  obtain ⟨lexemes, htokens, houtcomes⟩ := h
  obtain ⟨xs, r, hparse, hxs⟩ := Syntax.parse_of_tokens htokens
    (Unread.ofReadings (Reading.ofBytes bytes.toList)).finish
  rw [← houtcomes] at hparse
  rw [Run.ofReadings_of_parse hparse, Class.Emits, ← hxs]
  simp only [Generator.carries_unplaced]

/-- A source that scans to the tokens of a class is compiled exactly when the class is
well-formed, and to the code of the class. -/
theorem Run.ofReadings_of_scansTo {bytes : ByteArray} {c : Tree.Class} (h : ScansTo bytes c.tokens)
    (hsize : bytes.size < UInt32.size) {code : List Instruction} :
    ((Run.ofReadings (Reading.ofBytes bytes.toList)).verdict = .ok () ∧
      Event.instructions (Run.ofReadings (Reading.ofBytes bytes.toList)).events = code) ↔
        c.WellFormed ∧ code = c.code := by
  have hplain : AllPlain bytes.size c.tokens := fun t ht => h.plain ht
  rw [Run.ofReadings_emits h, Class.Emits, Class.carries hsize hplain]

/-- A run that succeeds has recognised a class. -/
theorem Run.exists_parse_of_verdict {readings : List Reading}
    (h : (Run.ofReadings readings).verdict = .ok ()) : ∃ xs r,
      Syntax.parse (Unread.ofReadings readings).outcomes (Unread.ofReadings readings).finish =
        ⟨xs, .ok r⟩ := by
  simp only [Run.ofReadings] at h
  rcases hparse : Syntax.parse (Unread.ofReadings readings).outcomes
    (Unread.ofReadings readings).finish with ⟨xs, e | r⟩
  · rw [hparse] at h
    rcases hrun : generate xs with ⟨events, e' | g'⟩ <;> simp only [hrun] at h <;> cases h
  · exact ⟨xs, r, rfl⟩

/-- A run that succeeds is that of a well-formed class, and emits its code. -/
theorem Run.exists_class_of_verdict {bytes : ByteArray} (hsize : bytes.size < UInt32.size)
    (h : (Run.ofReadings (Reading.ofBytes bytes.toList)).verdict = .ok ()) :
    ∃ c : Tree.Class, ScansTo bytes c.tokens ∧ c.WellFormed ∧ c.Fits ∧
      Event.instructions (Run.ofReadings (Reading.ofBytes bytes.toList)).events = c.code := by
  obtain ⟨xs, r, hparse⟩ := Run.exists_parse_of_verdict h
  obtain ⟨c, lexemes, houtcomes, htokens, -⟩ := Syntax.tokens_of_parse hparse
  have hscans : ScansTo bytes c.tokens := ⟨lexemes, htokens, houtcomes⟩
  obtain ⟨hwf, hcode⟩ := (Run.ofReadings_of_scansTo hscans hsize).mp ⟨h, rfl⟩
  exact ⟨c, hscans, hwf, Class.fits_of_length (Nat.lt_of_le_of_lt hscans.length_le hsize), hcode⟩

/-- A compilation that succeeds has written what its run emits. -/
theorem compile_output {readings : List Reading} {sink : Sink} {options : Options}
    (h : (compile readings sink options).verdict = .ok ()) :
    (compile readings sink options).output =
      (codeText options.indent (Event.instructions (Run.ofReadings readings).events)).toUTF8 := by
  have houtput := Run.output_of_deliverFrom h
  rwa [ByteArray.empty_append] at houtput

/-- Every well-formed class is compiled to its code. -/
theorem compile_wellFormed_class {c : Tree.Class} (hc : c.WellFormed) {bytes : ByteArray}
    (hbytes : ScansTo bytes c.tokens) (hsize : bytes.size < UInt32.size) (options : Options)
    {sink : Sink} (hsink : sink.Accepts (codeText options.indent c.code).toUTF8) :
    (compile (Reading.ofBytes bytes.toList) sink options).verdict = .ok () ∧
      (compile (Reading.ofBytes bytes.toList) sink options).output =
        (codeText options.indent c.code).toUTF8 ∧ c.Fits := by
  obtain ⟨hverdict, hcode⟩ := (Run.ofReadings_of_scansTo hbytes hsize).mpr ⟨hc, rfl⟩
  have hfits := Class.fits_of_length (Nat.lt_of_le_of_lt hbytes.length_le hsize)
  rw [← hcode] at hsink ⊢
  obtain ⟨notes, hdeliver⟩ := Run.deliver_of_accepts hverdict hsink
  rw [compile, hdeliver]
  exact ⟨rfl, rfl, hfits⟩

/-- A class with a parameter that hides a field, an array, both kinds of branch, a call without a
dot, a product and a string. -/
def counter : Tree.Class where
  name := "Counter"
  groups := [⟨.field, ⟨.int, "count", []⟩⟩, ⟨.static, ⟨.named "Array", "all", []⟩⟩]
  subroutines :=
    [⟨.method, some .int, "next", [⟨.int, "count"⟩], [⟨.int, "i", ["j"]⟩],
      [.whileLoop (.chain (.var "i") [(.lt, .var "count")])
        [.assignElement "all" (.chain (.var "i") [])
          (.chain (.element "all" (.chain (.var "j") [])) [(.mul, .integer 2)])],
      .ifElse (.chain (.constant .yes) []) [.perform (.mk none "stop" [])]
        [.assign "i" (.chain (.string "a") [])],
      .giveBack (some (.chain (.constant .this) []))]⟩]

/-- The class as it is written. -/
def counterText : String :=
  "class Counter \x7b field int count; static Array all;
    method int next(int count) \x7b
      var int i, j;
      while (i < count) \x7b let all[i] = all[j] * 2; \x7d
      if (true) \x7b do stop(); \x7d else \x7b let i = \"a\"; \x7d
      return this;
    \x7d
  \x7d"

/-- What a text scans to can be computed. -/
theorem ScansTo.of_outcomes {bytes : ByteArray} {tokens : List Token}
    (h : let outcomes := (Unread.ofReadings (Reading.ofBytes bytes.data.toList)).outcomes
      (Outcome.lexemes outcomes).map (·.token) = tokens ∧
        outcomes = (Outcome.lexemes outcomes).map .lexeme) : ScansTo bytes tokens := by
  refine ⟨_, h.1, ?_⟩
  rw [ScansTo.toList_eq_data]
  exact h.2

theorem counterText_scans : ScansTo counterText.toUTF8 counter.tokens :=
  .of_outcomes (by decide +kernel)

theorem counter_wellFormed : counter.WellFormed := by decide +kernel

theorem counterText_size : counterText.toUTF8.size < UInt32.size := by decide +kernel

theorem compile_counter : counter.WellFormed ∧ ScansTo counterText.toUTF8 counter.tokens ∧
    counterText.toUTF8.size < UInt32.size ∧
    (compile (Reading.ofBytes counterText.toUTF8.toList) {} {}).verdict = .ok () ∧
    (compile (Reading.ofBytes counterText.toUTF8.toList) {} {}).output =
      (codeText 4 counter.code).toUTF8 ∧ counter.Fits :=
  ⟨counter_wellFormed, counterText_scans, counterText_size,
    compile_wellFormed_class counter_wellFormed counterText_scans counterText_size {}
      (Sink.accepts_default _)⟩

/-- Whatever is compiled is a class, only one, and well-formed. -/
theorem compiled_source_is_class {bytes : ByteArray} (hsize : bytes.size < UInt32.size)
    {sink : Sink} {options : Options}
    (h : (compile (Reading.ofBytes bytes.toList) sink options).verdict = .ok ()) :
    ∃ c : Tree.Class, ScansTo bytes c.tokens ∧ c.WellFormed ∧
      ∀ d : Tree.Class, ScansTo bytes d.tokens → d = c := by
  obtain ⟨c, hscans, hwf, -⟩ := Run.exists_class_of_verdict hsize (Run.verdict_of_deliverFrom h)
  refine ⟨c, hscans, hwf, ?_⟩
  intro d hd
  exact Class.tokens_injective (hd.unique hscans)

theorem counterText_compiled :
    (compile (Reading.ofBytes counterText.toUTF8.toList) {} {}).verdict = .ok () := by
  obtain ⟨hverdict, -⟩ :=
    (Run.ofReadings_of_scansTo counterText_scans counterText_size).mpr ⟨counter_wellFormed, rfl⟩
  obtain ⟨notes, hdeliver⟩ := Run.deliver_of_accepts hverdict (Sink.accepts_default _)
  rw [compile, hdeliver]

theorem counterText_is_class :
    counterText.toUTF8.size < UInt32.size ∧
    (compile (Reading.ofBytes counterText.toUTF8.toList) {} {}).verdict = .ok () ∧
    ∃ c : Tree.Class, ScansTo counterText.toUTF8 c.tokens ∧ c.WellFormed ∧
      ∀ d : Tree.Class, ScansTo counterText.toUTF8 d.tokens → d = c :=
  ⟨counterText_size, counterText_compiled,
    compiled_source_is_class counterText_size counterText_compiled⟩

end JackStack
