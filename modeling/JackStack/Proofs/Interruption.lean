import JackStack.Proofs.Delivery
import JackStack.Proofs.Grammar.Truncation
import JackStack.Proofs.Source.Faults

/-!
# Sources whose reading fails

Where reading a source fails, the compilation ends with that failure as soon as it needs what was to
be read, and what it has written by then is the beginning of what it writes without the failure. So
what is written before a byte is needed depends on the bytes in front of it only.
-/

namespace JackStack

namespace Outcome

/-- Outcomes that are the same up to a failure are the same up to the first failure, or that failure
cuts the lexemes short. -/
theorem lexemes_of_common (common more more' : List Outcome) (e : Error) :
    (∃ f, flaw? (common ++ .failure e :: more) = some f ∧ flaw? (common ++ more') = some f ∧
      lexemes (common ++ .failure e :: more) = lexemes (common ++ more')) ∨
    flaw? (common ++ .failure e :: more) = some e ∧
      lexemes (common ++ .failure e :: more) <+: lexemes (common ++ more') := by
  induction common with
  | nil => exact .inr ⟨rfl, List.nil_prefix⟩
  | cons o common ih =>
    cases o with
    | failure f => exact .inl ⟨f, rfl, rfl, rfl⟩
    | lexeme lx =>
      rcases ih with ⟨f, hflaw, hflaw', hlexemes⟩ | ⟨hflaw, hbegins⟩
      · exact .inl ⟨f, hflaw, hflaw', congrArg (lx :: ·) hlexemes⟩
      · exact .inr ⟨hflaw, List.cons_prefix_cons.mpr ⟨rfl, hbegins⟩⟩

end Outcome

namespace Run

/-- The run of a recognised class, or of what was recognised up to a failure. -/
def ofParse (p : Parse Unit) : Run :=
  ⟨(generate p.actions).1, (generate p.actions).2.bind fun _ => p.outcome.map fun _ => ()⟩

/-- Two runs that emit the same and end in the same way. -/
structure Same (r r' : Run) : Prop where
  instructions : Event.instructions r.events = Event.instructions r'.events
  verdict : r.verdict = r'.verdict

/-- Parses that report the same and end alike give runs that do. -/
theorem same_ofParse {p q : Parse Unit} (h : Syntax.Same p q) : (ofParse p).Same (ofParse q) := by
  obtain ⟨hcode, hcarried⟩ := Generator.run_withoutScans {} p.actions
  obtain ⟨hcode', hcarried'⟩ := Generator.run_withoutScans {} q.actions
  rw [h.actions] at hcode hcarried
  refine ⟨hcode.trans hcode'.symm, ?_⟩
  rw [ofParse, ofParse, generate, generate, hcarried, hcarried', h.outcome]

/-- A run that is cut short while a class is recognised ends there, unless it has failed before. -/
theorem begins_ofParse {p q : Parse Unit} {e : Error} (hp : p.outcome = .error e)
    (h : Action.withoutScans p.actions <+: Action.withoutScans q.actions) :
    (ofParse p).Same (ofParse q) ∨ (ofParse p).verdict = .error e ∧
      Event.instructions (ofParse p).events <+: Event.instructions (ofParse q).events := by
  obtain ⟨hbegins, hfails⟩ := Generator.run_of_begins {} h
  cases hcarried : (generate p.actions).2 with
  | error f =>
    obtain ⟨hcarried', hcode⟩ := hfails f hcarried
    refine .inl ⟨hcode, ?_⟩
    rw [ofParse, ofParse, hcarried, show (generate q.actions).2 = .error f from hcarried']
    rfl
  | ok g =>
    refine .inr ⟨?_, hbegins⟩
    rw [ofParse, hcarried, hp]
    rfl

/-- A run whose source fails is cut short by the failure, or it is not changed by it. A failure of
scanning comes first, for both of them. -/
theorem ofReadings_of_fault (bytes : List UInt8) (cause : IoError) (back back' : List Reading) :
    let run := ofReadings (Reading.ofBytes bytes ++ .fault cause :: back)
    let run' := ofReadings (Reading.ofBytes bytes ++ back')
    run.Same run' ∨ run.verdict = .error (.io cause) ∧
      Event.instructions run.events <+: Event.instructions run'.events := by
  let source := Unread.ofReadings (Reading.ofBytes bytes ++ .fault cause :: back)
  let source' := Unread.ofReadings (Reading.ofBytes bytes ++ back')
  obtain ⟨common, more, more', hcommon, hcommon'⟩ :=
    Unread.outcomes_of_fault .start bytes cause back back'
  have hlexemes := Outcome.lexemes_of_common common more more' (.io cause)
  rw [← (hcommon : source.outcomes = _), ← (hcommon' : source'.outcomes = _)] at hlexemes
  have hsome : ∀ {e : Error}, Outcome.flaw? source.outcomes = some e →
      Outcome.flaw? source.outcomes ≠ none := by
    intro e he
    rw [he]
    exact Option.some_ne_none e
  rcases hlexemes with ⟨f, hflaw, hflaw', hequal⟩ | ⟨hflaw, hbegins⟩
  · exact .inl (same_ofParse (Syntax.parse_eq_of_lexemes hequal (hflaw.trans hflaw'.symm)
      fun hnone => absurd hnone (hsome hflaw)))
  · rcases Syntax.parse_begins_of_prefix source.finish source'.finish hbegins
      fun hnone => absurd hnone (hsome hflaw) with hsame | ⟨e, hmet, herror, hactions⟩
    · exact .inl (same_ofParse hsame)
    · obtain rfl : e = .io cause := Option.some.inj (hmet.symm.trans hflaw)
      exact begins_ofParse herror hactions

end Run

/-- What a compilation leaves behind if the source fails behind some bytes: the same as for any
source that begins with these bytes, or the failure and the beginning of the output for it. -/
theorem compile_of_fault (bytes : List UInt8) (cause : IoError) (back back' : List Reading)
    (sink : Sink) (options : Options) :
    let report := compile (Reading.ofBytes bytes ++ .fault cause :: back) sink options
    let report' := compile (Reading.ofBytes bytes ++ back') sink options
    report.result = report'.result ∨
      report.verdict = .error (.io cause) ∧ BytesBegin report.output report'.output := by
  intro report report'
  rcases Run.ofReadings_of_fault bytes cause back back' with hsame | ⟨hverdict, hcode⟩
  · exact .inl (Run.deliver_same hsame.instructions hsame.verdict sink options)
  · exact Run.deliver_begins hverdict hcode sink options

/-- A compilation does not succeed if the source fails anywhere. -/
theorem verdict_ne_ok_of_fault (bytes : List UInt8) (cause : IoError) (back : List Reading)
    (sink : Sink) (options : Options) :
    (compile (Reading.ofBytes bytes ++ .fault cause :: back) sink options).verdict ≠ .ok () := by
  intro h
  obtain ⟨xs, r, hparse⟩ := Run.exists_parse_of_verdict (Run.verdict_of_deliverFrom h)
  obtain ⟨c, lexemes, houtcomes, -, -⟩ := Syntax.tokens_of_parse hparse
  obtain ⟨common, more, -, hcommon, -⟩ := Unread.outcomes_of_fault .start bytes cause back []
  have hmem : Outcome.failure (.io cause) ∈ lexemes.map Outcome.lexeme := by
    rw [← houtcomes]
    change _ ∈ Unread.outcomes ⟨.start, _⟩
    rw [hcommon]
    exact List.mem_append_right _ List.mem_cons_self
  obtain ⟨lx, -, hlx⟩ := List.mem_map.mp hmem
  cases hlx

/-! ## Failing at an offset -/

/-- The compilation of bytes where the first attempt to read at an offset fails. -/
def interrupted (bytes : List UInt8) (sink : Sink) (options : Options) (n : Nat)
    (cause : IoError) : Report :=
  compile (Reading.ofBytesFailingAt n cause bytes) sink options

section Interrupted

variable {bytes bytes' : List UInt8} {sink : Sink} {options : Options} {m n : Nat}

/-- Behind the end nothing is read. -/
theorem interrupted_of_lt (hn : bytes.length < n) (cause : IoError) :
    interrupted bytes sink options n cause = compile (Reading.ofBytes bytes) sink options := by
  rw [interrupted, Reading.ofBytesFailingAt_of_lt hn]

/-- A compilation that is interrupted is the same as one that is interrupted later, or it ends with
the failure and has written the beginning. -/
theorem interrupted_cases (hnm : n ≤ m) (cause cause' : IoError) :
    (interrupted bytes sink options n cause).result =
        (interrupted bytes sink options m cause').result ∨
      (interrupted bytes sink options n cause).verdict = .error (.io cause) ∧
        BytesBegin (interrupted bytes sink options n cause).output
          (interrupted bytes sink options m cause').output := by
  by_cases hn : n ≤ bytes.length
  · obtain ⟨back, hback⟩ := Reading.exists_ofBytesFailingAt_eq hnm cause' bytes
    rw [interrupted, interrupted, hback, Reading.ofBytesFailingAt_of_le hn]
    exact compile_of_fault (bytes.take n) cause (Reading.ofBytes (bytes.drop n)) back sink options
  · have hm : bytes.length < m := by omega
    rw [interrupted_of_lt (Nat.not_le.mp hn), interrupted_of_lt hm]
    exact .inl rfl

/-- The output of an earlier failure begins that of a later one. -/
theorem interrupted_output_begins (hnm : n ≤ m) (cause cause' : IoError) :
    BytesBegin (interrupted bytes sink options n cause).output
      (interrupted bytes sink options m cause').output := by
  rcases interrupted_cases hnm cause cause' with hequal | ⟨-, hbegins⟩
  · have houtput : (interrupted bytes sink options n cause).output =
      (interrupted bytes sink options m cause').output := congrArg Prod.fst hequal
    rw [houtput]
    exact .refl _
  · exact hbegins

/-- Up to the failure only the bytes in front of it are known. Each of the two outputs begins the
other, and both end with the failure. -/
theorem interrupted_congr (hn : n ≤ bytes.length) (hn' : n ≤ bytes'.length)
    (htake : bytes.take n = bytes'.take n) (cause : IoError) :
    (interrupted bytes sink options n cause).result =
      (interrupted bytes' sink options n cause).result := by
  have hfront := compile_of_fault (bytes.take n) cause (Reading.ofBytes (bytes.drop n))
    (.fault cause :: Reading.ofBytes (bytes'.drop n)) sink options
  have hback := compile_of_fault (bytes.take n) cause (Reading.ofBytes (bytes'.drop n))
    (.fault cause :: Reading.ofBytes (bytes.drop n)) sink options
  rw [interrupted, interrupted, Reading.ofBytesFailingAt_of_le hn,
    Reading.ofBytesFailingAt_of_le hn', ← htake]
  rcases hfront with hequal | ⟨herror, hbegins⟩
  · exact hequal
  rcases hback with hequal | ⟨herror', hbegins'⟩
  · exact hequal.symm
  · exact Prod.ext (hbegins.antisymm hbegins') (herror.trans herror'.symm)

end Interrupted

/-- A failing source cuts a compilation short and does nothing else. At whatever offset reading
fails, the compilation is the same as without the failure, or it ends with the failure and its
output begins the whole output. If it succeeds without the failure it always ends with it. The
output of an earlier failure begins that of a later one. And the compilation up to the failure
depends on the bytes in front of it only. A failure behind the end, and behind the first one, is
none. -/
theorem failing_source_truncates (bytes : List UInt8) (sink : Sink) (options : Options) :
    let whole := compile (Reading.ofBytes bytes) sink options
    let run := interrupted bytes sink options
    (∀ n cause, (run n cause).result = whole.result ∨
      (run n cause).verdict = .error (.io cause) ∧ BytesBegin (run n cause).output whole.output) ∧
    (∀ n cause, whole.verdict = .ok () → n ≤ bytes.length →
      (run n cause).verdict = .error (.io cause)) ∧
    (∀ m n cause cause', n ≤ m → BytesBegin (run n cause).output (run m cause').output) ∧
    (∀ n cause bytes', n ≤ bytes.length → n ≤ bytes'.length → bytes.take n = bytes'.take n →
      (run n cause).result = (interrupted bytes' sink options n cause).result) := by
  intro whole run
  have hcases : ∀ n cause, (run n cause).result = whole.result ∨
      (run n cause).verdict = .error (.io cause) ∧
        BytesBegin (run n cause).output whole.output := by
    intro n cause
    have hwhole : run (n + bytes.length + 1) cause = whole := interrupted_of_lt (by omega) cause
    rw [← hwhole]
    exact interrupted_cases (by omega) cause cause
  refine ⟨hcases, ?_, ?_, ?_⟩
  · intro n cause hok hn
    rcases hcases n cause with hequal | ⟨herror, -⟩
    · have hverdict : (interrupted bytes sink options n cause).verdict = .ok () :=
        (congrArg Prod.snd hequal).trans hok
      rw [interrupted, Reading.ofBytesFailingAt_of_le hn] at hverdict
      exact absurd hverdict (verdict_ne_ok_of_fault _ _ _ _ _)
    · exact herror
  · intro m n cause cause' hnm
    exact interrupted_output_begins hnm cause cause'
  · intro n cause bytes' hn hn' htake
    exact interrupted_congr hn hn' htake cause

/-- A failure in the middle of the text of `counter`, and one behind its first word, where a source
that holds nothing else comes to its end. -/
theorem counterText_interrupted :
    let bytes := counterText.toUTF8.toList
    let cause : IoError := ⟨.other, "read failure"⟩
    (compile (Reading.ofBytes bytes) {} {}).verdict = .ok () ∧ 100 ≤ bytes.length ∧
    (interrupted bytes {} {} 100 cause).verdict = .error (.io cause) ∧
    BytesBegin (interrupted bytes {} {} 6 cause).output
      (interrupted bytes {} {} 100 cause).output ∧
    bytes.take 6 = "class ".toUTF8.toList.take 6 ∧
    (interrupted bytes {} {} 6 cause).result =
      (interrupted "class ".toUTF8.toList {} {} 6 cause).result := by
  intro bytes cause
  have hlength : 100 ≤ bytes.length := by
    simp only [bytes, ScansTo.toList_eq_data]
    decide +kernel
  have htake : bytes.take 6 = "class ".toUTF8.toList.take 6 := by
    simp only [bytes, ScansTo.toList_eq_data]
    decide +kernel
  have hword : 6 ≤ "class ".toUTF8.toList.length := by
    rw [ScansTo.toList_eq_data]
    decide +kernel
  obtain ⟨-, hfails, hbegins, hfront⟩ := failing_source_truncates bytes {} {}
  exact ⟨counterText_compiled, hlength, hfails 100 cause counterText_compiled hlength,
    hbegins 100 6 cause cause (by decide), htake,
    hfront 6 cause _ (Nat.le_trans (by decide) hlength) hword htake⟩

end JackStack
