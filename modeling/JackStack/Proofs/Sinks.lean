import JackStack.Proofs.Delivery

/-!
# Sinks that fail

What a compilation leaves behind in a sink is decided by its whole text, by how its run ends and by
the sink alone. A sink that takes a number of bytes holds the first so many bytes of that text, and
the run ends with the failure of the sink if there are more of them. A sink whose flushing fails
takes the whole text, and only a run that would have succeeded ends with that failure.
-/

namespace JackStack

namespace Sink

/-- The bytes are more than the sink takes. -/
def Overflows (sink : Sink) (bytes : ByteArray) : Prop := ∃ n ∈ sink.capacity, n < bytes.size

instance (sink : Sink) (bytes : ByteArray) : Decidable (sink.Overflows bytes) :=
  inferInstanceAs (Decidable (∃ n ∈ sink.capacity, n < bytes.size))

/-- What is left behind by a run that has all these bytes to write and then ends with the
verdict. -/
def receive (sink : Sink) (bytes : ByteArray) (verdict : Except Error Unit) :
    ByteArray × Except Error Unit :=
  if sink.Overflows bytes then
    (bytes.extract 0 (sink.capacity.getD 0), .error (.io sink.writeFault))
  else
    (bytes, verdict.bind fun _ =>
      match sink.flushFault with
      | some e => .error (.io e)
      | none => .ok ())

variable {sink : Sink} {written bytes more : ByteArray}

/-- More bytes overflow a sink as well. -/
theorem Overflows.append (h : sink.Overflows bytes) (more : ByteArray) :
    sink.Overflows (bytes ++ more) := by
  obtain ⟨n, hn, hlt⟩ := h
  refine ⟨n, hn, ?_⟩
  rw [ByteArray.size_append]
  omega

/-- Bytes that did not fit are of no consequence for what follows them. -/
theorem receive_of_overflows (h : sink.Overflows bytes) (more : ByteArray)
    (verdict : Except Error Unit) : sink.receive (bytes ++ more) verdict =
      (bytes.extract 0 (sink.capacity.getD 0), .error (.io sink.writeFault)) := by
  obtain ⟨n, hn, hlt⟩ := h
  rw [receive, if_pos (Overflows.append ⟨n, hn, hlt⟩ more), hn, Option.getD_some,
    ByteArray.extract_append, Nat.sub_eq_zero_of_le (Nat.le_of_lt hlt), Nat.zero_sub,
    ByteArray.extract_same, ByteArray.append_empty]

/-- The sink takes all of the bytes, unless they are too many for it together with those before;
then it takes so many that it is full. -/
theorem take_eq (h : ¬sink.Overflows written) (bytes : ByteArray) : sink.take written bytes =
    if sink.Overflows (written ++ bytes) then
      ((written ++ bytes).extract 0 (sink.capacity.getD 0), some sink.writeFault)
    else (written ++ bytes, none) := by
  cases hcapacity : sink.capacity with
  | none => simp [take, Overflows, hcapacity]
  | some n =>
    have hwritten : written.size ≤ n := by
      simpa [Overflows, hcapacity] using h
    have hextract : (written ++ bytes).extract 0 n =
        written ++ bytes.extract 0 (n - written.size) := by
      have hall : written.extract 0 n = written := by
        rw [← Nat.max_eq_left hwritten, ByteArray.extract_zero_max_size]
      rw [ByteArray.extract_append, Nat.zero_sub, hall]
    by_cases hfits : written.size + bytes.size ≤ n
    · simp [take, Overflows, hcapacity, hfits]
    · simp [take, Overflows, hcapacity, hfits, hextract]

end Sink

namespace Run

open JackStack.Generator

/-- From a sink that has not failed yet on, the sink receives what has been written and the text of
the instructions behind it. -/
theorem deliverFrom_receive (indent : Nat) (verdict : Except Error Unit) (code : List Instruction)
    {w : Writer} (hw : ¬w.sink.Overflows w.written) (notes : List Note) :
    (deliverFrom indent verdict w notes (emitAll code)).result =
      w.sink.receive (w.written ++ (codeText indent code).toUTF8) verdict := by
  induction code generalizing w with
  | nil =>
    have hempty : (codeText indent []).toUTF8 = ByteArray.empty := rfl
    rw [hempty, ByteArray.append_empty, Sink.receive, if_neg hw]
    change (deliverFrom _ _ _ _ []).result = _
    unfold deliverFrom Writer.flush
    cases verdict with
    | error e => rfl
    | ok => cases w.sink.flushFault <;> rfl
  | cons i code ih =>
    have hcons : emitAll (i :: code) = .emit i :: emitAll code := rfl
    rw [hcons, codeText_toUTF8_cons, ← ByteArray.append_assoc, deliverFrom, Writer.put,
      Sink.take_eq hw]
    by_cases hline : w.sink.Overflows (w.written ++ (i.bodyLine indent).toUTF8)
    · rw [Sink.receive_of_overflows hline]
      simp only [if_pos hline]
      rfl
    · simp only [if_neg hline]
      exact ih hline

end Run

/-- What a compilation leaves behind in any sink. -/
theorem compile_receive (readings : List Reading) (sink : Sink) (options : Options) :
    let run := Run.ofReadings readings
    (compile readings sink options).result =
      sink.receive (codeText options.indent (Event.instructions run.events)).toUTF8
        run.verdict := by
  intro run
  have hstart : ¬sink.Overflows .empty := by
    rintro ⟨n, -, hn⟩
    exact Nat.not_lt_zero n hn
  have hdeliver := Run.deliverFrom_receive options.indent run.verdict
    (Event.instructions run.events) (w := { sink }) hstart []
  rw [ByteArray.empty_append] at hdeliver
  exact (run.deliver_result sink options).trans hdeliver

/-- Without failures of the sink the whole text is written, and the run decides how it ends. -/
theorem compile_default (readings : List Reading) (options : Options) :
    let run := Run.ofReadings readings
    (compile readings {} options).output =
        (codeText options.indent (Event.instructions run.events)).toUTF8 ∧
      (compile readings {} options).verdict = run.verdict := by
  intro run
  have hresult : (compile readings {} options).result = Sink.receive {} _ run.verdict :=
    compile_receive readings {} options
  have hroom : ∀ bytes, ¬({} : Sink).Overflows bytes := by
    rintro bytes ⟨n, hn, -⟩
    cases hn
  rw [Sink.receive, if_neg (hroom _)] at hresult
  refine ⟨congrArg Prod.fst hresult, (congrArg Prod.snd hresult).trans ?_⟩
  cases hend : run.verdict <;> rfl

/-- Every sink receives what one without failures is given. -/
theorem compile_receive_default (readings : List Reading) (sink : Sink) (options : Options) :
    let whole := compile readings {} options
    (compile readings sink options).result = sink.receive whole.output whole.verdict := by
  intro whole
  obtain ⟨houtput, hverdict⟩ := compile_default readings options
  rw [compile_receive, ← houtput, ← hverdict]

/-- A sink with a capacity cuts the output there and fails, and a sink that cannot be flushed fails
at the end; neither changes anything else. -/
theorem failing_sink_truncates (readings : List Reading) (options : Options) :
    let whole := compile readings {} options
    (∀ (n : Nat) (fault : IoError),
      let limited := compile readings { capacity := some n, writeFault := fault } options
      limited.result =
        if whole.output.size ≤ n then whole.result
        else (whole.output.extract 0 n, .error (.io fault))) ∧
    ∀ fault : IoError,
      let unflushed := compile readings { flushFault := some fault } options
      unflushed.result =
        match whole.verdict with
        | .ok () => (whole.output, .error (.io fault))
        | .error e => (whole.output, .error e) := by
  intro whole
  constructor
  · intro n fault limited
    have hlimited : limited.result = _ := compile_receive_default readings _ options
    have hiff : { capacity := some n, writeFault := fault : Sink }.Overflows whole.output ↔
        n < whole.output.size := by
      simp [Sink.Overflows]
    by_cases hfits : whole.output.size ≤ n
    · rw [hlimited, if_pos hfits, Sink.receive, if_neg (hiff.not.mpr (Nat.not_lt.mpr hfits))]
      rw [Report.result]
      cases hend : whole.verdict <;> rfl
    · rw [hlimited, if_neg hfits, Sink.receive, if_pos (hiff.mpr (Nat.not_le.mp hfits))]
      rfl
  · intro fault unflushed
    have hunflushed : unflushed.result = _ := compile_receive_default readings _ options
    have hroom : ¬{ flushFault := some fault : Sink }.Overflows whole.output := by
      simp [Sink.Overflows]
    rw [hunflushed, Sink.receive, if_neg hroom]
    cases whole.verdict <;> rfl

end JackStack
