import JackStack.Proofs.Code.Placing
import JackStack.Proofs.Translation

/-!
# What is written

What a compilation writes and how it ends depend on the instructions it emits and on how its run
ends, not on the notes in between. A run that emits the beginning of what another one emits writes
the beginning of what that one writes, unless a write fails, which then fails for both.
-/

namespace JackStack

/-- The first bytes of the second are those of the first. -/
def BytesBegin (a b : ByteArray) : Prop := ∃ more, b = a ++ more

namespace BytesBegin

variable {a b c : ByteArray}

theorem refl (a : ByteArray) : BytesBegin a a := ⟨.empty, ByteArray.append_empty.symm⟩

theorem trans (hab : BytesBegin a b) (hbc : BytesBegin b c) : BytesBegin a c := by
  obtain ⟨more, rfl⟩ := hab
  obtain ⟨more', rfl⟩ := hbc
  exact ⟨more ++ more', ByteArray.append_assoc⟩

/-- Bytes that begin each other are the same. -/
theorem antisymm (hab : BytesBegin a b) (hba : BytesBegin b a) : a = b := by
  obtain ⟨more, rfl⟩ := hab
  obtain ⟨more', hmore'⟩ := hba
  have hsize := congrArg ByteArray.size hmore'
  rw [ByteArray.size_append, ByteArray.size_append] at hsize
  obtain rfl : more = .empty := ByteArray.size_eq_zero_iff.mp (by omega)
  exact ByteArray.append_empty.symm

end BytesBegin

/-- A sink keeps what it has taken. -/
theorem Sink.begins_take (sink : Sink) (written bytes : ByteArray) :
    BytesBegin written (sink.take written bytes).1 := by
  unfold Sink.take
  split
  · exact ⟨bytes, rfl⟩
  · split
    · exact ⟨bytes, rfl⟩
    · exact ⟨_, rfl⟩

/-- What a compilation leaves behind apart from its notes: the output and how it ended. -/
def Report.result (r : Report) : ByteArray × Except Error Unit := (r.output, r.verdict)

namespace Run

open JackStack.Generator

variable {S : Position → Position → Prop} {indent : Nat} {verdict verdict' : Except Error Unit}

/-- Notes are of no consequence for what is written. -/
theorem deliverFrom_result (events : List Event) (w : Writer) (notes notes' : List Note) :
    (deliverFrom indent verdict w notes events).result =
      (deliverFrom indent verdict w notes' (emitAll (Event.instructions events))).result := by
  induction events generalizing w notes with
  | nil =>
    cases verdict with
    | error e => rfl
    | ok =>
      change (deliverFrom _ _ _ _ []).result = (deliverFrom _ _ _ _ []).result
      unfold deliverFrom
      cases w.flush <;> rfl
  | cons event events ih =>
    cases event with
    | note n => exact ih w (n :: notes)
    | emit i =>
      change _ = (deliverFrom indent verdict w notes' (.emit i :: emitAll _)).result
      unfold deliverFrom
      rcases w.put (i.bodyLine indent) with ⟨w', _ | e⟩
      · exact ih w' notes
      · rfl

/-- The result of a delivery depends on the instructions and the verdict of the run only. -/
theorem deliver_result (r : Run) (sink : Sink) (options : Options) :
    (r.deliver sink options).result = (deliverFrom options.indent r.verdict { sink } []
      (emitAll (Event.instructions r.events))).result :=
  deliverFrom_result r.events { sink } [] []

/-- Runs that emit the same and end in the same way write the same. -/
theorem deliver_same {r r' : Run}
    (hcode : Event.instructions r.events = Event.instructions r'.events)
    (hverdict : r.verdict = r'.verdict) (sink : Sink) (options : Options) :
    (r.deliver sink options).result = (r'.deliver sink options).result := by
  rw [deliver_result, deliver_result, hcode, hverdict]

/-- Runs that emit the same and end alike write the same and end alike. -/
theorem deliverFrom_alike (h : EndsAlike S verdict verdict') (code : List Instruction) (w : Writer)
    (notes : List Note) :
    (deliverFrom indent verdict w notes (emitAll code)).output =
        (deliverFrom indent verdict' w notes (emitAll code)).output ∧
      EndsAlike S (deliverFrom indent verdict w notes (emitAll code)).verdict
        (deliverFrom indent verdict' w notes (emitAll code)).verdict := by
  have hio : ∀ e : IoError, EndsAlike S (.error (.io e) : Except Error Unit) (.error (.io e)) :=
    fun e => .error ⟨rfl, .none⟩
  induction code generalizing w with
  | nil =>
    change (deliverFrom _ _ _ _ []).output = (deliverFrom _ _ _ _ []).output ∧
      EndsAlike S (deliverFrom _ _ _ _ []).verdict (deliverFrom _ _ _ _ []).verdict
    cases h with
    | error errors => exact ⟨rfl, .error errors⟩
    | ok =>
      unfold deliverFrom
      cases w.flush with
      | none => exact ⟨rfl, .ok ()⟩
      | some e => exact ⟨rfl, hio e⟩
  | cons i code ih =>
    have hcons : emitAll (i :: code) = .emit i :: emitAll code := rfl
    rw [hcons]
    unfold deliverFrom
    rcases w.put (i.bodyLine indent) with ⟨w', _ | e⟩
    · exact ih w'
    · exact ⟨rfl, hio e⟩

/-- The same for whole runs. -/
theorem deliver_alike {r r' : Run}
    (hcode : Event.instructions r.events = Event.instructions r'.events)
    (hverdict : EndsAlike S r.verdict r'.verdict) (sink : Sink) (options : Options) :
    (r.deliver sink options).output = (r'.deliver sink options).output ∧
      EndsAlike S (r.deliver sink options).verdict (r'.deliver sink options).verdict := by
  have hr := r.deliver_result sink options
  have hr' := r'.deliver_result sink options
  rw [← hcode] at hr'
  obtain ⟨houtput, hends⟩ := deliverFrom_alike hverdict (Event.instructions r.events) { sink } []
  constructor
  · exact (congrArg Prod.fst hr).trans (houtput.trans (congrArg Prod.fst hr').symm)
  · rw [show (r.deliver sink options).verdict = _ from congrArg Prod.snd hr,
      show (r'.deliver sink options).verdict = _ from congrArg Prod.snd hr']
    exact hends

/-- What has been written stays in front of what is written. -/
theorem begins_deliverFrom (code : List Instruction) (w : Writer) (notes : List Note) :
    BytesBegin w.written (deliverFrom indent verdict w notes (emitAll code)).output := by
  induction code generalizing w with
  | nil =>
    change BytesBegin w.written (deliverFrom _ _ _ _ []).output
    unfold deliverFrom
    cases verdict with
    | error e => exact .refl _
    | ok => cases w.flush <;> exact .refl _
  | cons i code ih =>
    have hput : BytesBegin w.written (w.put (i.bodyLine indent)).1.written :=
      w.sink.begins_take w.written (i.bodyLine indent).toUTF8
    have hcons : emitAll (i :: code) = .emit i :: emitAll code := rfl
    rw [hcons]
    unfold deliverFrom
    generalize w.put (i.bodyLine indent) = put at hput
    obtain ⟨w', _ | e⟩ := put
    · exact hput.trans (ih w')
    · exact hput

/-- A run that fails and has emitted the beginning of what another one emits. A failing write makes
them the same. -/
theorem deliverFrom_begins (indent : Nat) (verdict : Except Error Unit) (e : Error)
    (code more : List Instruction) (w : Writer) (notes : List Note) :
    (deliverFrom indent (.error e) w notes (emitAll code)).result =
        (deliverFrom indent verdict w notes (emitAll (code ++ more))).result ∨
      (deliverFrom indent (.error e) w notes (emitAll code)).verdict = .error e ∧
        BytesBegin (deliverFrom indent (.error e) w notes (emitAll code)).output
          (deliverFrom indent verdict w notes (emitAll (code ++ more))).output := by
  induction code generalizing w with
  | nil => exact .inr ⟨rfl, begins_deliverFrom more w notes⟩
  | cons i code ih =>
    have hcons : ∀ code, emitAll (i :: code) = .emit i :: emitAll code := fun _ => rfl
    rw [List.cons_append, hcons, hcons]
    unfold deliverFrom
    rcases w.put (i.bodyLine indent) with ⟨w', _ | e'⟩
    · exact ih w'
    · exact .inl rfl

/-- The same for whole runs. -/
theorem deliver_begins {r r' : Run} {e : Error} (hverdict : r.verdict = .error e)
    (hcode : Event.instructions r.events <+: Event.instructions r'.events) (sink : Sink)
    (options : Options) :
    (r.deliver sink options).result = (r'.deliver sink options).result ∨
      (r.deliver sink options).verdict = .error e ∧
        BytesBegin (r.deliver sink options).output (r'.deliver sink options).output := by
  obtain ⟨more, hmore⟩ := hcode
  have hr := r.deliver_result sink options
  have hr' := r'.deliver_result sink options
  rw [hverdict] at hr
  rw [← hmore] at hr'
  have hbegins := deliverFrom_begins options.indent r'.verdict e (Event.instructions r.events) more
    { sink } []
  rcases hbegins with hequal | ⟨hend, hbegins⟩
  · exact .inl (hr.trans (hequal.trans hr'.symm))
  · refine .inr ⟨(congrArg Prod.snd hr).trans hend, ?_⟩
    rw [show (r.deliver sink options).output = _ from congrArg Prod.fst hr,
      show (r'.deliver sink options).output = _ from congrArg Prod.fst hr']
    exact hbegins

end Run

end JackStack
