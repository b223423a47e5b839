import Mathlib.Data.List.TakeWhile
import JackStack.Proofs.Constants
import JackStack.Proofs.Delivery

/-!
# Switching the indentation

A writer begins without indentation. It writes the first line of a function, switches the
indentation on, writes the body of the function and switches the indentation off again. Whatever a
source holds, its functions written in this way are what is delivered, and a write that fails is the
same one.
-/

namespace JackStack

/-! ## Functions one behind the other -/

/-- What stands in front of the first function and the functions are the whole code. -/
theorem takeWhile_append_flatten_functions (code : List Instruction) :
    code.takeWhile (! ·.isFunction) ++ (functions code).flatten = code := by
  induction code with
  | nil => rfl
  | cons i code ih =>
    cases hi : i.isFunction with
    | true => simp [functions, hi, ih]
    | false => simp [functions, hi, ih]

/-- Code that begins with a function is made of its functions. -/
theorem flatten_functions {code : List Instruction} (h : ∀ i ∈ code.head?, i.isFunction = true) :
    (functions code).flatten = code := by
  have hall := takeWhile_append_flatten_functions code
  cases code with
  | nil => rfl
  | cons i code =>
    have hi : i.isFunction = true := h i rfl
    simpa [hi] using hall

/-- A function has one line that begins a function, its first one. -/
theorem mem_functions {code f : List Instruction} (h : f ∈ functions code) :
    ∃ head body, f = head :: body ∧ head.isFunction = true ∧ ∀ i ∈ body, i.isFunction = false := by
  induction code with
  | nil => cases h
  | cons i code ih =>
    rw [functions] at h
    split at h
    · next hi =>
      rcases List.mem_cons.mp h with rfl | h
      · refine ⟨i, _, rfl, hi, fun j hj => ?_⟩
        simpa using List.mem_takeWhile_imp hj
      · exact ih h
    · exact ih h

/-! ## Beginning with a function -/

/-- The actions emit nothing up to the first body. -/
def Opening (actions : List Action) : Prop :=
  ∃ front back, actions = front ++ back ∧ (∀ a ∈ front, a.isSilent = true) ∧
    ∀ a ∈ back.head?, a = .openBody

namespace Opening

/-- So do the first ones of them. -/
theorem of_begins {actions first : List Action} (h : Opening actions) (hfirst : first <+: actions) :
    Opening first := by
  obtain ⟨front, back, rfl, hfront, hback⟩ := h
  rcases List.prefix_or_prefix_of_prefix hfirst (List.prefix_append front back) with
    hbegins | ⟨middle, rfl⟩
  · exact ⟨first, [], (List.append_nil first).symm, fun a ha => hfront a (hbegins.subset ha), nofun⟩
  · refine ⟨front, middle, rfl, hfront, fun a ha => hback a ?_⟩
    obtain ⟨rest, rfl⟩ := (List.prefix_append_right_inj front).mp hfirst
    rw [List.head?_append, show middle.head? = some a from ha]
    rfl

/-- What they emit begins with a function. -/
theorem head?_run {actions : List Action} (h : Opening actions) (g : Generator) :
    ∀ i ∈ (Event.instructions (g.run [] actions).1).head?, i.isFunction = true := by
  obtain ⟨front, back, rfl, hsilent, hback⟩ := h
  have hfront := g.instructions_of_silent hsilent
  rw [Generator.run_append]
  generalize g.run [] front = run at hfront
  obtain ⟨events, e | g'⟩ := run
  · rw [hfront]
    exact nofun
  · rw [Event.instructions_append, hfront, List.nil_append]
    cases back with
    | nil => exact nofun
    | cons a back =>
      obtain rfl := hback a rfl
      rw [Generator.run_cons_of_ok rfl, Event.instructions_append]
      intro i hi
      cases hi
      rfl

end Opening

namespace Tree

/-- A class emits nothing up to the body of its first subroutine. -/
theorem Class.opening (c : Class) : Opening c.actions := by
  have hhead : ∀ a ∈ .nameClass c.name :: c.declarations.map Declaration.action,
      a.isSilent = true :=
    List.forall_mem_cons.mpr ⟨rfl, Generator.isSilent_declarations _⟩
  rw [Class.actions_eq]
  cases c.subroutines with
  | nil => exact ⟨_, [], rfl, hhead, nofun⟩
  | cons s subs =>
    have hsub : ∀ a ∈ .openSub s.kind :: .nameSub s.name :: s.declarations.map Declaration.action,
        a.isSilent = true :=
      List.forall_mem_cons.mpr ⟨rfl, List.forall_mem_cons.mpr ⟨rfl, Generator.isSilent_declarations _⟩⟩
    refine ⟨_, .openBody :: (blockActions s.body ++ subs.flatMap Subroutine.actions), ?_,
      List.forall_mem_append.mpr ⟨hhead, hsub⟩, fun a ha => (Option.some.inj ha).symm⟩
    simp [Subroutine.actions_eq]

end Tree

/-- Whatever a source holds, the code for it begins with a function. -/
theorem Run.head?_instructions (readings : List Reading) :
    ∀ i ∈ (Event.instructions (Run.ofReadings readings).events).head?, i.isFunction = true := by
  let unread := Unread.ofReadings readings
  obtain ⟨c, hc⟩ := Syntax.parse_actions_begin unread.outcomes unread.finish
  have hrun := (Generator.run_alike (Action.listAlike_unplaced
    (Syntax.parse unread.outcomes unread.finish).actions) {}).instructions
  have hhead := (c.opening.of_begins hc).head?_run {}
  rwa [← hrun] at hhead

/-! ## Writing function by function -/

/-- What a writer is asked for. -/
inductive Writer.Order where
  | write (i : Instruction)
  | indent (n : Nat)

namespace Writer

/-- Carries out orders up to the first failing write. -/
def carryOut (w : Writer) : List Order → Writer × Option IoError
  | [] => (w, none)
  | .write i :: orders =>
    match w.instruction i with
    | (w', none) => w'.carryOut orders
    | (w', some e) => (w', some e)
  | .indent n :: orders => (w.setIndent n).carryOut orders

/-- A function is written with the indentation switched on for its body. -/
def functionOrders (indent : Nat) : List Instruction → List Order
  | [] => []
  | head :: body => .write head :: .indent indent :: body.map .write ++ [.indent 0]

/-- Writes lines of code up to the first failing write, each under the indentation that it has
inside a class. -/
def lines (w : Writer) (indent : Nat) : List Instruction → Writer × Option IoError
  | [] => (w, none)
  | i :: code =>
    match w.put (i.bodyLine indent) with
    | (w', none) => w'.lines indent code
    | (w', some e) => (w', some e)

/-- Lines one behind the other are written until one of them fails. -/
theorem lines_append (w : Writer) (indent : Nat) (front back : List Instruction) :
    w.lines indent (front ++ back) =
      match w.lines indent front with
      | (w', none) => w'.lines indent back
      | (w', some e) => (w', some e) := by
  induction front generalizing w with
  | nil => rfl
  | cons i front ih =>
    simp only [List.cons_append, lines]
    rcases w.put (i.bodyLine indent) with ⟨w', _ | e⟩
    · exact ih w'
    · rfl

/-- Writing does not exchange the sink. -/
theorem sink_lines (w : Writer) (indent : Nat) (code : List Instruction) :
    (w.lines indent code).1.sink = w.sink := by
  induction code generalizing w with
  | nil => rfl
  | cons i code ih =>
    have hput : (w.put (i.bodyLine indent)).1.sink = w.sink := rfl
    rw [lines]
    generalize w.put (i.bodyLine indent) = put at hput
    obtain ⟨w', _ | e⟩ := put
    · exact (ih w').trans hput
    · exact hput

/-- Under the indentation that it has inside a class an instruction is written as its line there. -/
theorem instruction_setIndent (w : Writer) (indent : Nat) (i : Instruction) :
    (w.setIndent (if i.isFunction then 0 else indent)).instruction i =
      ((w.put (i.bodyLine indent)).1.setIndent (if i.isFunction then 0 else indent),
        (w.put (i.bodyLine indent)).2) := rfl

/-- With the indentation switched on, the body of a function is written as its lines. -/
theorem carryOut_body {body : List Instruction} (h : ∀ i ∈ body, i.isFunction = false)
    (w : Writer) (indent : Nat) (orders : List Order) :
    (w.setIndent indent).carryOut (body.map .write ++ orders) =
      match w.lines indent body with
      | (w', none) => (w'.setIndent indent).carryOut orders
      | (w', some e) => (w'.setIndent indent, some e) := by
  induction body generalizing w with
  | nil => rfl
  | cons i body ih =>
    obtain ⟨hi, hbody⟩ := List.forall_mem_cons.mp h
    have hline := w.instruction_setIndent indent i
    rw [hi, if_neg Bool.false_ne_true] at hline
    simp only [List.map_cons, List.cons_append, carryOut, hline, lines]
    rcases w.put (i.bodyLine indent) with ⟨w', _ | e⟩
    · exact ih hbody w'
    · rfl

/-- Functions written with the indentation switched on and off are written as their lines. -/
theorem carryOut_functions {fs : List (List Instruction)}
    (h : ∀ f ∈ fs, ∃ head body, f = head :: body ∧ head.isFunction = true ∧
      ∀ i ∈ body, i.isFunction = false) (w : Writer) (indent : Nat) :
    ∃ n, (w.setIndent 0).carryOut (fs.flatMap (functionOrders indent)) =
      ((w.lines indent fs.flatten).1.setIndent n, (w.lines indent fs.flatten).2) := by
  induction fs generalizing w with
  | nil => exact ⟨0, rfl⟩
  | cons f fs ih =>
    obtain ⟨⟨head, body, rfl, hhead, hbody⟩, hfs⟩ := List.forall_mem_cons.mp h
    have hline := w.instruction_setIndent indent head
    rw [hhead, if_pos rfl] at hline
    simp only [List.flatMap_cons, functionOrders, List.cons_append, List.append_assoc, carryOut,
      hline, List.flatten_cons, lines]
    rcases w.put (head.bodyLine indent) with ⟨w', _ | e⟩
    · have hbody := carryOut_body hbody w' indent
        (.indent 0 :: fs.flatMap (functionOrders indent))
      change ∃ n, (w'.setIndent indent).carryOut _ =
        ((w'.lines _ _).1.setIndent n, (w'.lines _ _).2)
      rw [List.nil_append, hbody, lines_append]
      rcases w'.lines indent body with ⟨w'', _ | e⟩
      · exact ih hfs w''
      · exact ⟨indent, rfl⟩
    · exact ⟨0, rfl⟩

end Writer

namespace Run

open JackStack.Generator

/-- What is delivered are the lines, up to the first failing write. -/
theorem deliverFrom_lines (indent : Nat) (verdict : Except Error Unit) (w : Writer)
    (notes : List Note) (code : List Instruction) :
    (deliverFrom indent verdict w notes (emitAll code)).result =
      match w.lines indent code with
      | (w', none) => (deliverFrom indent verdict w' notes []).result
      | (w', some e) => (w'.written, .error (.io e)) := by
  induction code generalizing w with
  | nil => rfl
  | cons i code ih =>
    have hcons : emitAll (i :: code) = .emit i :: emitAll code := rfl
    rw [hcons, deliverFrom, Writer.lines]
    rcases w.put (i.bodyLine indent) with ⟨w', _ | e⟩
    · exact ih w'
    · rfl

end Run

/-- Whatever a source holds, a compilation writes its functions one after the other, each body with
the indentation switched on and the rest without it. It fails as the first write that fails, or else
as its run ends, or else as the sink is flushed. -/
theorem compile_switches (readings : List Reading) (sink : Sink) (options : Options) :
    let run := Run.ofReadings readings
    let written := ({ sink } : Writer).carryOut
      ((functions (Event.instructions run.events)).flatMap (Writer.functionOrders options.indent))
    (compile readings sink options).output = written.1.written ∧
    (compile readings sink options).verdict =
      match written.2 with
      | some e => .error (.io e)
      | none => run.verdict.bind fun _ =>
        match sink.flushFault with
        | some e => .error (.io e)
        | none => .ok () := by
  intro run written
  have hcode := flatten_functions (Run.head?_instructions readings)
  have hfunctions : ∀ f ∈ functions (Event.instructions run.events), ∃ head body,
      f = head :: body ∧ head.isFunction = true ∧ ∀ i ∈ body, i.isFunction = false :=
    fun f hf => mem_functions hf
  obtain ⟨n, hwritten⟩ := Writer.carryOut_functions hfunctions { sink } options.indent
  rw [hcode] at hwritten
  have hdelivered := (run.deliver_result sink options).trans
    (Run.deliverFrom_lines options.indent run.verdict { sink } [] (Event.instructions run.events))
  have hsink := Writer.sink_lines { sink } options.indent (Event.instructions run.events)
  change written = _ at hwritten
  change (compile readings sink options).result = _ at hdelivered
  rw [hwritten]
  generalize ({ sink } : Writer).lines options.indent (Event.instructions run.events) = lines
    at hdelivered hsink
  obtain ⟨w, _ | e⟩ := lines
  · have hflush : w.flush = sink.flushFault := congrArg Sink.flushFault hsink
    simp only [Run.deliverFrom, hflush] at hdelivered
    cases hverdict : run.verdict with
    | error e =>
      rw [hverdict] at hdelivered
      exact ⟨congrArg Prod.fst hdelivered, congrArg Prod.snd hdelivered⟩
    | ok u =>
      rw [hverdict] at hdelivered
      cases hfault : sink.flushFault <;> rw [hfault] at hdelivered <;>
        exact ⟨congrArg Prod.fst hdelivered, congrArg Prod.snd hdelivered⟩
  · exact ⟨congrArg Prod.fst hdelivered, congrArg Prod.snd hdelivered⟩

end JackStack
