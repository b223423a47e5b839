import JackStack.Proofs.Code.Branching
import JackStack.Proofs.Grammar.Recognition
import JackStack.Proofs.Translation

/-!
# Labels and jumps

The labels of a compiled class are its name with the numbers from zero on, two for each branch, and
the jumps lead to them, to each one from one place in the same function. A run that fails has
written the first lines of some class, so no label stands in them twice either.
-/

namespace JackStack

open JackStack.Tree

/-! ## What was written -/

/-- The lines of the first instructions were written, and where the sink took no more, the
beginning of the line behind them. -/
inductive Written (indent : Nat) (code : List Instruction) : List Instruction → ByteArray → Prop
  | whole {done rest : List Instruction} (split : code = done ++ rest) :
      Written indent code done (codeText indent done).toUTF8
  | cut {done rest : List Instruction} {i : Instruction} {size : Nat}
      (split : code = done ++ i :: rest) (short : size < (i.bodyLine indent).toUTF8.size) :
      Written indent code done
        ((codeText indent done).toUTF8 ++ (i.bodyLine indent).toUTF8.extract 0 size)

namespace Written

variable {indent : Nat} {code done : List Instruction} {bytes : ByteArray}

/-- What was written completely begins the code. -/
theorem begins (h : Written indent code done bytes) : done <+: code := by
  cases h with
  | whole split => exact ⟨_, split.symm⟩
  | cut split => exact ⟨_, split.symm⟩

/-- An instruction in front was written completely as well. -/
theorem cons (i : Instruction) (h : Written indent code done bytes) :
    Written indent (i :: code) (i :: done) ((i.bodyLine indent).toUTF8 ++ bytes) := by
  cases h with
  | whole split =>
    rw [← codeText_toUTF8_cons]
    exact .whole (congrArg (i :: ·) split)
  | cut split short =>
    rw [← ByteArray.append_assoc, ← codeText_toUTF8_cons]
    exact .cut (congrArg (i :: ·) split) short

end Written

/-- No line is empty. -/
theorem Instruction.bodyLine_size_pos (indent : Nat) (i : Instruction) :
    0 < (i.bodyLine indent).toUTF8.size := by
  have hline : (i.bodyLine indent).toUTF8 =
      (Text.spaces _ ++ i.text).toUTF8 ++ "\n".toUTF8 := String.toByteArray_append
  have hfeed : "\n".toUTF8.size = 1 := by decide
  rw [hline, ByteArray.size_append, hfeed]
  omega

/-- Where bytes did not fit, the sink has taken less than all of them. -/
theorem Sink.take_of_some {sink : Sink} {written bytes all : ByteArray} {e : IoError}
    (hbytes : 0 < bytes.size) (h : sink.take written bytes = (all, some e)) :
    ∃ size < bytes.size, all = written ++ bytes.extract 0 size := by
  unfold take at h
  split at h
  · cases h
  · split at h
    · cases h
    · cases h
      exact ⟨_, by omega, rfl⟩

/-- Whatever is delivered has been written from the first line on. -/
theorem Run.written_of_deliverFrom (indent : Nat) (verdict : Except Error Unit)
    (events : List Event) (w : Writer) (notes : List Note) :
    ∃ done bytes, Written indent (Event.instructions events) done bytes ∧
      (deliverFrom indent verdict w notes events).output = w.written ++ bytes := by
  induction events generalizing w notes with
  | nil =>
    refine ⟨[], _, .whole rfl, ?_⟩
    have hempty : (codeText indent []).toUTF8 = ByteArray.empty := rfl
    rw [hempty, ByteArray.append_empty]
    unfold deliverFrom
    split
    · rfl
    · split <;> rfl
  | cons event events ih =>
    cases event with
    | note n => exact ih w (n :: notes)
    | emit i =>
      rw [deliverFrom]
      split
      · next w' hput =>
        have hwritten : w'.written = w.written ++ (i.bodyLine indent).toUTF8 :=
          Sink.take_of_none (congrArg (fun p => (p.1.written, p.2)) hput)
        obtain ⟨done, bytes, hbytes, houtput⟩ := ih w' notes
        refine ⟨i :: done, _, hbytes.cons i, ?_⟩
        rw [houtput, hwritten, ByteArray.append_assoc]
      · next w' e hput =>
        obtain ⟨size, hsize, hwritten⟩ :=
          Sink.take_of_some (i.bodyLine_size_pos indent)
            (congrArg (fun p => (p.1.written, p.2)) hput)
        have hempty : (codeText indent []).toUTF8 = ByteArray.empty := rfl
        refine ⟨[], _, .cut rfl hsize, ?_⟩
        rw [hempty, ByteArray.empty_append]
        exact hwritten

/-! ## The labels of a run -/

/-- The source scans to the tokens of the class. -/
def Holds (readings : List Reading) (c : Tree.Class) : Prop :=
  ∃ lexemes : List Lexeme, lexemes.map (·.token) = c.tokens ∧
    (Unread.ofReadings readings).outcomes = lexemes.map .lexeme

/-- The labels of the beginning begin the labels. -/
theorem Labelling.run_of_begins (l : Labelling) {front actions : List Action}
    (h : front <+: actions) : (l.run front).2 <+: (l.run actions).2 := by
  obtain ⟨back, rfl⟩ := h
  rw [run_append]
  exact List.prefix_append _ _

namespace Run

/-- What a run emits has the first lines of the outline of a class, if recognition reports its
first actions. -/
theorem outline_begins {readings : List Reading} {c : Tree.Class}
    (h : Action.unplaced (Syntax.parse (Unread.ofReadings readings).outcomes
      (Unread.ofReadings readings).finish).actions <+: c.actions) :
    outline (Event.instructions (Run.ofReadings readings).events) <+:
      (({} : Labelling).run c.actions).2 := by
  have hbegins := Labelling.run_of_begins {} h
  rw [Labelling.run_unplaced] at hbegins
  exact (Generator.outline_run {} _).1.trans hbegins

/-- The outline of what a run emits begins that of its class. -/
theorem outline_begins_of_holds {readings : List Reading} {c : Tree.Class}
    (h : Holds readings c) : outline (Event.instructions (Run.ofReadings readings).events) <+:
      (({} : Labelling).run c.actions).2 := by
  obtain ⟨lexemes, htokens, houtcomes⟩ := h
  obtain ⟨xs, r, hparse, hxs⟩ :=
    Syntax.parse_of_tokens htokens (Unread.ofReadings readings).finish
  rw [← houtcomes] at hparse
  apply outline_begins
  refine ⟨[], ?_⟩
  rw [hparse, List.append_nil]
  exact hxs

/-- A run that succeeds has recognised a class, and emits its outline. -/
theorem outline_of_verdict {readings : List Reading}
    (h : (Run.ofReadings readings).verdict = .ok ()) :
    ∃ c : Tree.Class, Holds readings c ∧
      outline (Event.instructions (Run.ofReadings readings).events) =
        (({} : Labelling).run c.actions).2 := by
  obtain ⟨xs, r, hparse⟩ := exists_parse_of_verdict h
  obtain ⟨c, lexemes, houtcomes, htokens, hxs⟩ := Syntax.tokens_of_parse hparse
  obtain ⟨g, events, hrun, hevents⟩ := (ofReadings_of_parse hparse).mp ⟨h, rfl⟩
  have houtline := (Generator.outline_run {} xs).2 g (congrArg Prod.snd hrun)
  refine ⟨c, ⟨lexemes, htokens, houtcomes⟩, ?_⟩
  rw [← hevents, ← hxs, Labelling.run_unplaced]
  rwa [hrun] at houtline

/-- No run defines a label twice. -/
theorem nodup_labelNames (readings : List Reading) :
    (labelNames (Event.instructions (Run.ofReadings readings).events)).Nodup := by
  obtain ⟨c, hc⟩ := Syntax.parse_actions_begin (Unread.ofReadings readings).outcomes
    (Unread.ofReadings readings).finish
  have hclass : (labelNames (({} : Labelling).run c.actions).2).Nodup :=
    c.sections.labelNames_perm.nodup_iff.mpr (nodup_labelPairs _ _ _)
  rw [← labelNames_outline]
  exact hclass.sublist ((outline_begins hc).sublist.filterMap _)

/-- The labels of a class bear its name. -/
theorem exists_of_mem_labelNames {readings : List Reading} {c : Tree.Class}
    (h : Holds readings c) {name : String}
    (hname : name ∈ labelNames (Event.instructions (Run.ofReadings readings).events)) :
    ∃ n, name = labelText c.name n := by
  rw [← labelNames_outline] at hname
  have hclass : name ∈ labelPairs c.name 0 c.branches :=
    c.sections.labelNames_perm.mem_iff.mp
      (((outline_begins_of_holds h).sublist.filterMap _).subset hname)
  obtain ⟨n, -, hn⟩ := List.mem_map.mp hclass
  exact ⟨n, hn.symm⟩

end Run

/-! ## Labels and jumps of a class -/

/-- The labels of code are those of a class with two numbers for each of `m` branches, and jumps
and labels belong together. -/
structure Labelled (name : String) (m : Nat) (code : List Instruction) : Prop where
  labels : (labelNames code).Perm ((List.range (2 * m)).map (labelText name))
  once : (labelNames code).Nodup
  /-- Every jump stands in a function. -/
  inside : (functions code).flatMap jumpNames = jumpNames code
  /-- A function defines the labels that it jumps to. -/
  own : ∀ f ∈ functions code, ∀ target ∈ jumpNames f, target ∈ labelNames f
  targeted : ∀ label ∈ labelNames code, (jumpNames code).count label = 1
  gotos : code.countP Instruction.isGoto = m
  ifGotos : code.countP Instruction.isIfGoto = m

/-- Code with the outline of sections is labelled. -/
theorem Sections.labelled {name : String} {m : Nat} {out code : List Instruction}
    (h : Sections name 0 m out) (hcode : outline code = out) : Labelled name m code := by
  subst hcode
  have hlabels := h.labelNames_perm
  have hjumps := h.jumpNames_perm
  rw [labelNames_outline] at hlabels
  rw [jumpNames_outline] at hjumps
  have hnodup := nodup_labelPairs name 0 m
  have hfunctions : ∀ f ∈ functions code, (jumpNames f).Perm (labelNames f) := by
    intro f hf
    have hmem : outline f ∈ functions (outline code) := by
      rw [functions_outline]
      exact List.mem_map_of_mem hf
    have hperm := h.jumpNames_perm_labelNames hmem
    rwa [jumpNames_outline, labelNames_outline] at hperm
  constructor
  · rwa [List.range_eq_range']
  · exact hlabels.nodup_iff.mpr hnodup
  · have hinside := h.flatMap_functions
    rw [functions_outline, jumpNames_outline, List.flatMap_map] at hinside
    rw [← hinside]
    exact List.flatMap_congr fun f _ => (jumpNames_outline f).symm
  · intro f hf target htarget
    exact (hfunctions f hf).mem_iff.mp htarget
  · intro label hlabel
    rw [hjumps.count_eq, hnodup.count, if_pos (hlabels.mem_iff.mp hlabel)]
  · rw [← countP_outline fun i => by cases i <;> rfl]
    exact h.countP_eq.1
  · rw [← countP_outline fun i => by cases i <;> rfl]
    exact h.countP_eq.2

/-- A compilation that succeeds has written a class whose labels and jumps belong together. Whatever
a run has written, also one that fails, no label is defined twice in it. Classes with different
names have no label in common. -/
theorem labels_paired_with_jumps (readings : List Reading) (sink : Sink) (options : Options) :
    let code := Event.instructions (Run.ofReadings readings).events
    let report := compile readings sink options
    (report.verdict = .ok () → ∃ c : Tree.Class, Holds readings c ∧
      report.output = (codeText options.indent code).toUTF8 ∧ Labelled c.name c.branches code) ∧
    (∃ done, Written options.indent code done report.output ∧ (labelNames done).Nodup) ∧
    ∀ (others : List Reading) (c d : Tree.Class), Holds readings c → Holds others d →
      c.name ≠ d.name → (labelNames code).Disjoint
        (labelNames (Event.instructions (Run.ofReadings others).events)) := by
  intro code report
  refine ⟨?_, ?_, ?_⟩
  · intro h
    obtain ⟨c, hc, houtline⟩ := Run.outline_of_verdict (Run.verdict_of_deliverFrom h)
    exact ⟨c, hc, compile_output h, c.sections.labelled houtline⟩
  · obtain ⟨done, bytes, hwritten, houtput⟩ :=
      Run.written_of_deliverFrom options.indent (Run.ofReadings readings).verdict
        (Run.ofReadings readings).events { sink } []
    rw [ByteArray.empty_append] at houtput
    have hnodup := Run.nodup_labelNames readings
    refine ⟨done, houtput ▸ hwritten, ?_⟩
    exact hnodup.sublist (hwritten.begins.sublist.filterMap _)
  · intro others c d hc hd hne name hname hname'
    obtain ⟨m, rfl⟩ := Run.exists_of_mem_labelNames hc hname
    obtain ⟨n, hn⟩ := Run.exists_of_mem_labelNames hd hname'
    exact hne (labelText_inj.mp hn).1

/-- The text of `counter` has two branches, so four labels. -/
theorem counterText_labelled :
    (compile (Reading.ofBytes counterText.toUTF8.toList) {} {}).verdict = .ok () ∧
      Labelled "Counter" 2 (Event.instructions
        (Run.ofReadings (Reading.ofBytes counterText.toUTF8.toList)).events) := by
  obtain ⟨hclass, -⟩ :=
    labels_paired_with_jumps (Reading.ofBytes counterText.toUTF8.toList) {} {}
  obtain ⟨c, hholds, -, hlabelled⟩ := hclass counterText_compiled
  obtain rfl : c = counter := Class.tokens_injective (ScansTo.unique hholds counterText_scans)
  exact ⟨counterText_compiled, hlabelled⟩

end JackStack
