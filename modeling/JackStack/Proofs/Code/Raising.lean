import JackStack.Proofs.Code.Branching
import JackStack.Proofs.Code.Declaring

/-!
# Labels with higher numbers

A generator that has handed out more labels emits the same code with higher numbers on its labels,
and fails where it failed before. What the generator remembers of one subroutine is forgotten where
the next one begins, so the code of subroutines depends on the class and on the number of labels
handed out before them, and on nothing else.
-/

namespace JackStack

/-! ## Raising the numbers of labels -/

/-- The number of a label of a class. -/
def labelNumber (className text : String) : Nat :=
  Nat.ofDigitChars 10 (text.toList.drop (className.length + 1)) 0

/-- The label of a class with a number that is higher by `k`. -/
def raiseLabel (className : String) (k : Nat) (text : String) : String :=
  labelText className (labelNumber className text + k)

/-- The number of a label is read back from its text. -/
theorem labelNumber_labelText (className : String) (n : Nat) :
    labelNumber className (labelText className n) = n := by
  have hfront : (className ++ "_").toList.length = className.length + 1 := by
    rw [String.length_toList, String.length_append]
    rfl
  have hdigits : (toString n).toList = Nat.toDigits 10 n := Nat.toList_repr
  rw [labelNumber, labelText, String.toList_append, List.drop_left' hfront, hdigits,
    Nat.ofDigitChars_ten_toDigits]

/-- Raising a label raises its number. -/
@[simp] theorem raiseLabel_labelText (className : String) (k n : Nat) :
    raiseLabel className k (labelText className n) = labelText className (n + k) := by
  rw [raiseLabel, labelNumber_labelText]

/-- The instruction with higher numbers on its labels. -/
def Instruction.raise (className : String) (k : Nat) : Instruction → Instruction
  | label name => label (raiseLabel className k name)
  | goto name => goto (raiseLabel className k name)
  | ifGoto name => ifGoto (raiseLabel className k name)
  | i => i

/-- Raising labels leaves straight instructions as they are. -/
theorem Instruction.raise_of_isStraight {i : Instruction} (h : i.isStraight = true)
    (className : String) (k : Nat) : i.raise className k = i := by
  cases i <;> first | rfl | cases h

/-- The event with higher numbers on its labels. -/
def Event.raise (className : String) (k : Nat) : Event → Event
  | note n => note n
  | emit i => emit (i.raise className k)

/-- Raised events have raised instructions. -/
theorem Event.instructions_map_raise (className : String) (k : Nat) (events : List Event) :
    Event.instructions (events.map (Event.raise className k)) =
      (Event.instructions events).map (Instruction.raise className k) := by
  rw [Event.instructions, Event.instructions, List.filterMap_map, List.map_filterMap]
  apply List.filterMap_congr
  intro event _
  cases event <;> rfl

/-! ## Carrying out actions with higher labels -/

/-- The action leaves the class alone: it neither names it nor declares a variable of it. -/
def Action.isLocal : Action → Bool
  | nameClass _ => false
  | declare kind _ _ _ => Generator.ownKind kind
  | _ => true

/-- The actions leave the class alone. -/
def AllLocal (actions : List Action) : Prop := ∀ a ∈ actions, a.isLocal = true

/-- The action leaves the class and the scope of the subroutine alone. -/
def Action.isInner : Action → Bool
  | nameClass _ | declare _ _ _ _ | openSub _ => false
  | _ => true

/-- What stands among statements stands inside a subroutine. -/
theorem Action.isLocal_of_isInner {a : Action} (h : a.isInner = true) : a.isLocal = true := by
  cases a with
  | nameClass | declare => cases h
  | _ => rfl

/-- The actions leave the class and the scope of the subroutine alone. -/
def AllInner (actions : List Action) : Prop := ∀ a ∈ actions, a.isInner = true

namespace Generator

/-- The generator when more labels have been handed out before. -/
def raise (k : Nat) (g : Generator) : Generator :=
  { g with labels := g.labels + k, branches := g.branches.map (· + k) }

/-- What carrying out an action leads to, with higher numbers on the labels. -/
def raiseStep (className : String) (k : Nat) (r : Generator × List Event) :
    Generator × List Event :=
  (r.1.raise k, r.2.map (Event.raise className k))

variable {g g' : Generator} {k : Nat}

/-- Emitting raised code is raising what is emitted. -/
theorem map_raise_emitAll (className : String) (k : Nat) (code : List Instruction) :
    (emitAll code).map (Event.raise className k) =
      emitAll (code.map (Instruction.raise className k)) := by
  rw [emitAll, emitAll, List.map_map, List.map_map]
  rfl

/-- Straight code has no labels. -/
theorem emitAll_raise {code : List Instruction} (h : Straight code) (className : String) (k : Nat) :
    (emitAll code).map (Event.raise className k) = emitAll code := by
  have hcode : code.map (Instruction.raise className k) = code.map id :=
    List.map_congr_left fun i hi => i.raise_of_isStraight (h i hi) className k
  rw [map_raise_emitAll, hcode, List.map_id]

/-- With a higher count of labels a branch emits the same code raised. -/
theorem onBranch_raise (g : Generator) (k : Nat) {code : String → String → List Instruction}
    (h : ∀ first second, (code first second).map (Instruction.raise g.className k) =
      code (raiseLabel g.className k first) (raiseLabel g.className k second)) :
    (g.raise k).onBranch code = (g.onBranch code).map (Event.raise g.className k) := by
  have hlabel : ∀ n, (g.raise k).label (n + k) = raiseLabel g.className k (g.label n) :=
    fun n => (raiseLabel_labelText g.className k n).symm
  unfold onBranch
  rw [show (g.raise k).branches = g.branches.map (· + k) from rfl]
  cases g.branches with
  | nil => rfl
  | cons n branches =>
    simp only [List.map_cons]
    rw [map_raise_emitAll, h, ← hlabel, ← hlabel, Nat.add_right_comm]

/-- With more labels handed out before, an action does the same and its labels have higher
numbers. -/
theorem step_raise (g : Generator) (k : Nat) {a : Action} (ha : a.isLocal = true) :
    (g.raise k).step a = (g.step a).map (raiseStep g.className k) := by
  have hstraight : ∀ {code : List Instruction}, Straight code →
      (.ok (g.raise k, emitAll code) : Except Error (Generator × List Event)) =
        Except.map (raiseStep g.className k) (.ok (g, emitAll code)) := by
    intro code hcode
    rw [Except.map, raiseStep, emitAll_raise hcode]
  cases a with
  | nameClass name => cases ha
  | declare kind type name pos =>
    cases kind with
    | static | field => cases ha
    | argument | «local» =>
      simp only [step, declare]
      rw [show (g.raise k).subScope = g.subScope from rfl]
      split <;> rfl
  | use name pos =>
    simp only [step]
    rw [show (g.raise k).find? name = g.find? name from rfl]
    split <;> rfl
  | checkInteger value pos =>
    simp only [step]
    split <;> rfl
  | checkString content pos =>
    simp only [step]
    split <;> rfl
  | openBody =>
    have hprologue := emitAll_raise g.straight_prologue g.className k
    simp only [step, Except.map, raiseStep, List.map_cons, emitAll] at hprologue ⊢
    rw [hprologue]
    rfl
  | load name | receive name => exact hstraight (g.straight_find? name _ fun _ => rfl)
  | store name => exact hstraight (g.straight_find? name _ fun _ => rfl)
  | index name =>
    exact hstraight (List.forall_mem_append.mpr
      ⟨g.straight_find? name _ fun _ => rfl, List.forall_mem_singleton.mpr rfl⟩)
  | loadString content => exact hstraight (straight_stringCode content)
  | applyUnary op => cases op <;> rfl
  | applyBinary op => cases op <;> rfl
  | receiveThis =>
    simp only [step]
    rw [show (g.raise k).subKind = g.subKind from rfl]
    split <;> rfl
  | markFirst | leaveUnless | turnBack =>
    simp only [step]
    rw [onBranch_raise g k fun _ _ => rfl]
    rfl
  | openBranch =>
    simp only [step, Except.map, raiseStep, raise, List.map_cons, Nat.add_right_comm]
    rfl
  | closeBranch =>
    simp only [step, Except.map, raiseStep, raise, List.map_tail]
    rfl
  | _ => rfl

/-- An action that leaves the class alone. -/
theorem class_of_step {a : Action} {new : List Event} (ha : a.isLocal = true)
    (h : g.step a = .ok (g', new)) :
    g'.className = g.className ∧ g'.classScope = g.classScope := by
  cases a with
  | nameClass name => cases ha
  | declare kind type name pos =>
    cases kind with
    | static | field => cases ha
    | argument | «local» =>
      simp only [step, declare] at h
      split at h <;> cases h
      exact ⟨rfl, rfl⟩
  | use name pos | checkInteger value pos | checkString content pos =>
    simp only [step] at h
    split at h <;> cases h
    exact ⟨rfl, rfl⟩
  | _ =>
    cases h
    exact ⟨rfl, rfl⟩

/-- With more labels handed out before, actions do the same and the labels have higher numbers. -/
theorem run_raise {actions : List Action} (h : AllLocal actions) (g : Generator)
    (k : Nat) : (g.raise k).run [] actions =
      ((g.run [] actions).1.map (Event.raise g.className k),
        (g.run [] actions).2.map (raise k)) := by
  induction actions generalizing g with
  | nil => rfl
  | cons a actions ih =>
    obtain ⟨ha, hactions⟩ := List.forall_mem_cons.mp h
    have hstep := g.step_raise k ha
    rcases hg : g.step a with e | ⟨g', new⟩
    · rw [hg] at hstep
      rw [run_cons_of_error hstep, run_cons_of_error hg]
      rfl
    · rw [hg] at hstep
      rw [run_cons_of_ok hstep, run_cons_of_ok hg, ih hactions g', (class_of_step ha hg).1]
      simp only [List.map_append]

/-- With a higher count of labels actions inside a subroutine emit the same code raised, and end in
the raised state. -/
theorem carries_raise {actions : List Action} (h : AllLocal actions)
    {code : List Instruction} : Carries (g.raise k) actions code g' ↔
      ∃ g₁ code₁, Carries g actions code₁ g₁ ∧ g' = g₁.raise k ∧
        code = code₁.map (Instruction.raise g.className k) := by
  rw [Carries, run_raise h]
  constructor
  · rintro ⟨events, hrun, rfl⟩
    rcases hg : g.run [] actions with ⟨events₁, e | g₁⟩
    · rw [hg] at hrun
      cases hrun
    · rw [hg] at hrun
      cases hrun
      exact ⟨g₁, _, ⟨events₁, hg, rfl⟩, rfl, Event.instructions_map_raise _ _ _⟩
  · rintro ⟨g₁, code₁, ⟨events₁, hg, rfl⟩, rfl, rfl⟩
    rw [hg]
    exact ⟨_, rfl, Event.instructions_map_raise _ _ _⟩

/-- Inside a subroutine the name and the variables of the class stay. -/
theorem class_of_carries {actions : List Action} (h : AllLocal actions)
    {code : List Instruction} (hg : Carries g actions code g') :
    g'.className = g.className ∧ g'.classScope = g.classScope := by
  induction actions generalizing g code with
  | nil =>
    obtain ⟨-, rfl⟩ := carries_nil.mp hg
    exact ⟨rfl, rfl⟩
  | cons a actions ih =>
    obtain ⟨ha, hactions⟩ := List.forall_mem_cons.mp h
    rcases hstep : g.step a with e | ⟨g₁, new⟩
    · exact absurd hg (not_carries_cons_of_error hstep)
    · obtain ⟨back, -, hback⟩ := (carries_cons_of_ok hstep).mp hg
      obtain ⟨hname, hscope⟩ := ih hactions hback
      obtain ⟨hname₁, hscope₁⟩ := class_of_step ha hstep
      exact ⟨hname.trans hname₁, hscope.trans hscope₁⟩

/-- Carrying out actions does to the labels what the labelling says. -/
theorem labelling_of_carries {actions : List Action} {code : List Instruction}
    (hg : Carries g actions code g') : (g.labelling.run actions).1 = g'.labelling := by
  induction actions generalizing g code with
  | nil =>
    obtain ⟨-, rfl⟩ := carries_nil.mp hg
    rfl
  | cons a actions ih =>
    rcases hstep : g.step a with e | ⟨g₁, new⟩
    · exact absurd hg (not_carries_cons_of_error hstep)
    · obtain ⟨back, -, hback⟩ := (carries_cons_of_ok hstep).mp hg
      rw [Labelling.run, labelling_step hstep]
      exact ih hback

/-! ## Between subroutines -/

/-- The generator without what it remembers of a subroutine. -/
def forget (g : Generator) : Generator :=
  { className := g.className, classScope := g.classScope, labels := g.labels,
    branches := g.branches }

end Generator

namespace Tree

open JackStack.Generator

/-- A subroutine begins with a new scope, kind and name, whatever was remembered. -/
theorem Subroutine.run_forget (s : Subroutine) (g : Generator) :
    g.forget.run [] s.actions = g.run [] s.actions := by
  rfl

/-- Subroutines get the same code, whatever was remembered of the one before. -/
theorem carries_forget {subs : List Subroutine} {g : Generator} {code : List Instruction} :
    (∃ g', Carries g.forget (subs.flatMap Subroutine.actions) code g') ↔
      ∃ g', Carries g (subs.flatMap Subroutine.actions) code g' := by
  cases subs with
  | nil => simp [carries_nil]
  | cons s subs => 
    simp only [List.flatMap_cons, Carries, run_append, Subroutine.run_forget]

/-- The actions of statements leave the class and the scope of the subroutine alone. -/
theorem Item.isInner_of_inStatement {i : Item} (h : i.inStatement = true ∨ i.isConstant = true)
    {a : Action} (ha : i.action? = some a) : a.isInner = true := by
  cases i with
  | token t => cases ha
  | marked m =>
    cases m with
    | declared => exact absurd h nofun
    | _ =>
      cases ha
      rfl
  | report b =>
    cases ha
    cases a with
    | nameClass | declare | openSub => exact absurd h nofun
    | _ => rfl

/-- Statements leave the class and the scope of the subroutine alone. -/
theorem block_allInner (b : List Statement) : AllInner (blockActions b) := by
  intro a ha
  rw [← (blockScript_sound b).2] at ha
  obtain ⟨i, haction, hpart⟩ := (block_made b).mem_actionsOf ha
  exact i.isInner_of_inStatement hpart haction

/-- Subroutines leave the class alone. -/
theorem subroutines_allLocal (subs : List Subroutine) :
    AllLocal (subs.flatMap Subroutine.actions) := by
  intro a ha
  obtain ⟨s, -, ha⟩ := List.mem_flatMap.mp ha
  rw [Subroutine.actions_eq] at ha
  simp only [List.mem_cons, List.mem_append, List.mem_map] at ha
  rcases ha with rfl | rfl | ⟨d, hd, rfl⟩ | rfl | ha
  · rfl
  · rfl
  · exact s.ownKind_declarations d hd
  · rfl
  · exact Action.isLocal_of_isInner (block_allInner s.body a ha)

/-- Subroutines take two labels for each branch in them. -/
theorem labelling_subroutines (subs : List Subroutine) (l : Labelling) :
    (l.run (subs.flatMap Subroutine.actions)).1 =
      { l with labels := l.labels + 2 * subroutineBranches subs } := by
  induction subs generalizing l with
  | nil => rfl
  | cons s subs ih =>
    obtain ⟨body, hrun, -⟩ := s.run_actions l
    rw [List.flatMap_cons, Labelling.run_append, hrun, ih, subroutineBranches, Nat.mul_add,
      Nat.add_assoc]

/-- Where subroutines have been carried out, nothing is left of them but the labels they took. -/
theorem forget_of_carries {subs : List Subroutine} {g g' : Generator} {code : List Instruction}
    (h : Carries g (subs.flatMap Subroutine.actions) code g') (hg : g.branches = []) :
    g'.forget = g.forget.raise (2 * subroutineBranches subs) := by
  obtain ⟨hname, hscope⟩ := class_of_carries (subroutines_allLocal subs) h
  have hlabelling := labelling_of_carries h
  rw [labelling_subroutines] at hlabelling
  have hlabels := congrArg Labelling.labels hlabelling
  have hbranches := congrArg Labelling.branches hlabelling
  simp only [labelling, hg] at hlabels hbranches
  simp only [forget, raise, hname, hscope, hg, ← hlabels, ← hbranches, List.map_nil]

/-- Behind other subroutines the code is the one at the beginning of the class, with numbers behind
those of the other subroutines. -/
theorem Class.carries_behind {c : Class} {front back : List Subroutine} {g : Generator}
    {code code' : List Instruction}
    (h : Carries c.declared (front.flatMap Subroutine.actions) code g) :
    (∃ g', Carries g (back.flatMap Subroutine.actions) code' g') ↔
      ∃ g' code₁, Carries c.declared (back.flatMap Subroutine.actions) code₁ g' ∧
        code' = code₁.map (Instruction.raise c.name (2 * subroutineBranches front)) := by
  rw [← carries_forget, forget_of_carries h rfl]
  simp only [carries_raise (subroutines_allLocal back)]
  constructor
  · rintro ⟨_, g', code₁, hcode₁, rfl, rfl⟩
    exact ⟨g', code₁, hcode₁, rfl⟩
  · rintro ⟨g', code₁, hcode₁, rfl⟩
    exact ⟨_, g', code₁, hcode₁, rfl, rfl⟩

/-- A class with more subroutines is carried out exactly when it is with the first ones and with the
others, and the labels of the others have numbers behind those of the first. -/
theorem emits_append {name : String} {groups : List ClassGroup} {front back : List Subroutine}
    {code : List Instruction} : (Class.mk name groups (front ++ back)).Emits code ↔
      ∃ code₁ code₂, (Class.mk name groups front).Emits code₁ ∧
        (Class.mk name groups back).Emits code₂ ∧
        code = code₁ ++ code₂.map (Instruction.raise name (2 * subroutineBranches front)) := by
  simp only [Class.emits_iff, List.flatMap_append, carries_append]
  constructor
  · rintro ⟨hnodup, g', g, code₁, _, hfront, hback, rfl⟩
    obtain ⟨g₂, code₂, hcode₂, rfl⟩ := (Class.carries_behind hfront).mp ⟨g', hback⟩
    exact ⟨code₁, code₂, ⟨hnodup, g, hfront⟩, ⟨hnodup, g₂, hcode₂⟩, rfl⟩
  · rintro ⟨code₁, code₂, ⟨hnodup, g, hfront⟩, ⟨-, g₂, hcode₂⟩, rfl⟩
    obtain ⟨g', hback⟩ := (Class.carries_behind hfront).mpr ⟨g₂, code₂, hcode₂, rfl⟩
    exact ⟨hnodup, g', g, code₁, _, hfront, hback, rfl⟩

end Tree

end JackStack
