import JackStack.Proofs.Code.Depth
import JackStack.Proofs.Code.Labels

/-!
# Outlines of code

The outline of code holds its labels and jumps and the lines where functions begin, and nothing
else. It does not depend on the variables and constants of a class, so it is known of every sequence
of actions, whether they can be carried out or not: `Labelling` hands out labels as the generator
does, and what the generator emits has the outline that the labelling says, or a beginning of it
where an action fails.
-/

namespace JackStack

/-! ## Outlines -/

namespace Instruction

/-- The instruction without what is of no consequence for jumps. -/
def outline? : Instruction → Option Instruction
  | label name => some (label name)
  | goto name => some (goto name)
  | ifGoto name => some (ifGoto name)
  | function _ _ => some (function "" 0)
  | _ => none

/-- The name of the label that an instruction may jump to. -/
def jumpName? : Instruction → Option String
  | goto name | ifGoto name => some name
  | _ => none

/-- The instruction always jumps. -/
def isGoto : Instruction → Bool
  | goto _ => true
  | _ => false

/-- The instruction jumps by a condition. -/
def isIfGoto : Instruction → Bool
  | ifGoto _ => true
  | _ => false

/-- Straight instructions are no part of the outline. -/
theorem outline?_of_isStraight {i : Instruction} (h : i.isStraight = true) : i.outline? = none := by
  cases i <;> first | rfl | cases h

end Instruction

/-- The labels, jumps and first lines of functions in code. -/
def outline (code : List Instruction) : List Instruction := code.filterMap Instruction.outline?

/-- The names of the labels that code may jump to, in order. -/
def jumpNames (code : List Instruction) : List String := code.filterMap Instruction.jumpName?

@[simp] theorem outline_append (front back : List Instruction) :
    outline (front ++ back) = outline front ++ outline back := List.filterMap_append

@[simp] theorem jumpNames_append (front back : List Instruction) :
    jumpNames (front ++ back) = jumpNames front ++ jumpNames back := List.filterMap_append

@[simp] theorem jumpNames_nil : jumpNames [] = [] := rfl

@[simp] theorem jumpNames_goto (name : String) (code : List Instruction) :
    jumpNames (.goto name :: code) = name :: jumpNames code := rfl

@[simp] theorem jumpNames_ifGoto (name : String) (code : List Instruction) :
    jumpNames (.ifGoto name :: code) = name :: jumpNames code := rfl

/-- An instruction that does not jump adds no jump. -/
theorem jumpNames_cons {i : Instruction} (h : i.jumpName? = none) (code : List Instruction) :
    jumpNames (i :: code) = jumpNames code :=
  List.filterMap_cons_none h

@[simp] theorem jumpNames_label (name : String) (code : List Instruction) :
    jumpNames (.label name :: code) = jumpNames code := jumpNames_cons rfl code

/-- Nothing is left of straight code in the outline. -/
theorem Straight.outline_eq_nil {code : List Instruction} (h : Straight code) : outline code = [] :=
  List.filterMap_eq_nil_iff.mpr fun i hi => i.outline?_of_isStraight (h i hi)

/-- The outline keeps the labels. -/
theorem labelNames_outline (code : List Instruction) :
    labelNames (outline code) = labelNames code := by
  rw [labelNames, outline, List.filterMap_filterMap]
  refine List.filterMap_congr fun i _ => ?_
  cases i <;> rfl

/-- The outline keeps the jumps. -/
theorem jumpNames_outline (code : List Instruction) :
    jumpNames (outline code) = jumpNames code := by
  rw [jumpNames, outline, List.filterMap_filterMap]
  refine List.filterMap_congr fun i _ => ?_
  cases i <;> rfl

/-- What is told from the outline alone is counted alike. -/
theorem countP_outline {test : Instruction → Bool}
    (h : ∀ i, test i = (i.outline?.any test)) (code : List Instruction) :
    (outline code).countP test = code.countP test := by
  induction code with
  | nil => rfl
  | cons i code ih =>
    have hi := h i
    cases ho : i.outline? with
    | none =>
      rw [ho] at hi
      rw [outline, List.filterMap_cons_none ho, List.countP_cons_of_neg (by rw [hi]; exact nofun)]
      exact ih
    | some j =>
      rw [ho] at hi
      rw [outline, List.filterMap_cons_some ho, List.countP_cons, List.countP_cons, hi]
      exact congrArg (· + _) ih

/-- The outline keeps where functions begin. -/
theorem takeWhile_outline (code : List Instruction) :
    (outline code).takeWhile (! ·.isFunction) = outline (code.takeWhile (! ·.isFunction)) := by
  induction code with
  | nil => rfl
  | cons i code ih =>
    cases i with
    | label name => exact congrArg (Instruction.label name :: ·) ih
    | goto name => exact congrArg (Instruction.goto name :: ·) ih
    | ifGoto name => exact congrArg (Instruction.ifGoto name :: ·) ih
    | function name locals => rfl
    | _ => exact ih

/-- The functions of an outline are the outlines of the functions. -/
theorem functions_outline (code : List Instruction) :
    functions (outline code) = (functions code).map outline := by
  induction code with
  | nil => rfl
  | cons i code ih =>
    cases i with
    | function name locals =>
      have hfirst : ∀ name locals, (Instruction.function name locals).isFunction = true :=
        fun _ _ => rfl
      change functions (.function "" 0 :: outline code) = _
      rw [functions, functions, if_pos (hfirst _ _), if_pos (hfirst _ _), ih, takeWhile_outline]
      rfl
    | _ => exact ih

/-! ## Labels -/

/-- The label of a class with a number. -/
def labelText (className : String) (n : Nat) : String := className ++ "_" ++ toString n

/-- A number is written without an underscore, so the last one of a label parts its name from its
number. -/
theorem underscore_notMem_digits (n : Nat) : '_' ∉ (toString n).toList := by
  intro h
  have hdigit : '_'.isDigit = true :=
    Nat.isDigit_of_mem_toDigits (by omega) (Nat.le_refl 10) (Nat.toList_repr ▸ h)
  exact absurd hdigit (by decide)

/-- Texts that end with an underscore and characters other than underscores have the same beginning
if they are the same. -/
theorem front_eq_of_last_underscore {front front' back back' : List Char} (hback : '_' ∉ back)
    (hback' : '_' ∉ back') (h : front ++ '_' :: back = front' ++ '_' :: back') :
    front = front' := by
  have hnil : ∀ {between back back' : List Char}, '_' ∉ back →
      '_' :: back = between ++ '_' :: back' → between = [] := by
    intro between back back' hback h
    cases between with
    | nil => rfl
    | cons c between =>
      rw [(List.cons.inj h).2] at hback
      exact absurd (List.mem_append_right _ List.mem_cons_self) hback
  rcases List.append_eq_append_iff.mp h with ⟨between, hfront, hrest⟩ | ⟨between, hfront, hrest⟩
  · rw [hfront, hnil hback hrest, List.append_nil]
  · rw [hfront, hnil hback' hrest, List.append_nil]

/-- Labels are the same only for the same class and the same number, also where the name of a class
ends with an underscore and digits. -/
theorem labelText_inj {c d : String} {m n : Nat} :
    labelText c m = labelText d n ↔ c = d ∧ m = n := by
  constructor
  · intro h
    have hlists :
        c.toList ++ '_' :: (toString m).toList = d.toList ++ '_' :: (toString n).toList := by
      simpa [labelText, String.toList_append] using congrArg String.toList h
    have hname : c = d := by
      apply String.toList_injective
      exact front_eq_of_last_underscore (underscore_notMem_digits m) (underscore_notMem_digits n)
        hlists
    subst hname
    exact ⟨rfl, (⟨c, [], .function, []⟩ : Tree.Context).label_injective h⟩
  · rintro ⟨rfl, rfl⟩
    rfl

/-! ## Handing out labels -/

/-- What the labels of the code to come depend on. -/
structure Labelling where
  /-- The name of the class. -/
  className : String := ""
  /-- The number of labels handed out. -/
  labels : Nat := 0
  /-- The number of the first label of each open branch, innermost first. -/
  branches : List Nat := []

/-- The labelling of a generator. -/
def Generator.labelling (g : Generator) : Labelling := ⟨g.className, g.labels, g.branches⟩

namespace Labelling

/-- The outline of code about the innermost open branch, given the labels of its pair. -/
def onBranch (l : Labelling) (code : String → String → List Instruction) : List Instruction :=
  match l.branches with
  | [] => []
  | n :: _ => code (labelText l.className n) (labelText l.className (n + 1))

/-- What an action does to the labels, and the outline of its code. -/
def step (l : Labelling) : Action → Labelling × List Instruction
  | .nameClass name => ({ l with className := name }, [])
  | .openBody => (l, [.function "" 0])
  | .openBranch => ({ l with labels := l.labels + 2, branches := l.labels :: l.branches }, [])
  | .markFirst => (l, l.onBranch fun first _ => [.label first])
  | .leaveUnless => (l, l.onBranch fun _ second => [.ifGoto second])
  | .turnBack => (l, l.onBranch fun first second => [.goto first, .label second])
  | .closeBranch => ({ l with branches := l.branches.tail }, [])
  | _ => (l, [])

/-- What actions do to the labels, and the outline of their code. -/
def run (l : Labelling) : List Action → Labelling × List Instruction
  | [] => (l, [])
  | a :: rest => (((l.step a).1.run rest).1, (l.step a).2 ++ ((l.step a).1.run rest).2)

/-- Two pieces of actions are labelled one after the other. -/
theorem run_append (l : Labelling) (front back : List Action) :
    l.run (front ++ back) =
      (((l.run front).1.run back).1, (l.run front).2 ++ ((l.run front).1.run back).2) := by
  induction front generalizing l with
  | nil => rfl
  | cons a front ih => simp only [List.cons_append, run, ih, List.append_assoc]

/-- Places make no difference to labels. -/
theorem step_withPos (l : Labelling) (a : Action) (p : Position) :
    l.step (a.withPos p) = l.step a := by
  cases a <;> rfl

/-- Neither the places of the actions nor the lexemes drawn between them matter for labels. -/
theorem run_unplaced (l : Labelling) (actions : List Action) :
    l.run (Action.unplaced actions) = l.run actions := by
  induction actions generalizing l with
  | nil => rfl
  | cons a actions ih =>
    cases ha : a.isScan with
    | true =>
      obtain ⟨lx, rfl⟩ : ∃ lx, a = .scan lx := by
        cases a <;> first | exact ⟨_, rfl⟩ | cases ha
      exact ih l
    | false =>
      have hcons :
          Action.unplaced (a :: actions) = a.withPos .start :: Action.unplaced actions := by
        simp [Action.unplaced, Action.withoutScans, ha]
      simp only [hcons, run, step_withPos, ih]

end Labelling

/-! ## The outline of what is emitted -/

namespace Generator

/-- Whatever stands for a name that may be unknown is straight. -/
theorem straight_find? (g : Generator) (name : String) (f : Variable → Instruction)
    (hf : ∀ v, (f v).isStraight = true) : Straight ((g.find? name).toList.map f) := by
  exact List.forall_mem_map.mpr fun v _ => hf v

/-- The code of a string is straight. -/
theorem straight_stringCode (content : String) : Straight (stringCode content) := by
  simp only [Straight, stringCode, List.forall_mem_cons, List.forall_mem_flatMap]
  exact ⟨rfl, rfl, fun c _ => ⟨rfl, rfl, List.forall_mem_nil _⟩⟩

/-- What stands in front of the statements of a subroutine is straight. -/
theorem straight_prologue (g : Generator) : Straight g.prologue := by
  unfold prologue
  cases g.subKind with
  | function => exact List.forall_mem_nil _
  | method => simp [Straight, Instruction.isStraight]
  | constructor => simp [Straight, Instruction.isStraight]

/-- The outline of what a branch emits is what its labelling says. -/
theorem outline_onBranch (g : Generator) (code : String → String → List Instruction) :
    outline (Event.instructions (g.onBranch code)) =
      g.labelling.onBranch fun first second => outline (code first second) := by
  obtain ⟨className, -, -, -, -, labels, branches⟩ := g
  cases branches with
  | nil => rfl
  | cons n branches =>
    simp only [onBranch, Labelling.onBranch, labelling, instructions_emitAll]
    rfl

/-- A declaration has nothing to do with labels. -/
theorem labelling_declare {g g' : Generator} {kind : VarKind} {type name : String} {pos : Position}
    (h : g.declare kind type name pos = .ok g') : g'.labelling = g.labelling := by
  unfold declare at h
  cases kind <;> dsimp only at h <;> split at h <;> cases h <;> rfl

/-- An action that is carried out does to the labels what the labelling says. -/
theorem labelling_step {g g' : Generator} {a : Action} {new : List Event}
    (h : g.step a = .ok (g', new)) :
    g.labelling.step a = (g'.labelling, outline (Event.instructions new)) := by
  have hquiet : ∀ code, Straight code → outline (Event.instructions (emitAll code)) = [] := by
    intro code hcode
    rw [instructions_emitAll, hcode.outline_eq_nil]
  cases a with
  | declare kind type name pos =>
    rw [step] at h
    cases hdeclare : g.declare kind type name pos with
    | error e =>
      rw [hdeclare] at h
      cases h
    | ok g₁ =>
      rw [hdeclare] at h
      cases h
      exact Prod.ext (labelling_declare hdeclare).symm rfl
  | use name pos =>
    rw [step] at h
    split at h <;> cases h
    rfl
  | checkInteger value pos =>
    rw [step] at h
    split at h <;> cases h
    rfl
  | checkString content pos =>
    rw [step] at h
    split at h <;> cases h
    rfl
  | openBody =>
    cases h
    have hprologue := hquiet _ g.straight_prologue
    exact Prod.ext rfl (congrArg (Instruction.function "" 0 :: ·) hprologue.symm)
  | load name | receive name =>
    cases h
    exact Prod.ext rfl (hquiet _ (g.straight_find? name _ fun _ => rfl)).symm
  | store name =>
    cases h
    exact Prod.ext rfl (hquiet _ (g.straight_find? name _ fun _ => rfl)).symm
  | index name =>
    cases h
    have hcode : Straight ((g.find? name).toList.map Variable.push ++ [.arithmetic .add]) :=
      List.forall_mem_append.mpr
        ⟨g.straight_find? name _ fun _ => rfl, List.forall_mem_singleton.mpr rfl⟩
    exact Prod.ext rfl (hquiet _ hcode).symm
  | loadString content =>
    cases h
    exact Prod.ext rfl (hquiet _ (straight_stringCode content)).symm
  | applyUnary op => cases h; cases op <;> rfl
  | applyBinary op => cases h; cases op <;> rfl
  | receiveThis =>
    cases h
    refine Prod.ext rfl (hquiet _ ?_).symm
    split
    · exact List.forall_mem_nil _
    · exact List.forall_mem_singleton.mpr rfl
  | markFirst | leaveUnless | turnBack =>
    cases h
    rw [outline_onBranch]
    rfl
  | _ => cases h; rfl

/-- What is emitted has the outline that the labelling says, or a beginning of it where an action
fails. -/
theorem outline_run (g : Generator) (actions : List Action) :
    outline (Event.instructions (g.run [] actions).1) <+: (g.labelling.run actions).2 ∧
      ∀ g', (g.run [] actions).2 = .ok g' →
        outline (Event.instructions (g.run [] actions).1) = (g.labelling.run actions).2 := by
  induction actions generalizing g with
  | nil => exact ⟨List.prefix_refl [], fun _ _ => rfl⟩
  | cons a actions ih =>
    rcases h : g.step a with e | ⟨g', new⟩
    · rw [run_cons_of_error h]
      exact ⟨List.nil_prefix, nofun⟩
    · obtain ⟨hbegins, hequal⟩ := ih g'
      rw [run_cons_of_ok h, Event.instructions_append, outline_append, Labelling.run,
        labelling_step h]
      refine ⟨(List.prefix_append_right_inj _).mpr hbegins, ?_⟩
      intro g'' hg''
      exact congrArg (_ ++ ·) (hequal g'' hg'')

end Generator

end JackStack
