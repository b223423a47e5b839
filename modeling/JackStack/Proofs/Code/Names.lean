import JackStack.Proofs.Code.Declaring
import JackStack.Proofs.Grammar.Names

/-!
# The names in the code

Names get into the code in five instructions. Where the grammar reports names of letters, digits
and underscores, the names in what is emitted for them have these characters and dots, and are not
empty.
-/

namespace JackStack

/-- A letter, a digit, the underscore or the dot. -/
def isCodeChar (c : Char) : Bool := isNameChar c || c = '.'

/-- A name in the code. -/
structure CodeName (s : String) : Prop where
  ne_empty : s ≠ ""
  chars : ∀ c ∈ s.toList, isCodeChar c

/-- The name in an instruction, if there is one, is a name in the code. -/
def Instruction.Spelled : Instruction → Prop
  | label name | goto name | ifGoto name | call name _ | function name _ => CodeName name
  | _ => True

/-- A text of letters, digits and underscores. -/
def Wordy (s : String) : Prop := ∀ c ∈ s.toList, isNameChar c

/-- The characters of names may stand in code. -/
theorem isCodeChar_of_isNameChar {c : Char} (h : isNameChar c) : isCodeChar c := by
  rw [isCodeChar, h]
  rfl

/-- Numbers are written with digits. -/
theorem isDigit_of_mem_repr {n : Nat} {c : Char} (h : c ∈ n.repr.toList) : c.isDigit := by
  rw [Nat.toList_repr] at h
  exact Nat.isDigit_of_mem_toDigits (by omega) (Nat.le_refl 10) h

namespace CodeName

/-- Texts around a character that is none of theirs make a name. -/
theorem join {front back : String} (mark : Char) (hmark : isCodeChar mark)
    (hfront : ∀ c ∈ front.toList, isCodeChar c) (hback : ∀ c ∈ back.toList, isCodeChar c) :
    CodeName (front ++ String.singleton mark ++ back) := by
  have hlist : (front ++ String.singleton mark ++ back).toList =
      front.toList ++ mark :: back.toList := by simp [String.toList_append]
  constructor
  · intro hempty
    rw [hempty] at hlist
    exact List.append_ne_nil_of_right_ne_nil _ (List.cons_ne_nil _ _) hlist.symm
  · rw [hlist]
    exact List.forall_mem_append.mpr ⟨hfront, List.forall_mem_cons.mpr ⟨hmark, hback⟩⟩

/-- The names of sources are names in code. -/
theorem of_isName {s : String} (h : IsName s) : CodeName s :=
  ⟨h.ne_empty, fun c hc => isCodeChar_of_isNameChar (h.chars c hc)⟩

/-- The name of a subroutine behind that of its class. -/
theorem dotted {owner name : String} (howner : Wordy owner) (hname : Wordy name) :
    CodeName (owner ++ "." ++ name) :=
  join '.' rfl (fun c hc => isCodeChar_of_isNameChar (howner c hc))
    fun c hc => isCodeChar_of_isNameChar (hname c hc)

/-- A label. -/
theorem numbered {name : String} (hname : Wordy name) (n : Nat) :
    CodeName (name ++ "_" ++ toString n) := by
  refine join '_' rfl (fun c hc => isCodeChar_of_isNameChar (hname c hc)) ?_
  intro c hc
  have hdigit : c.isDigit = true := isDigit_of_mem_repr hc
  simp [isCodeChar, isNameChar, Char.isAlphanum, hdigit]

end CodeName

namespace Generator

/-- What the generator can put into a name is made of letters, digits and underscores. -/
structure Named (g : Generator) : Prop where
  className : Wordy g.className
  subName : Wordy g.subName
  classTypes : ∀ v ∈ g.classScope.members, Wordy v.type
  subTypes : ∀ v ∈ g.subScope.members, Wordy v.type

/-- At the beginning the generator holds no names. -/
theorem named_start : ({} : Generator).Named := ⟨nofun, nofun, nofun, nofun⟩

variable {g g' : Generator} {a : Action} {new : List Event}

/-- The type of a variable that is found is a name or empty. -/
theorem Named.wordy_type (h : g.Named) {name : String} {v : Variable} (hv : g.find? name = some v) :
    Wordy v.type := by
  rcases Option.or_eq_some_iff.mp hv with hsub | ⟨-, hclass⟩
  · exact h.subTypes v (List.mem_of_find?_eq_some (g.subScope.find?_eq name ▸ hsub))
  · exact h.classTypes v (List.mem_of_find?_eq_some (g.classScope.find?_eq name ▸ hclass))

/-- What is called has a name in the code. -/
theorem Named.callee (h : g.Named) {owner : Option String} {name : String} {args : Nat}
    (ha : AllNames (Action.call owner name args).names) : CodeName (g.callee owner name).1 := by
  cases owner with
  | none =>
    have hname := ha.forall_mem name List.mem_cons_self
    rw [Generator.callee]
    split
    · exact .of_isName hname
    · exact .dotted h.className hname.chars
  | some first =>
    obtain ⟨hfirst, hname⟩ := List.forall_mem_cons.mp ha.forall_mem
    have hname := hname name List.mem_cons_self
    rw [Generator.callee]
    cases hfind : g.find? first with
    | some v => exact .dotted (h.wordy_type hfind) hname.chars
    | none => exact .dotted hfirst.chars hname.chars

/-- What holds of the variables so far and of the new one holds of all. -/
theorem members_of_declare? {s s' : Scope} {kind : VarKind} {type name : String} {index : UInt32}
    (h : s.declare? kind type name = some (index, s')) {P : Variable → Prop}
    (hs : ∀ v ∈ s.members, P v) (hnew : P ⟨name, type, kind, index⟩) : ∀ v ∈ s'.members, P v := by
  unfold Scope.declare? at h
  split at h <;> cases h
  rw [Scope.members_push]
  exact List.forall_mem_append.mpr ⟨hs, List.forall_mem_singleton.mpr hnew⟩

/-- An action that names names keeps the generator that way. -/
theorem named_of_step (h : g.Named) (ha : AllNames a.names) (hstep : g.step a = .ok (g', new)) :
    g'.Named := by
  cases a with
  | nameClass name =>
    cases hstep
    exact { h with className := (ha.forall_mem name List.mem_cons_self).chars }
  | nameSub name =>
    cases hstep
    exact { h with subName := (ha.forall_mem name List.mem_cons_self).chars }
  | openSub kind =>
    cases hstep
    refine { h with subTypes := ?_ }
    cases kind with
    | method => exact List.forall_mem_singleton.mpr h.className
    | constructor | function => exact nofun
  | declare kind type name pos =>
    have htype := (ha.forall_mem type List.mem_cons_self).chars
    rw [step_declare] at hstep
    split at hstep
    · next index scope hdeclare =>
      cases hstep
      cases kind with
      | static | field =>
        exact { h with classTypes := members_of_declare? hdeclare h.classTypes htype }
      | _ =>
        exact { h with subTypes := members_of_declare? hdeclare h.subTypes htype }
    · cases hstep
  | use name pos | checkInteger value pos | checkString content pos =>
    rw [step] at hstep
    split at hstep <;> cases hstep
    exact h
  | _ =>
    cases hstep
    exact ⟨h.className, h.subName, h.classTypes, h.subTypes⟩

/-- Whatever stands for a name that may be unknown is spelled in code. -/
theorem spelled_find? (g : Generator) (name : String) {f : Variable → Instruction}
    (hf : ∀ v, (f v).Spelled) : ∀ i ∈ (g.find? name).toList.map f, i.Spelled := by
  intro i hi
  obtain ⟨v, -, rfl⟩ := List.mem_map.mp hi
  exact hf v

/-- The code of a string names library functions only. -/
theorem spelled_stringCode (content : String) : ∀ i ∈ stringCode content, i.Spelled := by
  have hnew : CodeName "String.new" := ⟨by decide, List.all_eq_true.mp (by decide)⟩
  have happend : CodeName "String.appendChar" := ⟨by decide, List.all_eq_true.mp (by decide)⟩
  refine List.forall_mem_cons.mpr ⟨trivial, List.forall_mem_cons.mpr ⟨hnew, ?_⟩⟩
  intro i hi
  obtain ⟨c, -, hi⟩ := List.mem_flatMap.mp hi
  rcases List.mem_cons.mp hi with rfl | hi
  · trivial
  · obtain rfl := List.mem_singleton.mp hi
    exact happend

/-- What stands in front of the statements of a subroutine is spelled in code. -/
theorem spelled_prologue (g : Generator) : ∀ i ∈ g.prologue, i.Spelled := by
  have halloc : CodeName "Memory.alloc" := ⟨by decide, List.all_eq_true.mp (by decide)⟩
  unfold prologue
  cases g.subKind <;> simp [Instruction.Spelled, halloc]

/-- What a branch emits is spelled in code, since its labels begin with the name of the class. -/
theorem Named.spelled_onBranch (h : g.Named) {code : String → String → List Instruction}
    (hcode : ∀ {first second}, CodeName first → CodeName second →
      ∀ i ∈ code first second, i.Spelled) :
    ∀ i ∈ Event.instructions (g.onBranch code), i.Spelled := by
  unfold onBranch
  split
  · exact nofun
  · rw [instructions_emitAll]
    exact hcode (.numbered h.className _) (.numbered h.className _)

/-- A binary operation is an instruction or a library function. -/
theorem spelled_instruction (op : BinaryOp) : op.instruction.Spelled := by
  cases op with
  | mul | div => exact ⟨by decide, List.all_eq_true.mp (by decide)⟩
  | _ => trivial

/-- What is emitted for an action that names names has names in the code. -/
theorem spelled_of_step (h : g.Named) (ha : AllNames a.names) (hstep : g.step a = .ok (g', new)) :
    ∀ i ∈ Event.instructions new, i.Spelled := by
  have hall : ∀ {code : List Instruction}, (∀ i ∈ code, i.Spelled) →
      ∀ i ∈ Event.instructions (emitAll code), i.Spelled := by
    intro code hcode
    rwa [instructions_emitAll]
  cases a with
  | openBody =>
    cases hstep
    apply hall
    exact List.forall_mem_cons.mpr ⟨.dotted h.className h.subName, g.spelled_prologue⟩
  | load name | receive name =>
    cases hstep
    exact hall (g.spelled_find? name fun v => trivial)
  | store name =>
    cases hstep
    exact hall (g.spelled_find? name fun v => trivial)
  | index name =>
    cases hstep
    apply hall
    exact List.forall_mem_append.mpr
      ⟨g.spelled_find? name fun v => trivial, List.forall_mem_singleton.mpr trivial⟩
  | loadString content =>
    cases hstep
    exact hall (spelled_stringCode content)
  | applyUnary op =>
    cases hstep
    apply hall
    cases op <;> simp [UnaryOp.instruction, Instruction.Spelled]
  | applyBinary op =>
    cases hstep
    exact hall (List.forall_mem_singleton.mpr (spelled_instruction op))
  | call owner name args =>
    have hcallee := h.callee ha
    cases hstep
    apply hall
    intro i hi
    obtain rfl := List.mem_singleton.mp hi
    exact hcallee
  | markFirst | leaveUnless | turnBack =>
    cases hstep
    apply h.spelled_onBranch
    intro first second hfirst hsecond
    simp [Instruction.Spelled, hfirst, hsecond]
  | receiveThis =>
    cases hstep
    apply hall
    split <;> simp [Instruction.Spelled]
  | declare kind type name pos =>
    rw [step_declare] at hstep
    split at hstep <;> cases hstep
    exact List.forall_mem_nil _
  | use name pos | checkInteger value pos | checkString content pos =>
    rw [step] at hstep
    split at hstep <;> cases hstep
    exact List.forall_mem_nil _
  | loadElement | storeElement | loadInteger | loadTrue | loadZero | loadThis | discard
  | giveBack =>
    cases hstep
    apply hall
    simp [Instruction.Spelled]
  | _ =>
    cases hstep
    exact List.forall_mem_nil _

/-- What is emitted for actions that name names has names in the code. -/
theorem run_spelled {actions : List Action} (ha : ∀ a ∈ actions, AllNames a.names)
    {g : Generator} (h : g.Named) : ∀ i ∈ Event.instructions (g.run [] actions).1, i.Spelled := by
  induction actions generalizing g with
  | nil => exact nofun
  | cons a actions ih =>
    obtain ⟨ha, hactions⟩ := List.forall_mem_cons.mp ha
    rcases hstep : g.step a with e | ⟨g', new⟩
    · rw [run_cons_of_error hstep]
      exact nofun
    · rw [run_cons_of_ok hstep, Event.instructions_append]
      exact List.forall_mem_append.mpr
        ⟨spelled_of_step h ha hstep, ih hactions (named_of_step h ha hstep)⟩

end Generator

end JackStack
