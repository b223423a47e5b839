import JackStack.Proofs.Code.Raising

/-!
# Constants

An integer or string constant is checked directly before its value is wanted, so what is pushed for
it are constants of the stack machine. The only other constant that depends on the source is the
room that a constructor asks for, directly behind its first line: it is the number of fields, and
nothing checks it.
-/

namespace JackStack

/-! ## Small constants -/

/-- A constant that the instruction pushes is not too large. -/
def Instruction.Small : Instruction → Prop
  | push .constant n => n ≤ maxConstant
  | _ => True

/-- Code that pushes no constant that is too large. -/
def AllSmall (code : List Instruction) : Prop := ∀ i ∈ code, i.Small

/-- Code whose constants are not too large, apart from the room that constructors ask for, which
they do only if they may. -/
inductive Modest (room : UInt32) (allocates : Prop) : List Instruction → Prop
  | nil : Modest room allocates []
  | cons {i : Instruction} {code : List Instruction} (small : i.Small)
      (tail : Modest room allocates code) : Modest room allocates (i :: code)
  | allocate {name : String} {locals : UInt32} {code : List Instruction} (allowed : allocates)
      (tail : Modest room allocates code) : Modest room allocates
        (.function name locals :: .push .constant room :: .call "Memory.alloc" 1 :: code)

namespace Modest

variable {room : UInt32} {allocates allocates' : Prop} {front back code : List Instruction}

/-- Small code in front of modest code leaves it modest. -/
theorem append (hfront : AllSmall front) (hback : Modest room allocates back) :
    Modest room allocates (front ++ back) := by
  induction front with
  | nil => exact hback
  | cons i front ih =>
    obtain ⟨hi, hrest⟩ := List.forall_mem_cons.mp hfront
    exact .cons hi (ih hrest)

/-- Code that is modest on a condition is so on a weaker one. -/
theorem mono (h : Modest room allocates code) (himp : allocates → allocates') :
    Modest room allocates' code := by
  induction h with
  | nil => exact .nil
  | cons small _ ih => exact .cons small ih
  | allocate allowed _ ih => exact .allocate (himp allowed) ih

/-- Where constructors ask for little room, all constants are small. -/
theorem allSmall (h : Modest room allocates code) (hroom : allocates → room ≤ maxConstant) :
    AllSmall code := by
  induction h with
  | nil => exact List.forall_mem_nil _
  | cons small _ ih => exact List.forall_mem_cons.mpr ⟨small, ih⟩
  | allocate allowed _ ih =>
    simp only [AllSmall, List.forall_mem_cons]
    exact ⟨trivial, hroom allowed, trivial, ih⟩

/-- A constant that is too large is the room that a constructor asks for. -/
theorem of_split (h : Modest room allocates code) {n : UInt32}
    (hcode : code = front ++ .push .constant n :: back) : n ≤ maxConstant ∨
      n = room ∧ (∃ name locals, front.getLast? = some (.function name locals)) ∧
        back.head? = some (.call "Memory.alloc" 1) := by
  induction h generalizing front with
  | nil => cases front <;> cases hcode
  | cons small tail ih =>
    cases front with
    | nil =>
      cases hcode
      exact .inl small
    | cons i front =>
      cases hcode
      rcases ih rfl with hsmall | ⟨hroom, ⟨name, locals, hlast⟩, hnext⟩
      · exact .inl hsmall
      · refine .inr ⟨hroom, ⟨name, locals, ?_⟩, hnext⟩
        rw [List.getLast?_cons, hlast]
        rfl
  | @allocate name locals code _ tail ih =>
    rcases front with _ | ⟨i, _ | ⟨j, _ | ⟨k, front⟩⟩⟩
    · cases hcode
    · cases hcode
      exact .inr ⟨rfl, ⟨name, locals, rfl⟩, rfl⟩
    · cases hcode
    · cases hcode
      rcases ih rfl with hsmall | ⟨hroom, ⟨name', locals', hlast⟩, hnext⟩
      · exact .inl hsmall
      · refine .inr ⟨hroom, ⟨name', locals', ?_⟩, hnext⟩
        rw [List.getLast?_cons, List.getLast?_cons, List.getLast?_cons, hlast]
        rfl

end Modest

/-! ## Constants are checked -/

namespace Action

/-- The value of a constant of the source is wanted. -/
def isLiteral : Action → Bool
  | loadInteger _ | loadString _ => true
  | _ => false

/-- A field is declared. -/
def isField : Action → Bool
  | declare kind _ _ _ => kind = .field
  | _ => false

/-- The number of fields that actions declare. -/
def fieldCount (actions : List Action) : Nat := actions.countP isField

/-- Places make no difference to the number of fields declared. -/
theorem fieldCount_unplaced (actions : List Action) :
    fieldCount (unplaced actions) = fieldCount actions := by
  have hscan : ∀ a : Action, a.isField = true → (! a.isScan) = true := by
    intro a ha
    cases a <;> first | rfl | cases ha
  have hplace : (fun a : Action => (a.withPos .start).isField) = isField := by
    funext a
    cases a <;> rfl
  rw [fieldCount, unplaced, withoutScans, List.countP_map, List.countP_filter, fieldCount]
  apply List.countP_congr
  intro a _
  have ha := congrFun hplace a
  cases hfield : a.isField with
  | false => simp [ha, hfield]
  | true => simp [ha, hfield, hscan a hfield]

/-- The action emits nothing, whoever carries it out. -/
def isSilent : Action → Bool
  | scan _ | nameClass _ | declare _ _ _ _ | openSub _ | nameSub _ => true
  | _ => false

end Action

/-- Actions in which every constant of the source is checked directly before its value is wanted. -/
inductive Checked : List Action → Prop
  | nil : Checked []
  | cons {a : Action} {actions : List Action} (plain : a.isLiteral = false)
      (tail : Checked actions) : Checked (a :: actions)
  | integer {value : UInt32} {pos : Position} {actions : List Action} (tail : Checked actions) :
      Checked (.checkInteger value pos :: .loadInteger value :: actions)
  | string {content : String} {pos : Position} {actions : List Action} (tail : Checked actions) :
      Checked (.checkString content pos :: .loadString content :: actions)

namespace Checked

variable {a : Action} {front back actions : List Action}

/-- An action that loads no literal has nothing to check. -/
theorem single (ha : a.isLiteral = false) : Checked [a] := .cons ha .nil

/-- The beginning of checked actions is checked, also where it ends behind a check. -/
theorem of_begins (h : Checked actions) (hbegins : front <+: actions) : Checked front := by
  induction h generalizing front with
  | nil =>
    rw [List.prefix_nil.mp hbegins]
    exact .nil
  | cons plain _ ih =>
    cases front with
    | nil => exact .nil
    | cons b front =>
      obtain ⟨rfl, hrest⟩ := List.cons_prefix_cons.mp hbegins
      exact .cons plain (ih hrest)
  | integer _ ih =>
    rcases front with _ | ⟨b, _ | ⟨c, front⟩⟩
    · exact .nil
    · obtain ⟨rfl, -⟩ := List.cons_prefix_cons.mp hbegins
      exact .single rfl
    · obtain ⟨rfl, htail⟩ := List.cons_prefix_cons.mp hbegins
      obtain ⟨rfl, hrest⟩ := List.cons_prefix_cons.mp htail
      exact .integer (ih hrest)
  | string _ ih =>
    rcases front with _ | ⟨b, _ | ⟨c, front⟩⟩
    · exact .nil
    · obtain ⟨rfl, -⟩ := List.cons_prefix_cons.mp hbegins
      exact .single rfl
    · obtain ⟨rfl, htail⟩ := List.cons_prefix_cons.mp hbegins
      obtain ⟨rfl, hrest⟩ := List.cons_prefix_cons.mp htail
      exact .string (ih hrest)

end Checked

namespace Tree

/-- In a script every constant is checked directly before its value is wanted. -/
theorem Made.checked {script : List Item} (h : Made Item.inClass script) :
    Checked (actionsOf script) := by
  induction h with
  | nil => exact .nil
  | @cons i script head _ ih =>
    cases i with
    | token t => exact ih
    | marked m => cases m <;> exact .cons rfl ih
    | report a =>
      cases a with
      | loadInteger | loadString => cases head
      | _ => exact .cons rfl ih
  | integer _ ih => exact .integer ih
  | string _ ih => exact .string ih

/-- In subroutines every constant is checked directly before its value is wanted. -/
theorem subroutines_checked (subs : List Subroutine) :
    Checked (subs.flatMap Subroutine.actions) := by
  have hmade : Made Item.inClass (subs.flatMap Subroutine.script) := .flatMap fun s _ => s.made
  have hactions : actionsOf (subs.flatMap Subroutine.script) = subs.flatMap Subroutine.actions := by
    simp [Subroutine.script_eq]
  exact hactions ▸ hmade.checked

end Tree

/-! ## What is emitted -/

namespace Generator

variable {g g' : Generator} {a : Action} {new : List Event}

/-- The number of fields declared so far. -/
def fields (g : Generator) : Nat := g.classScope.members.countP (·.kind = .field)

/-- The count of fields is their number, in 32 bits. -/
theorem count_field (g : Generator) : g.classScope.count .field = .ofNat g.fields :=
  g.classScope.count_eq .field

/-- Carrying out the actions reaches the body of a constructor. -/
def Constructs (g : Generator) : List Action → Prop
  | [] => False
  | a :: rest => (a = .openBody ∧ g.subKind = .constructor) ∨
    ∃ g' new, g.step a = .ok (g', new) ∧ g'.Constructs rest

/-- Behind any other action a constructor is still to come exactly where it was before. -/
theorem constructs_of_ok (h : g.step a = .ok (g', new)) (ha : a ≠ .openBody)
    (rest : List Action) : g.Constructs (a :: rest) ↔ g'.Constructs rest := by
  constructor
  · rintro (⟨hbody, -⟩ | ⟨g₁, new₁, hstep, hrest⟩)
    · exact absurd hbody ha
    · rw [h] at hstep
      cases hstep
      exact hrest
  · exact fun hrest => .inr ⟨g', new, h, hrest⟩

/-- Behind a failure no constructor comes. -/
theorem not_constructs_of_error {e : Error} (h : g.step a = .error e) (rest : List Action) :
    ¬g.Constructs (a :: rest) := by
  rintro (⟨rfl, -⟩ | ⟨g₁, new₁, hstep, -⟩)
  · cases h
  · rw [h] at hstep
    cases hstep

/-- At the mark of a body it is seen whether the subroutine is a constructor. -/
theorem constructs_openBody (g : Generator) (rest : List Action) :
    g.Constructs (.openBody :: rest) ↔ g.subKind = .constructor ∨ g.Constructs rest := by
  constructor
  · rintro (⟨-, hkind⟩ | ⟨g₁, new₁, hstep, hrest⟩)
    · exact .inl hkind
    · cases hstep
      exact .inr hrest
  · rintro (hkind | hrest)
    · exact .inl ⟨rfl, hkind⟩
    · exact .inr ⟨g, _, rfl, hrest⟩

/-- No body begins in front, so what is reached is reached behind it. -/
theorem constructs_append {front : List Action} (hfront : ∀ a ∈ front, a ≠ .openBody)
    (g : Generator) (back : List Action) :
    g.Constructs (front ++ back) ↔ ∃ g', (g.run [] front).2 = .ok g' ∧ g'.Constructs back := by
  induction front generalizing g with
  | nil => simp
  | cons a front ih =>
    obtain ⟨ha, hfront⟩ := List.forall_mem_cons.mp hfront
    rcases hstep : g.step a with e | ⟨g', new⟩
    · rw [run_cons_of_error hstep]
      refine iff_of_false (not_constructs_of_error hstep _) ?_
      rintro ⟨g', hg', -⟩
      cases hg'
    · rw [List.cons_append, constructs_of_ok hstep ha, ih hfront, run_cons_of_ok hstep]

/-- Places and lexemes drawn do not matter for what is reached. -/
theorem constructs_unplaced (g : Generator) (actions : List Action) :
    g.Constructs (Action.unplaced actions) ↔ g.Constructs actions := by
  induction actions generalizing g with
  | nil => rfl
  | cons a actions ih =>
    cases ha : a.isScan with
    | true =>
      obtain ⟨lx, rfl⟩ : ∃ lx, a = .scan lx := by
        cases a <;> first | exact ⟨_, rfl⟩ | cases ha
      rw [constructs_of_ok (rfl : g.step (.scan lx) = _) (by simp)]
      exact ih g
    | false =>
      have hcons :
          Action.unplaced (a :: actions) = a.withPos .start :: Action.unplaced actions := by
        simp [Action.unplaced, Action.withoutScans, ha]
      have hbody : a.withPos .start = .openBody ↔ a = .openBody := by
        cases a <;> simp [Action.withPos]
      have hsame : ∀ r, g.step (a.withPos .start) = .ok r ↔ g.step a = .ok r := by
        intro r
        obtain h | ⟨e, e', h, h'⟩ := g.step_withPos a .start
        · rw [h]
        · rw [h, h']
          simp
      rw [hcons, Constructs, Constructs, hbody]
      simp only [hsame, ih]

/-- Whatever stands for a name that may be unknown pushes no large constant. -/
theorem small_find? (g : Generator) (name : String) (f : Variable → Instruction)
    (hf : ∀ v, (f v).Small) : AllSmall ((g.find? name).toList.map f) := by
  intro i hi
  obtain ⟨v, -, rfl⟩ := List.mem_map.mp hi
  exact hf v

theorem small_push (v : Variable) : v.push.Small := by
  rw [Variable.push]
  cases v.kind <;> trivial

theorem small_pop (v : Variable) : v.pop.Small := trivial

/-- A string constant that has no fault is built from small constants. -/
theorem small_stringCode {content : String} {pos : Position}
    (h : stringFault content pos = none) : AllSmall (stringCode content) := by
  unfold stringFault at h
  split at h
  · cases h
  · next hchars =>
    have hlength : UInt32.ofNat content.length ≤ maxConstant := by
      by_cases hlong : maxConstant < UInt32.ofNat content.length
      · rw [if_pos hlong] at h
        cases h
      · exact UInt32.not_lt.mp hlong
    simp only [AllSmall, stringCode, List.forall_mem_cons, List.forall_mem_flatMap]
    refine ⟨hlength, trivial, fun c hc => ⟨?_, trivial, List.forall_mem_nil _⟩⟩
    have hchar := List.find?_eq_none.mp hchars c hc
    exact UInt32.not_lt.mp (by simpa using hchar)

/-- Apart from the values of constants and the beginning of a body, an action emits small constants
only. -/
theorem small_of_step (h : g.step a = .ok (g', new)) (ha : a.isLiteral = false)
    (hbody : a ≠ .openBody) : AllSmall (Event.instructions new) := by
  have hsmall : ∀ {code : List Instruction}, AllSmall code →
      AllSmall (Event.instructions (emitAll code)) := by
    intro code hcode
    rwa [instructions_emitAll]
  have hbranch : ∀ code : String → String → List Instruction,
      (∀ first second, AllSmall (code first second)) →
      AllSmall (Event.instructions (g.onBranch code)) := by
    intro code hcode
    unfold onBranch
    split
    · exact List.forall_mem_nil _
    · exact hsmall (hcode _ _)
  cases a with
  | declare kind type name pos =>
    rw [step] at h
    cases hdeclare : g.declare kind type name pos <;> rw [hdeclare] at h <;> cases h
    exact List.forall_mem_nil _
  | use name pos | checkInteger value pos | checkString content pos =>
    rw [step] at h
    split at h <;> cases h
    exact List.forall_mem_nil _
  | loadInteger value | loadString content => cases ha
  | openBody => exact absurd rfl hbody
  | load name | receive name =>
    cases h
    exact hsmall (g.small_find? name _ small_push)
  | store name =>
    cases h
    exact hsmall (g.small_find? name _ small_pop)
  | index name =>
    cases h
    exact hsmall (List.forall_mem_append.mpr
      ⟨g.small_find? name _ small_push, List.forall_mem_singleton.mpr trivial⟩)
  | receiveThis =>
    cases h
    apply hsmall
    split
    · exact List.forall_mem_nil _
    · exact List.forall_mem_singleton.mpr trivial
  | applyUnary op | applyBinary op =>
    cases h
    cases op <;> exact hsmall (List.forall_mem_singleton.mpr trivial)
  | markFirst | leaveUnless | turnBack =>
    cases h
    exact hbranch _ fun _ _ => by simp [AllSmall, Instruction.Small]
  | loadElement | storeElement | loadTrue | loadZero | loadThis | call | discard | giveBack =>
    cases h
    exact hsmall (by simp [AllSmall, Instruction.Small, maxConstant])
  | scan | nameClass | openSub | nameSub | openBranch | closeBranch =>
    cases h
    exact List.forall_mem_nil _

/-- The beginning of a body makes room for the fields, if it is that of a constructor. -/
theorem modest_openBody (g : Generator) {actions : List Action} {code : List Instruction}
    (h : Modest (.ofNat g.fields) (g.Constructs actions) code) :
    Modest (.ofNat g.fields) (g.Constructs (.openBody :: actions))
      (.function (g.className ++ "." ++ g.subName) (g.subScope.count .local) :: g.prologue ++
        code) := by
  have htail := h.mono fun hrest => (g.constructs_openBody actions).mpr (.inr hrest)
  rw [prologue, count_field]
  cases hkind : g.subKind with
  | function => exact .cons trivial htail
  | method => exact .cons trivial (.cons trivial (.cons trivial htail))
  | constructor =>
    exact .allocate ((g.constructs_openBody actions).mpr (.inl hkind)) (.cons trivial htail)

/-- What is emitted behind the declarations of a class has no constant that is too large, apart
from the number of fields, which is emitted for constructors only. -/
theorem run_modest {actions : List Action} (h : Checked actions) (hlocal : AllLocal actions)
    (g : Generator) : Modest (.ofNat g.fields) (g.Constructs actions)
      (Event.instructions (g.run [] actions).1) := by
  induction h generalizing g with
  | nil => exact .nil
  | @cons a actions plain _ ih =>
    obtain ⟨ha, hactions⟩ := List.forall_mem_cons.mp hlocal
    rcases hstep : g.step a with e | ⟨g', new⟩
    · rw [run_cons_of_error hstep]
      exact .nil
    · have hrest := ih hactions g'
      rw [fields, (class_of_step ha hstep).2, ← fields] at hrest
      rw [run_cons_of_ok hstep, Event.instructions_append]
      by_cases hbody : a = .openBody
      · subst hbody
        cases hstep
        have hcode := modest_openBody g hrest
        rw [← instructions_emitAll (_ :: g.prologue)] at hcode
        exact hcode
      · rw [constructs_of_ok hstep hbody]
        exact .append (small_of_step hstep plain hbody) hrest
  | @integer value pos actions _ ih =>
    obtain ⟨-, hlocal⟩ := List.forall_mem_cons.mp hlocal
    obtain ⟨-, hactions⟩ := List.forall_mem_cons.mp hlocal
    by_cases hvalue : maxConstant < value
    · have hstep : g.step (.checkInteger value pos) = .error (.intOutOfRange pos value) :=
        if_pos hvalue
      rw [run_cons_of_error hstep]
      exact .nil
    · have hstep : g.step (.checkInteger value pos) = .ok (g, []) := if_neg hvalue
      have hload : g.step (.loadInteger value) = .ok (g, emitAll [.push .constant value]) := rfl
      rw [run_cons_of_ok hstep, run_cons_of_ok hload, constructs_of_ok hstep (by simp),
        constructs_of_ok hload (by simp)]
      exact .cons (UInt32.not_lt.mp hvalue) (ih hactions g)
  | @string content pos actions _ ih =>
    obtain ⟨-, hlocal⟩ := List.forall_mem_cons.mp hlocal
    obtain ⟨-, hactions⟩ := List.forall_mem_cons.mp hlocal
    cases hfault : stringFault content pos with
    | some e =>
      have hstep : g.step (.checkString content pos) = .error e := by rw [step, hfault]
      rw [run_cons_of_error hstep]
      exact .nil
    | none =>
      have hstep : g.step (.checkString content pos) = .ok (g, []) := by rw [step, hfault]
      have hload : g.step (.loadString content) = .ok (g, emitAll (stringCode content)) := rfl
      rw [run_cons_of_ok hstep, run_cons_of_ok hload, List.nil_append, Event.instructions_append,
        instructions_emitAll, constructs_of_ok hstep (by simp), constructs_of_ok hload (by simp)]
      exact .append (small_stringCode hfault) (ih hactions g)

/-- Where the body of a constructor is reached, the number of fields is pushed. -/
theorem push_fields_of_constructs {actions : List Action} (hlocal : AllLocal actions)
    {g : Generator} (h : g.Constructs actions) :
    .push .constant (.ofNat g.fields) ∈ Event.instructions (g.run [] actions).1 := by
  induction actions generalizing g with
  | nil => exact h.elim
  | cons a actions ih =>
    obtain ⟨ha, hactions⟩ := List.forall_mem_cons.mp hlocal
    rcases h with ⟨rfl, hkind⟩ | ⟨g', new, hstep, hrest⟩
    · have hroom : .push .constant (.ofNat g.fields) ∈ g.prologue := by
        rw [prologue, count_field, hkind]
        exact List.mem_cons_self
      rw [run_cons_of_ok rfl, Event.instructions_append]
      apply List.mem_append_left
      exact (instructions_emitAll (_ :: g.prologue)).symm ▸ List.mem_cons_of_mem _ hroom
    · have hmem := ih hactions hrest
      rw [fields, (class_of_step ha hstep).2, ← fields] at hmem
      rw [run_cons_of_ok hstep, Event.instructions_append]
      exact List.mem_append_right _ hmem

/-- Silent actions emit nothing. -/
theorem instructions_of_silent {actions : List Action} (h : ∀ a ∈ actions, a.isSilent = true)
    (g : Generator) : Event.instructions (g.run [] actions).1 = [] := by
  induction actions generalizing g with
  | nil => rfl
  | cons a actions ih =>
    obtain ⟨ha, hactions⟩ := List.forall_mem_cons.mp h
    rcases hstep : g.step a with e | ⟨g', new⟩
    · rw [run_cons_of_error hstep]
      rfl
    · have hnew : Event.instructions new = [] := by
        cases a with
        | declare kind type name pos =>
          rw [step] at hstep
          cases hdeclare : g.declare kind type name pos <;> rw [hdeclare] at hstep <;> cases hstep
          rfl
        | scan | nameClass | openSub | nameSub =>
          cases hstep
          rfl
        | _ => cases ha
      rw [run_cons_of_ok hstep, Event.instructions_append, hnew, ih hactions]
      rfl

/-- Declarations are silent. -/
theorem isSilent_declarations (ds : List Tree.Declaration) :
    ∀ a ∈ ds.map Tree.Declaration.action, a.isSilent = true :=
  List.forall_mem_map.mpr fun _ _ => rfl

/-- The name of the class and declarations emit nothing. -/
theorem run_declarations (name : String) (ds : List Tree.Declaration) {actions : List Action}
    (h : actions <+: .nameClass name :: ds.map Tree.Declaration.action) (g : Generator) :
    Event.instructions (g.run [] actions).1 = [] := by
  have hall : ∀ a ∈ .nameClass name :: ds.map Tree.Declaration.action, a.isSilent = true :=
    List.forall_mem_cons.mpr ⟨rfl, isSilent_declarations ds⟩
  exact g.instructions_of_silent fun a ha => hall a (h.subset ha)

end Generator

namespace Tree

open JackStack.Generator

/-- The fields counted among declarations are the declarations of fields. -/
theorem fieldCount_declarations (ds : List Declaration) :
    Action.fieldCount (ds.map Declaration.action) = countKind .field ds := by
  rw [Action.fieldCount, List.countP_map, countKind]
  rfl

/-- No field is declared inside a subroutine. -/
theorem fieldCount_of_allLocal {actions : List Action} (h : AllLocal actions) :
    Action.fieldCount actions = 0 := by
  rw [Action.fieldCount, List.countP_eq_zero]
  intro a ha hfield
  have hlocal := h a ha
  cases a with
  | declare kind type name pos =>
    obtain rfl : kind = .field := of_decide_eq_true hfield
    cases hlocal
  | _ => cases hfield

/-- Behind its declarations a class has as many fields as it declares. -/
theorem Class.fields_declared (c : Class) :
    c.declared.fields = countKind .field c.declarations := by
  have hcount := Scope.countP_extend .empty c.declarations .field
  rw [fields]
  exact hcount.trans (Nat.zero_add _)

/-- Up to a subroutine the fields counted are those of the class. -/
theorem Class.fieldCount_head (c : Class) {back : List Action} (hback : AllLocal back) :
    Action.fieldCount (.nameClass c.name :: c.declarations.map Declaration.action ++ back) =
      c.declared.fields := by
  have hname : (.nameClass c.name :: c.declarations.map Declaration.action : List Action).countP
      Action.isField = (c.declarations.map Declaration.action).countP Action.isField :=
    List.countP_cons_of_neg nofun
  rw [Action.fieldCount, List.countP_append, hname, ← Action.fieldCount, ← Action.fieldCount,
    fieldCount_of_allLocal hback, fieldCount_declarations, c.fields_declared, Nat.add_zero]

/-- The constants in code are small, apart from a number that is pushed exactly where constructors
are reached. -/
structure PushesRoom (room : UInt32) (constructs : Prop) (code : List Instruction) : Prop where
  modest : Modest room constructs code
  pushed : constructs → .push .constant room ∈ code

/-- Whatever beginning of a class is carried out, no constant is too large in what it emits, apart
from the number of fields. -/
theorem Class.pushesRoom (c : Class) {actions : List Action} (h : actions <+: c.actions) :
    PushesRoom (.ofNat (Action.fieldCount actions)) (({} : Generator).Constructs actions)
      (Event.instructions (generate actions).1) := by
  have hbodies : ∀ a ∈ .nameClass c.name :: c.declarations.map Declaration.action,
      a ≠ .openBody := by
    rintro a ha rfl
    rcases List.mem_cons.mp ha with hname | hmem
    · cases hname
    · obtain ⟨d, -, hd⟩ := List.mem_map.mp hmem
      cases hd
  have hhead := List.prefix_append (.nameClass c.name :: c.declarations.map Declaration.action)
    (c.subroutines.flatMap Subroutine.actions)
  rw [List.cons_append, ← Class.actions_eq] at hhead
  rcases List.prefix_or_prefix_of_prefix h hhead with hbegins | ⟨back, rfl⟩
  · have hnone := constructs_append (fun a ha => hbodies a (hbegins.subset ha)) {} []
    rw [List.append_nil] at hnone
    rw [generate, run_declarations c.name c.declarations hbegins]
    refine ⟨.nil, fun hconstructs => ?_⟩
    obtain ⟨g, -, hg⟩ := hnone.mp hconstructs
    exact hg.elim
  · rw [Class.actions_eq, List.cons_append, List.prefix_cons_inj, List.prefix_append_right_inj] at h
    have hlocal : AllLocal back := fun a ha => subroutines_allLocal _ a (h.subset ha)
    have hchecked : Checked back := (subroutines_checked _).of_begins h
    rw [c.fieldCount_head hlocal, generate, constructs_append hbodies, run_append]
    rcases hrun : ({} : Generator).run []
      (.nameClass c.name :: c.declarations.map Declaration.action) with ⟨events, e | g⟩
    · have hnone := run_declarations c.name c.declarations (List.prefix_refl _) {}
      rw [hrun] at hnone
      rw [hnone]
      refine ⟨.nil, ?_⟩
      rintro ⟨g, hg, -⟩
      cases hg
    · obtain ⟨-, hnone, rfl⟩ := Class.carries_declared.mp ⟨events, hrun, rfl⟩
      rw [Event.instructions_append, hnone, List.nil_append]
      refine ⟨(run_modest hchecked hlocal c.declared).mono fun hback => ⟨_, rfl, hback⟩, ?_⟩
      rintro ⟨g, hg, hback⟩
      cases hg
      exact push_fields_of_constructs hlocal hback

end Tree

end JackStack
