import JackStack.Code.Generator
import JackStack.Proofs.Code.Slots
import JackStack.Proofs.Grammar.Reads
import JackStack.Proofs.Grammar.Reports
import JackStack.Proofs.Source.Tokens

/-!
# Carrying out the actions of a tree

The generator carries out the actions of a tree exactly when the demands of the tree are met, and
what it emits then is the code of the tree. The scopes it keeps hold the declarations of the tree
with their numbers, and it finds in them what the tree's context says.
-/

namespace JackStack

/-- The instructions among events. -/
def Event.instructions (events : List Event) : List Instruction :=
  events.filterMap fun
    | .emit i => some i
    | .note _ => none

@[simp] theorem Event.instructions_append (front back : List Event) :
    Event.instructions (front ++ back) = Event.instructions front ++ Event.instructions back :=
  List.filterMap_append

namespace Generator

/-- Emitted code consists of its instructions. -/
@[simp] theorem instructions_emitAll (code : List Instruction) :
    Event.instructions (emitAll code) = code := by
  induction code with
  | nil => rfl
  | cons i code ih => exact congrArg (i :: ·) ih

/-- Carrying out the actions succeeds, emits the code and leads to the second state. -/
def Carries (g : Generator) (actions : List Action) (code : List Instruction) (g' : Generator) :
    Prop :=
  ∃ events, g.run [] actions = (events, .ok g') ∧ Event.instructions events = code

variable {g g' g₁ : Generator} {code : List Instruction}

/-- Without actions nothing is emitted and the state stays. -/
theorem carries_nil : Carries g [] code g' ↔ code = [] ∧ g' = g := by
  constructor
  · rintro ⟨events, h, rfl⟩
    cases h
    exact ⟨rfl, rfl⟩
  · rintro ⟨rfl, rfl⟩
    exact ⟨[], rfl, rfl⟩

/-- An action that is carried out emits its instructions in front of the others. -/
theorem carries_cons_of_ok {a : Action} {new : List Event} (h : g.step a = .ok (g₁, new))
    {rest : List Action} : Carries g (a :: rest) code g' ↔
      ∃ back, code = Event.instructions new ++ back ∧ Carries g₁ rest back g' := by
  rw [Carries, run_cons_of_ok h]
  constructor
  · rintro ⟨events, he, rfl⟩
    obtain ⟨rfl, hok⟩ := Prod.mk.inj he
    exact ⟨_, Event.instructions_append _ _, _, Prod.ext rfl hok, rfl⟩
  · rintro ⟨back, rfl, events, he, rfl⟩
    exact ⟨new ++ events, by rw [he], Event.instructions_append _ _⟩

/-- Nothing is carried out behind an action that fails. -/
theorem not_carries_cons_of_error {a : Action} {e : Error} (h : g.step a = .error e)
    {rest : List Action} : ¬ Carries g (a :: rest) code g' := by
  rintro ⟨events, he, -⟩
  rw [run_cons_of_error h] at he
  cases he

/-- Two pieces of actions are carried out one after the other. -/
theorem carries_append {front back : List Action} : Carries g (front ++ back) code g' ↔
    ∃ g₁ code₁ code₂, Carries g front code₁ g₁ ∧ Carries g₁ back code₂ g' ∧
      code = code₁ ++ code₂ := by
  rw [Carries, run_append]
  rcases hf : g.run [] front with ⟨events, e | g₁⟩
  · constructor
    · rintro ⟨_, he, -⟩
      cases he
    · rintro ⟨g₁, code₁, code₂, ⟨_, he, -⟩, -⟩
      rw [hf] at he
      cases he
  · constructor
    · rintro ⟨_, he, rfl⟩
      obtain ⟨rfl, hok⟩ := Prod.mk.inj he
      exact ⟨g₁, _, _, ⟨events, hf, rfl⟩, ⟨_, Prod.ext rfl hok, rfl⟩, Event.instructions_append _ _⟩
    · rintro ⟨g₂, code₁, code₂, ⟨_, he, rfl⟩, ⟨events', hb, rfl⟩, rfl⟩
      rw [hf] at he
      cases he
      exact ⟨events ++ events', by simp only [hb], Event.instructions_append _ _⟩

/-- A declaration at another place does the same or fails as well. -/
theorem declare_withPos (g : Generator) (kind : VarKind) (type name : String) (p q : Position) :
    g.declare kind type name p = g.declare kind type name q ∨
      ∃ e e', g.declare kind type name q = .error e ∧ g.declare kind type name p = .error e' := by
  unfold declare
  cases kind <;> dsimp only <;> split <;>
    first | exact .inl rfl | exact .inr ⟨_, _, rfl, rfl⟩

/-- An action at another place does the same or fails as well. -/
theorem step_withPos (g : Generator) (a : Action) (p : Position) :
    g.step (a.withPos p) = g.step a ∨
      ∃ e e', g.step a = .error e ∧ g.step (a.withPos p) = .error e' := by
  cases a with
  | declare kind type name pos =>
    simp only [Action.withPos, step]
    obtain h | ⟨e, e', h, h'⟩ := g.declare_withPos kind type name p pos
    · exact .inl (by rw [h])
    · exact .inr ⟨e, e', by rw [h]; rfl, by rw [h']; rfl⟩
  | use name pos =>
    simp only [Action.withPos, step]
    cases g.find? name with
    | some v => exact .inl rfl
    | none => exact .inr ⟨_, _, rfl, rfl⟩
  | checkInteger value pos =>
    simp only [Action.withPos, step]
    by_cases h : maxConstant < value
    · exact .inr ⟨_, _, if_pos h, if_pos h⟩
    · exact .inl (by rw [if_neg h, if_neg h])
  | checkString content pos =>
    simp only [Action.withPos, step, stringFault]
    cases content.toList.find? fun c => decide (maxConstant < c.val) with
    | some c => exact .inr ⟨_, _, rfl, rfl⟩
    | none =>
      by_cases h : maxConstant < UInt32.ofNat content.length
      · simp only [if_pos h]
        exact .inr ⟨_, _, rfl, rfl⟩
      · simp only [if_neg h]
        exact .inl trivial
  | _ => exact .inl rfl

/-- Neither the places of the actions nor the lexemes drawn between them matter for the code. -/
theorem carries_unplaced {actions : List Action} :
    Carries g (Action.unplaced actions) code g' ↔ Carries g actions code g' := by
  induction actions generalizing g code with
  | nil => rfl
  | cons a actions ih =>
    cases ha : a.isScan with
    | true =>
      obtain ⟨lx, rfl⟩ : ∃ lx, a = .scan lx := by
        cases a <;> first | exact ⟨_, rfl⟩ | cases ha
      have hstep : g.step (.scan lx) = .ok (g, [.note (.scanned lx)]) := rfl
      change Carries g (Action.unplaced actions) code g' ↔ _
      rw [carries_cons_of_ok hstep, ih]
      constructor
      · exact fun h => ⟨code, rfl, h⟩
      · rintro ⟨back, rfl, h⟩
        exact h
    | false =>
      have hcons :
          Action.unplaced (a :: actions) = a.withPos .start :: Action.unplaced actions := by
        simp [Action.unplaced, Action.withoutScans, ha]
      rw [hcons]
      obtain h | ⟨e, e', h, h'⟩ := g.step_withPos a .start
      · rcases hstep : g.step a with e | ⟨g₁, new⟩
        · rw [hstep] at h
          exact iff_of_false (not_carries_cons_of_error h) (not_carries_cons_of_error hstep)
        · rw [hstep] at h
          simp only [carries_cons_of_ok h, carries_cons_of_ok hstep, ih]
      · exact iff_of_false (not_carries_cons_of_error h') (not_carries_cons_of_error h)

end Generator

/-! ## What the generator knows and what the context says -/

/-- What the code of a variable depends on. -/
def Variable.data (v : Variable) : String × VarKind × UInt32 := (v.type, v.kind, v.index)

/-- What the code of a slot depends on. -/
def Tree.Slot.data (s : Tree.Slot) : String × VarKind × UInt32 := (s.type, s.kind, .ofNat s.index)

namespace Tree

open JackStack.Generator

/-- The generator finds what the context says, under every name but that of the current object,
which no tree uses as a name. -/
structure Agrees (g : Generator) (ctx : Context) : Prop where
  className : g.className = ctx.className
  subKind : g.subKind = ctx.kind
  find : ∀ name ≠ "this", (g.find? name).map Variable.data = (ctx.slot? name).map Slot.data

/-- What is pushed for a variable depends on its kind and number only. -/
theorem push_of_data {v : Variable} {s : Slot} (h : v.data = s.data) : v.push = s.push := by
  obtain ⟨_, type, kind, index⟩ := v
  obtain ⟨type', kind', index'⟩ := s
  obtain ⟨-, rfl, rfl⟩ : type = type' ∧ kind = kind' ∧ index = .ofNat index' := by
    simpa [Variable.data, Slot.data] using h
  cases kind <;> rfl

/-- What is popped for a variable depends on its kind and number only. -/
theorem pop_of_data {v : Variable} {s : Slot} (h : v.data = s.data) : v.pop = s.pop := by
  obtain ⟨_, type, kind, index⟩ := v
  obtain ⟨type', kind', index'⟩ := s
  obtain ⟨-, rfl, rfl⟩ : type = type' ∧ kind = kind' ∧ index = .ofNat index' := by
    simpa [Variable.data, Slot.data] using h
  cases kind <;> rfl

theorem type_of_data {v : Variable} {s : Slot} (h : v.data = s.data) : v.type = s.type :=
  congrArg Prod.fst h

namespace Agrees

variable {g : Generator} {ctx : Context}

/-- Labels have nothing to do with names. -/
theorem relabel (h : Agrees g ctx) (labels : Nat) (branches : List Nat) :
    Agrees { g with labels, branches } ctx := ⟨h.className, h.subKind, h.find⟩

/-- The generator's labels are those of the context. -/
theorem label_eq (h : Agrees g ctx) (n : Nat) : g.label n = ctx.label n := by
  rw [Generator.label, Context.label, h.className]

/-- Either nothing is found on both sides, or the same on both. -/
theorem find_cases (h : Agrees g ctx) {name : String} (hname : name ≠ "this") :
    (g.find? name = none ∧ ctx.slot? name = none) ∨
      ∃ v s, g.find? name = some v ∧ ctx.slot? name = some s ∧ v.data = s.data := by
  have hfind := h.find name hname
  rcases hg : g.find? name with _ | v <;> rcases hs : ctx.slot? name with _ | s <;>
    rw [hg, hs] at hfind
  · exact .inl ⟨rfl, rfl⟩
  · cases hfind
  · cases hfind
  · exact .inr ⟨v, s, rfl, rfl, Option.some.inj hfind⟩

/-- A name is pushed as the context says. -/
theorem push_eq (h : Agrees g ctx) {name : String} (hname : name ≠ "this") :
    (g.find? name).toList.map Variable.push = ctx.pushVar name := by
  unfold Context.pushVar
  obtain ⟨hg, hs⟩ | ⟨v, s, hg, hs, hdata⟩ := h.find_cases hname
  · rw [hg, hs]
    rfl
  · rw [hg, hs]
    exact congrArg (fun i => [i]) (push_of_data hdata)

/-- A name is popped as the context says. -/
theorem pop_eq (h : Agrees g ctx) {name : String} (hname : name ≠ "this") :
    (g.find? name).toList.map Variable.pop = ctx.popVar name := by
  unfold Context.popVar
  obtain ⟨hg, hs⟩ | ⟨v, s, hg, hs, hdata⟩ := h.find_cases hname
  · rw [hg, hs]
    rfl
  · rw [hg, hs]
    exact congrArg (fun i => [i]) (pop_of_data hdata)

/-- A call names the callee that the context says, and counts the receiver. -/
theorem call_eq (h : Agrees g ctx) {owner : Option String} (howner : owner ≠ some "this")
    (name : String) (args : Nat) :
    .call (g.callee owner name).1 (.ofNat (args + (g.callee owner name).2)) =
      ctx.callCode owner name args := by
  cases owner with
  | none =>
    simp only [Generator.callee, Context.callCode, h.subKind, h.className]
    by_cases hk : ctx.kind = .function
    · simp only [if_pos hk, Nat.add_zero]
    · simp only [if_neg hk]
  | some first =>
    simp only [Generator.callee, Context.callCode]
    obtain ⟨hg, hs⟩ | ⟨v, s, hg, hs, hdata⟩ := h.find_cases fun hf => howner (congrArg some hf)
    · simp only [hg, hs, Nat.add_zero]
    · simp only [hg, hs, type_of_data hdata]

/-- A call without an owner pushes the receiver unless the subroutine is a function. -/
theorem receiver_eq (h : Agrees g ctx) :
    (if g.subKind = .function then [] else [.push .pointer 0]) = ctx.receiverCode none := by
  rw [h.subKind]
  rfl

end Agrees

/-- The generator knows the names that the context declares. -/
theorem Agrees.find?_isSome {g : Generator} {ctx : Context} (h : Agrees g ctx) {name : String}
    (hname : name ≠ "this") : (g.find? name).isSome ↔ ctx.Declares name := by
  have hfind := congrArg Option.isSome (h.find name hname)
  rw [Option.isSome_map, Option.isSome_map] at hfind
  rw [hfind, Context.slot?_isSome]

/-! ## Actions in sequence -/

/-- The actions are carried out exactly when the demands are met, and then with this code and this
final state. -/
def Yields (ctx : Context) (g : Generator) (actions : List Action) (demands : List Demand)
    (code : List Instruction) (g₁ : Generator) : Prop :=
  ∀ code' g', Carries g actions code' g' ↔ (∀ d ∈ demands, d.Met ctx) ∧ code' = code ∧ g' = g₁

namespace Yields

variable {ctx : Context} {g g₁ g₂ : Generator} {actions : List Action} {demands : List Demand}
  {code : List Instruction}

/-- Without actions nothing is demanded and nothing emitted. -/
theorem nil : Yields ctx g [] [] [] g := by
  intro code' g'
  rw [carries_nil]
  simp

/-- An action that always succeeds. -/
theorem step {a : Action} (h : g.step a = .ok (g₁, emitAll code)) :
    Yields ctx g [a] [] code g₁ := by
  intro code' g'
  rw [carries_cons_of_ok h]
  simp [carries_nil]

/-- One sequence and then, from where it leads, another one. -/
theorem append {actions' : List Action} {demands' : List Demand} {code' : List Instruction}
    (h : Yields ctx g actions demands code g₁) (h' : Yields ctx g₁ actions' demands' code' g₂) :
    Yields ctx g (actions ++ actions') (demands ++ demands') (code ++ code') g₂ := by
  intro code'' g'
  rw [carries_append, List.forall_mem_append]
  constructor
  · rintro ⟨g₃, code₁, code₂, hc, hc', rfl⟩
    obtain ⟨hd, rfl, rfl⟩ := (h _ _).mp hc
    obtain ⟨hd', rfl, rfl⟩ := (h' _ _).mp hc'
    exact ⟨⟨hd, hd'⟩, rfl, rfl⟩
  · rintro ⟨⟨hd, hd'⟩, rfl, rfl⟩
    exact ⟨g₁, code, code', (h _ _).mpr ⟨hd, rfl, rfl⟩, (h' _ _).mpr ⟨hd', rfl, rfl⟩, rfl⟩

/-- The same with an action behind that always succeeds. -/
theorem snoc {a : Action} {code' : List Instruction} (h : Yields ctx g actions demands code g₁)
    (ha : g₁.step a = .ok (g₂, emitAll code')) :
    Yields ctx g (actions ++ [a]) demands (code ++ code') g₂ := by
  have happend := h.append (step ha)
  rwa [List.append_nil] at happend

/-- The same with an action in front that always succeeds. -/
theorem cons {a : Action} {code' : List Instruction} (ha : g.step a = .ok (g₁, emitAll code'))
    (h : Yields ctx g₁ actions demands code g₂) :
    Yields ctx g (a :: actions) demands (code' ++ code) g₂ := (step ha).append h

/-- The number of arguments is no demand on the generator. -/
theorem arguments (n : Nat) (h : Yields ctx g actions demands code g₁) :
    Yields ctx g actions (.arguments n :: demands) code g₁ := by
  intro code' g'
  rw [h, List.forall_mem_cons]
  exact and_congr_left fun _ => (and_iff_right trivial).symm

/-- The use of a name demands that it is declared. -/
theorem use (h : Agrees g ctx) {name : String} (hname : name ≠ "this") (pos : Position) :
    Yields ctx g [.use name pos] [.known name] [] g := by
  intro code' g'
  have hiff := h.find?_isSome hname
  rw [List.forall_mem_singleton]
  cases hg : g.find? name with
  | none =>
    have hstep : g.step (.use name pos) = .error (.undefined pos name) := by
      simp only [Generator.step, hg]
    have hnot : ¬ ctx.Declares name := by
      rw [← hiff, hg]
      exact Bool.false_ne_true
    exact iff_of_false (not_carries_cons_of_error hstep) fun hd => hnot hd.1
  | some v =>
    have hstep : g.step (.use name pos) = .ok (g, []) := by
      simp only [Generator.step, hg]
    have hd : Demand.Met ctx (.known name) := hiff.mp (hg ▸ rfl)
    rw [carries_cons_of_ok hstep]
    simp [carries_nil, hd, Event.instructions]

/-- The look at an integer demands that it is small and emits nothing. -/
theorem checkInteger (value : UInt32) (pos : Position) :
    Yields ctx g [.checkInteger value pos] [.integer value] [] g := by
  intro code' g'
  have hiff : maxConstant < value ↔ ¬ Demand.Met ctx (.integer value) := by
    rw [UInt32.lt_iff_toNat_lt, Demand.Met, Nat.not_le]
    rfl
  rw [List.forall_mem_singleton]
  by_cases h : maxConstant < value
  · have hstep : g.step (.checkInteger value pos) = .error (.intOutOfRange pos value) := if_pos h
    exact iff_of_false (not_carries_cons_of_error hstep) fun hd => hiff.mp h hd.1
  · have hstep : g.step (.checkInteger value pos) = .ok (g, []) := if_neg h
    have hd : Demand.Met ctx (.integer value) := Classical.not_not.mp (mt hiff.mpr h)
    rw [carries_cons_of_ok hstep]
    simp [carries_nil, hd, Event.instructions]

/-- A string constant is checked as demanded, unless it is as long as no source can hold. -/
theorem stringFault_eq_none_iff (ctx : Context) {content : String}
    (hlength : content.length < UInt32.size) (pos : Position) :
    stringFault content pos = none ↔ Demand.Met ctx (.string content) := by
  have hchar : ∀ c : Char, maxConstant < c.val ↔ ¬ c.toNat ≤ 32767 := by
    intro c
    rw [UInt32.lt_iff_toNat_lt, Nat.not_le]
    rfl
  have hcount : maxConstant < UInt32.ofNat content.length ↔ ¬ content.length ≤ 32767 := by
    rw [UInt32.lt_iff_toNat_lt, UInt32.toNat_ofNat_of_lt' hlength, Nat.not_le]
    rfl
  unfold stringFault Demand.Met
  cases hc : content.toList.find? fun c => decide (maxConstant < c.val) with
  | some c =>
    have hmem := List.mem_of_find?_eq_some hc
    have hlarge : ¬ c.toNat ≤ 32767 := (hchar c).mp (by simpa using List.find?_some hc)
    simp only [reduceCtorEq, false_iff, not_and]
    exact fun _ hall => hlarge (hall c hmem)
  | none =>
    have hall : ∀ c ∈ content.toList, c.toNat ≤ 32767 := by
      intro c hmem
      have hsmall := List.find?_eq_none.mp hc c hmem
      rw [decide_eq_true_eq, hchar, Classical.not_not] at hsmall
      exact hsmall
    by_cases hl : maxConstant < UInt32.ofNat content.length
    · simp only [if_pos hl, reduceCtorEq, false_iff, not_and]
      exact fun hle => absurd hle (hcount.mp hl)
    · simp only [if_neg hl, true_iff]
      exact ⟨Classical.not_not.mp (mt hcount.mpr hl), hall⟩

/-- The look at a string demands that it is short and of small characters and emits nothing. -/
theorem checkString {content : String} (hlength : content.length < UInt32.size) (pos : Position) :
    Yields ctx g [.checkString content pos] [.string content] [] g := by
  intro code' g'
  have hiff := stringFault_eq_none_iff ctx hlength pos
  rw [List.forall_mem_singleton, ← hiff]
  cases hf : stringFault content pos with
  | some e =>
    have hstep : g.step (.checkString content pos) = .error e := by
      simp only [Generator.step, hf]
    exact iff_of_false (not_carries_cons_of_error hstep) fun hd => Option.some_ne_none e hd.1
  | none =>
    have hstep : g.step (.checkString content pos) = .ok (g, []) := by
      simp only [Generator.step, hf]
    rw [carries_cons_of_ok hstep]
    simp [carries_nil, Event.instructions]

end Yields

/-! ## Expressions -/

/-- A scanned name is not that of the current object. -/
theorem ne_this_of_plain {name : String} {size : Nat} (h : (Token.identifier name).Plain size) :
    name ≠ "this" := by
  rintro rfl
  exact absurd h (by decide : Keyword.ofText? "this" ≠ none)

/-- All tokens are such as a source of the size can hold. -/
def AllPlain (size : Nat) (ts : List Token) : Prop := ∀ t ∈ ts, t.Plain size

/-- A first token and the others are plain together or not at all. -/
theorem AllPlain.cons {size : Nat} {t : Token} {ts : List Token} (h : AllPlain size (t :: ts)) :
    t.Plain size ∧ AllPlain size ts := List.forall_mem_cons.mp h

/-- Two pieces of tokens are plain together or not at all. -/
theorem AllPlain.append {size : Nat} {front back : List Token}
    (h : AllPlain size (front ++ back)) : AllPlain size front ∧ AllPlain size back :=
  List.forall_mem_append.mp h

section Expressions

variable {size : Nat} {ctx : Context} {g : Generator}

/-- The code of a string: its length, the call that makes it, and one call for each character. -/
theorem stringCode_eq (content : String) :
    stringCode content = .push .constant (.ofNat content.length) :: .call "String.new" 1 ::
      content.toList.flatMap appendCode := by
  have hchar : ∀ c : Char, c.val = .ofNat c.toNat := fun c => UInt32.ofNat_toNat.symm
  simp only [stringCode, hchar]
  rfl

mutual

/-- The actions of a term yield its code where its demands are met. -/
theorem Term.yields (hsize : size < UInt32.size) (h : Agrees g ctx) : (t : Term) →
    AllPlain size t.tokens → Yields ctx g t.actions t.demands (t.code ctx) g
  | .integer value, _ => (Yields.checkInteger value .start).snoc rfl
  | .string content, ht => by
    have hlength : content.length < UInt32.size :=
      Nat.lt_of_le_of_lt (ht _ List.mem_cons_self) hsize
    have hload : g.step (.loadString content) =
        .ok (g, emitAll ((Term.string content).code ctx)) := by
      rw [Term.code, ← stringCode_eq]
      rfl
    exact (Yields.checkString hlength .start).snoc hload
  | .constant word, _ => by
    cases word <;> exact .step rfl
  | .var name, ht => by
    have hname := ne_this_of_plain (ht _ List.mem_cons_self)
    have hload : g.step (.load name) = .ok (g, emitAll (ctx.pushVar name)) := by
      rw [← h.push_eq hname]
      rfl
    exact (Yields.use h hname .start).snoc hload
  | .element array index, ht => by
    obtain ⟨hname, hrest⟩ := AllPlain.cons ht
    replace hname := ne_this_of_plain hname
    have hindex := Expression.yields hsize h index (AllPlain.append (AllPlain.cons hrest).2).1
    have hadd : g.step (.index array) =
        .ok (g, emitAll (ctx.pushVar array ++ [.arithmetic .add])) := by
      rw [← h.push_eq hname]
      rfl
    have hall := (Yields.use h hname .start).append
      ((hindex.snoc hadd).snoc (a := .loadElement) rfl)
    simpa [Term.actions, Term.demands, Term.code] using hall
  | .call target, ht => Call.yields hsize h target ht
  | .group inner, ht =>
    Expression.yields hsize h inner (AllPlain.append (AllPlain.cons ht).2).1
  | .unary op operand, ht => by
    have hoperand := Term.yields hsize h operand (AllPlain.cons ht).2
    cases op <;> exact hoperand.snoc rfl

/-- The actions of an expression yield its code where its demands are met. -/
theorem Expression.yields (hsize : size < UInt32.size) (h : Agrees g ctx) : (e : Expression) →
    AllPlain size e.tokens → Yields ctx g e.actions e.demands (e.code ctx) g
  | .chain first rest, ht => by
    obtain ⟨hfirst, hrest⟩ := AllPlain.append ht
    exact (Term.yields hsize h first hfirst).append (operations_yields hsize h rest hrest)

theorem operations_yields (hsize : size < UInt32.size) (h : Agrees g ctx) :
    (ops : List (BinaryOp × Term)) → AllPlain size (operationTokens ops) →
      Yields ctx g (operationActions ops) (operationDemands ops) (operationCode ctx ops) g
  | [], _ => .nil
  | (op, operand) :: rest, ht => by
    obtain ⟨hoperand, hrest⟩ := AllPlain.append (AllPlain.cons ht).2
    have hop : g.step (.applyBinary op) = .ok (g, emitAll [binaryCode op]) := by
      cases op <;> rfl
    exact (Term.yields hsize h operand hoperand).append
      (.cons hop (operations_yields hsize h rest hrest))

/-- The actions of a call yield its code where its demands are met. -/
theorem Call.yields (hsize : size < UInt32.size) (h : Agrees g ctx) : (target : Call) →
    AllPlain size target.tokens → Yields ctx g target.actions target.demands (target.code ctx) g
  | .mk none name args, ht => by
    obtain ⟨hplain, -⟩ := AllPlain.append (AllPlain.cons (AllPlain.cons ht).2).2
    have hargs := arguments_yields hsize h args hplain
    have hreceive : g.step .receiveThis = .ok (g, emitAll (ctx.receiverCode none)) := by
      rw [← h.receiver_eq]
      rfl
    have hcall : g.step (.call none name args.length) =
        .ok (g, emitAll [ctx.callCode none name args.length]) := by
      rw [← h.call_eq (Option.some_ne_none _).symm]
      rfl
    exact .arguments _ ((Yields.cons hreceive hargs).snoc hcall)
  | .mk (some owner) name args, ht => by
    obtain ⟨howner, hrest⟩ := AllPlain.cons ht
    replace howner := ne_this_of_plain howner
    obtain ⟨hplain, -⟩ :=
      AllPlain.append (AllPlain.cons (AllPlain.cons (AllPlain.cons hrest).2).2).2
    have hargs := arguments_yields hsize h args hplain
    have hreceive : g.step (.receive owner) = .ok (g, emitAll (ctx.receiverCode (some owner))) := by
      rw [Context.receiverCode, ← h.push_eq howner]
      rfl
    have hcall : g.step (.call (some owner) name args.length) =
        .ok (g, emitAll [ctx.callCode (some owner) name args.length]) := by
      rw [← h.call_eq fun ho => howner (Option.some.inj ho)]
      rfl
    exact .arguments _ ((Yields.cons hreceive hargs).snoc hcall)

theorem arguments_yields (hsize : size < UInt32.size) (h : Agrees g ctx) :
    (args : List Expression) → AllPlain size (argumentTokens args) →
      Yields ctx g (argumentActions args) (argumentDemands args) (argumentCode ctx args) g
  | [], _ => .nil
  | arg :: rest, ht => by
    obtain ⟨harg, hrest⟩ := AllPlain.append ht
    exact (Expression.yields hsize h arg harg).append (further_yields hsize h rest hrest)

/-- The actions of arguments behind commas yield the same code as if they came first. -/
theorem further_yields (hsize : size < UInt32.size) (h : Agrees g ctx) :
    (args : List Expression) → AllPlain size (furtherTokens args) →
      Yields ctx g (argumentActions args) (argumentDemands args) (argumentCode ctx args) g
  | [], _ => .nil
  | arg :: rest, ht => by
    obtain ⟨harg, hrest⟩ := AllPlain.append (AllPlain.cons ht).2
    exact (Expression.yields hsize h arg harg).append (further_yields hsize h rest hrest)

end

end Expressions

/-! ## Statements -/

section Statements

variable {size : Nat} {ctx : Context}

/-- The state inside a branch, after a number of labels. -/
def branched (g : Generator) (labels : Nat) : Generator :=
  { g with labels, branches := g.labels :: g.branches }

/-- The labels of the innermost branch are those of the first number handed out to it. -/
theorem Agrees.onBranch_eq {g : Generator} (h : Agrees g ctx) (labels : Nat)
    (code : String → String → List Instruction) :
    (branched g labels).onBranch code =
      emitAll (code (ctx.label g.labels) (ctx.label (g.labels + 1))) := by
  rw [← h.label_eq, ← h.label_eq]
  rfl

/-- A condition that does not hold leads to the second label of the branch. -/
theorem Agrees.leaveUnless {g : Generator} (h : Agrees g ctx) (labels : Nat) :
    (branched g labels).step .leaveUnless = .ok (branched g labels,
      emitAll [.arithmetic .not, .ifGoto (ctx.label (g.labels + 1))]) := by
  rw [Generator.step, h.onBranch_eq]

/-- The end of a first block leads to the first label, and the second one is set behind it. -/
theorem Agrees.turnBack {g : Generator} (h : Agrees g ctx) (labels : Nat) :
    (branched g labels).step .turnBack = .ok (branched g labels,
      emitAll [.goto (ctx.label g.labels), .label (ctx.label (g.labels + 1))]) := by
  rw [Generator.step, h.onBranch_eq]

/-- The first label of the branch is set. -/
theorem Agrees.markFirst {g : Generator} (h : Agrees g ctx) (labels : Nat) :
    (branched g labels).step .markFirst = .ok (branched g labels,
      emitAll [.label (ctx.label g.labels)]) := by
  rw [Generator.step, h.onBranch_eq]

/-- A branch takes two labels and emits nothing. -/
theorem step_openBranch (g : Generator) :
    g.step .openBranch = .ok (branched g (g.labels + 2), emitAll []) := rfl

/-- Closing a branch keeps the labels that were taken inside. -/
theorem step_closeBranch (g : Generator) (labels : Nat) :
    (branched g labels).step .closeBranch = .ok ({ g with labels }, emitAll []) := rfl

mutual

/-- The actions of a statement yield its code where its demands are met, and take the labels that it
has. -/
theorem Statement.yields (hsize : size < UInt32.size) {g : Generator} (h : Agrees g ctx) :
    (s : Statement) → AllPlain size s.tokens →
      Yields ctx g s.actions s.demands (s.code ctx g.labels)
        { g with labels := g.labels + s.labels }
  | .assign name value, ht => by
    obtain ⟨-, ht₁⟩ := AllPlain.cons ht
    obtain ⟨hname, ht₂⟩ := AllPlain.cons ht₁
    obtain ⟨hplain, -⟩ := AllPlain.append (AllPlain.cons ht₂).2
    replace hname := ne_this_of_plain hname
    have hvalue := Expression.yields hsize h value hplain
    have hstore : g.step (.store name) = .ok (g, emitAll (ctx.popVar name)) := by
      rw [← h.pop_eq hname]
      rfl
    exact (Yields.use h hname .start).append (hvalue.snoc hstore)
  | .assignElement array index value, ht => by
    obtain ⟨-, ht₁⟩ := AllPlain.cons ht
    obtain ⟨hname, ht₂⟩ := AllPlain.cons ht₁
    obtain ⟨ht₃, -⟩ := AllPlain.append (AllPlain.cons ht₂).2
    obtain ⟨hpi, ht₄⟩ := AllPlain.append ht₃
    replace hname := ne_this_of_plain hname
    have hindex := Expression.yields hsize h index hpi
    have hvalue := Expression.yields hsize h value (AllPlain.cons (AllPlain.cons ht₄).2).2
    have hadd : g.step (.index array) =
        .ok (g, emitAll (ctx.pushVar array ++ [.arithmetic .add])) := by
      rw [← h.push_eq hname]
      rfl
    have hall := (Yields.use h hname .start).append
      ((hindex.snoc hadd).append (hvalue.snoc (a := .storeElement) rfl))
    simpa [Statement.actions, Statement.demands, Statement.code, Statement.labels] using hall
  | .ifThen condition block, ht => by
    obtain ⟨-, ht₁⟩ := AllPlain.cons ht
    obtain ⟨ht₂, -⟩ := AllPlain.append (AllPlain.cons ht₁).2
    obtain ⟨hpc, ht₃⟩ := AllPlain.append ht₂
    have hagrees : Agrees (branched g (g.labels + 2)) ctx := h.relabel _ _
    have hcondition := Expression.yields hsize hagrees condition hpc
    have hblock := block_yields hsize hagrees block (AllPlain.cons (AllPlain.cons ht₃).2).2
    have hend := ((hblock.snoc (h.turnBack _)).snoc (h.markFirst _)).snoc (step_closeBranch g _)
    have hall := Yields.cons (step_openBranch g) ((hcondition.snoc (h.leaveUnless _)).append hend)
    simpa [Statement.actions, Statement.demands, Statement.code, Statement.labels, branched,
      Nat.add_assoc] using hall
  | .ifElse condition block other, ht => by
    obtain ⟨-, ht₁⟩ := AllPlain.cons ht
    obtain ⟨ht₂, -⟩ := AllPlain.append (AllPlain.cons ht₁).2
    obtain ⟨ht₃, ht₄⟩ := AllPlain.append ht₂
    obtain ⟨hpc, ht₅⟩ := AllPlain.append ht₃
    have hagrees : Agrees (branched g (g.labels + 2)) ctx := h.relabel _ _
    have hagrees' : Agrees (branched g (g.labels + 2 + blockLabels block)) ctx := h.relabel _ _
    have hcondition := Expression.yields hsize hagrees condition hpc
    have hblock := block_yields hsize hagrees block (AllPlain.cons (AllPlain.cons ht₅).2).2
    have hother := block_yields hsize hagrees' other
      (AllPlain.cons (AllPlain.cons (AllPlain.cons ht₄).2).2).2
    have hend := (hother.snoc (h.markFirst _)).snoc (step_closeBranch g _)
    have hall := Yields.cons (step_openBranch g) ((hcondition.snoc (h.leaveUnless _)).append
      ((hblock.snoc (h.turnBack _)).append hend))
    simpa [Statement.actions, Statement.demands, Statement.code, Statement.labels, branched,
      Nat.add_assoc] using hall
  | .whileLoop condition block, ht => by
    obtain ⟨-, ht₁⟩ := AllPlain.cons ht
    obtain ⟨ht₂, -⟩ := AllPlain.append (AllPlain.cons ht₁).2
    obtain ⟨hpc, ht₃⟩ := AllPlain.append ht₂
    have hagrees : Agrees (branched g (g.labels + 2)) ctx := h.relabel _ _
    have hcondition := Expression.yields hsize hagrees condition hpc
    have hblock := block_yields hsize hagrees block (AllPlain.cons (AllPlain.cons ht₃).2).2
    have hend := (hblock.snoc (h.turnBack _)).snoc (step_closeBranch g _)
    have hall := Yields.cons (step_openBranch g) (Yields.cons (h.markFirst _)
      ((hcondition.snoc (h.leaveUnless _)).append hend))
    simpa [Statement.actions, Statement.demands, Statement.code, Statement.labels, branched,
      Nat.add_assoc] using hall
  | .perform target, ht => by
    obtain ⟨-, ht₁⟩ := AllPlain.cons ht
    exact (Call.yields hsize h target (AllPlain.append ht₁).1).snoc rfl
  | .giveBack none, _ => by
    have hzero : g.step .loadZero = .ok (g, emitAll [.push .constant 0]) := rfl
    exact (Yields.step hzero).snoc rfl
  | .giveBack (some value), ht => by
    obtain ⟨-, ht₁⟩ := AllPlain.cons ht
    exact (Expression.yields hsize h value (AllPlain.append ht₁).1).snoc rfl

theorem block_yields (hsize : size < UInt32.size) {g : Generator} (h : Agrees g ctx) :
    (b : List Statement) → AllPlain size (blockTokens b) →
      Yields ctx g (blockActions b) (blockDemands b) (blockCode ctx g.labels b)
        { g with labels := g.labels + blockLabels b }
  | [], _ => .nil
  | s :: rest, ht => by
    obtain ⟨hs, hrest⟩ := AllPlain.append ht
    have hagrees := h.relabel (g.labels + s.labels) g.branches
    have hall := (Statement.yields hsize h s hs).append (block_yields hsize hagrees rest hrest)
    simpa [blockActions, blockDemands, blockCode, blockLabels, Nat.add_assoc] using hall

end

end Statements

end Tree

end JackStack
