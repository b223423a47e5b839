import JackStack.Proofs.Code.Carrying

/-!
# Places and lexemes do not matter for code

What the generator emits depends neither on the places of the actions nor on the lexemes drawn
between them. Actions that differ in their places only are carried out alike, also where one of
them fails: the failures then differ in their places only. Carrying out the beginning of a sequence
gives the beginning of what the whole sequence gives, unless a failure stops both at once.
-/

namespace JackStack

variable {S : Position → Position → Prop}

/-! ## Actions that differ in their places -/

namespace Action

/-- An action without a place is the same at every place. -/
theorem withPos_of_pos?_none {a : Action} (h : a.pos? = none) (p : Position) : a.withPos p = a := by
  cases a <;> first | rfl | cases h

/-- A place makes no scan of an action. -/
theorem isScan_withPos (a : Action) (p : Position) : (a.withPos p).isScan = a.isScan := by
  cases a <;> rfl

/-- Actions without a place are alike only when they are the same. -/
theorem Alike.eq_of_pos?_none {a b : Action} (h : a.Alike S b) (ha : a.pos? = none) : a = b := by
  have hb : b.pos? = none := by
    have hpos := h.pos
    rw [ha] at hpos
    generalize b.pos? = p at hpos
    cases hpos
    rfl
  have hcontent := h.content
  rwa [withPos_of_pos?_none ha, withPos_of_pos?_none hb] at hcontent

/-- Actions are like themselves without places. -/
theorem listAlike_unplaced (actions : List Action) :
    ListAlike Anywhere actions (unplaced actions) := by
  have hwithout : withoutScans (unplaced actions) = unplaced actions := by
    apply List.filter_eq_self.mpr
    intro a ha
    obtain ⟨b, hb, rfl⟩ := List.mem_map.mp ha
    rw [isScan_withPos]
    exact (List.mem_filter.mp hb).2
  rw [ListAlike, hwithout, unplaced, List.forall₂_map_right_iff]
  apply List.forall₂_same.mpr
  intro a _
  constructor
  · cases a <;> rfl
  · cases a <;> constructor
    all_goals trivial

end Action

namespace Generator

/-! ## Carrying out actions that differ in their places -/

/-- Two ways to end that differ in the place of a failure only. -/
inductive EndsAlike (S : Position → Position → Prop) {α : Type} :
    Except Error α → Except Error α → Prop where
  | ok (a : α) : EndsAlike S (.ok a) (.ok a)
  | error {e f : Error} (errors : e.Alike S f) : EndsAlike S (.error e) (.error f)

/-- What follows an end that is alike, and is alike itself. -/
theorem EndsAlike.bind {α β : Type} {x y : Except Error α} (h : EndsAlike S x y)
    {f g : α → Except Error β} (hfg : ∀ a, EndsAlike S (f a) (g a)) :
    EndsAlike S (x.bind f) (y.bind g) := by
  cases h with
  | ok a => exact hfg a
  | error errors => exact .error errors

/-- Alike actions lead to the same state and emit the same, or fail alike. Without a place there is
nothing to fail about. -/
theorem step_alike {a b : Action} (h : a.Alike S b) (g : Generator) :
    EndsAlike S (g.step a) (g.step b) := by
  have hsame : ∀ {c : Action}, c.pos? = none → c.Alike S b → EndsAlike S (g.step c) (g.step b) := by
    intro c hc hcb
    rw [← hcb.eq_of_pos?_none hc]
    cases hstep : g.step c with
    | ok r => exact .ok r
    | error e =>
      exfalso
      cases c <;> first | cases hstep | cases hc
  obtain ⟨hcontent, hpos⟩ := h
  cases a with
  | declare kind type name x =>
    cases b <;> cases hcontent
    cases hpos with
    | some hxy =>
      simp only [step, declare]
      cases kind <;> dsimp only <;> split
      all_goals first | exact .ok _ | exact .error ⟨rfl, .some hxy⟩
  | use name x =>
    cases b <;> cases hcontent
    cases hpos with
    | some hxy =>
      simp only [step]
      split
      · exact .ok _
      · exact .error ⟨rfl, .some hxy⟩
  | checkInteger value x =>
    cases b <;> cases hcontent
    cases hpos with
    | some hxy =>
      simp only [step]
      split
      · exact .error ⟨rfl, .some hxy⟩
      · exact .ok _
  | checkString content x =>
    cases b <;> cases hcontent
    cases hpos with
    | some hxy =>
      simp only [step, stringFault]
      cases content.toList.find? fun c => decide (maxConstant < c.val) with
      | some c => exact .error ⟨rfl, .some hxy⟩
      | none =>
        by_cases hlength : maxConstant < UInt32.ofNat content.length
        · simp only [if_pos hlength]
          exact .error ⟨rfl, .some hxy⟩
        · simp only [if_neg hlength]
          exact .ok _
  | _ => exact hsame rfl ⟨hcontent, hpos⟩

/-- Two ways in which carrying out actions ends: with the same instructions emitted and alike. -/
structure RunsAlike (S : Position → Position → Prop)
    (r r' : List Event × Except Error Generator) : Prop where
  instructions : Event.instructions r.1 = Event.instructions r'.1
  ends : EndsAlike S r.2 r'.2

/-- The lexemes drawn between actions lead to notes only. -/
theorem run_withoutScans (g : Generator) (actions : List Action) :
    Event.instructions (g.run [] actions).1 =
        Event.instructions (g.run [] (Action.withoutScans actions)).1 ∧
      (g.run [] actions).2 = (g.run [] (Action.withoutScans actions)).2 := by
  induction actions generalizing g with
  | nil => exact ⟨rfl, rfl⟩
  | cons a actions ih =>
    cases ha : a.isScan with
    | true =>
      obtain ⟨lx, rfl⟩ : ∃ lx, a = .scan lx := by
        cases a <;> first | exact ⟨_, rfl⟩ | cases ha
      have hstep : g.step (.scan lx) = .ok (g, [.note (.scanned lx)]) := rfl
      rw [run_cons_of_ok hstep]
      exact ih g
    | false =>
      have hcons : Action.withoutScans (a :: actions) = a :: Action.withoutScans actions := by
        rw [Action.withoutScans, List.filter_cons_of_pos (by rw [ha]; rfl)]
        rfl
      rw [hcons]
      rcases hstep : g.step a with e | ⟨g', new⟩
      · rw [run_cons_of_error hstep, run_cons_of_error hstep]
        exact ⟨rfl, rfl⟩
      · obtain ⟨hinstructions, hends⟩ := ih g'
        rw [run_cons_of_ok hstep, run_cons_of_ok hstep]
        simp only [Event.instructions_append, hinstructions, hends, and_self]

/-- Alike actions, one by one, are carried out alike. -/
theorem run_forall₂ {xs ys : List Action} (h : List.Forall₂ (Action.Alike S) xs ys)
    (g : Generator) : RunsAlike S (g.run [] xs) (g.run [] ys) := by
  induction h generalizing g with
  | nil => exact ⟨rfl, .ok g⟩
  | @cons a b xs ys hab _ ih =>
    have hstep := step_alike hab g
    generalize hx : g.step a = x, hy : g.step b = y at hstep
    cases hstep with
    | ok r =>
      obtain ⟨g', new⟩ := r
      have hrest := ih g'
      rw [run_cons_of_ok hx, run_cons_of_ok hy]
      refine ⟨?_, hrest.ends⟩
      simp only [Event.instructions_append, hrest.instructions]
    | error errors =>
      rw [run_cons_of_error hx, run_cons_of_error hy]
      exact ⟨rfl, .error errors⟩

/-- Actions that are alike apart from the lexemes drawn are carried out alike. -/
theorem run_alike {xs ys : List Action} (h : Action.ListAlike S xs ys) (g : Generator) :
    RunsAlike S (g.run [] xs) (g.run [] ys) := by
  obtain ⟨hxs, hxs'⟩ := g.run_withoutScans xs
  obtain ⟨hys, hys'⟩ := g.run_withoutScans ys
  have hrun := run_forall₂ h g
  constructor
  · rw [hxs, hys]
    exact hrun.instructions
  · rw [hxs', hys']
    exact hrun.ends

/-! ## Beginnings -/

/-- What a beginning of the actions emits is a beginning of what they emit; and where the beginning
fails, so do they, at once. -/
theorem run_of_begins (g : Generator) {xs ys : List Action}
    (h : Action.withoutScans xs <+: Action.withoutScans ys) :
    Event.instructions (g.run [] xs).1 <+: Event.instructions (g.run [] ys).1 ∧
      ∀ e, (g.run [] xs).2 = .error e → (g.run [] ys).2 = .error e ∧
        Event.instructions (g.run [] xs).1 = Event.instructions (g.run [] ys).1 := by
  obtain ⟨hxs, hxs'⟩ := g.run_withoutScans xs
  obtain ⟨hys, hys'⟩ := g.run_withoutScans ys
  obtain ⟨back, hback⟩ := h
  rw [hxs, hxs', hys, hys', ← hback, run_append]
  generalize g.run [] (Action.withoutScans xs) = r
  obtain ⟨events, e | g'⟩ := r
  · exact ⟨List.prefix_refl _, fun f hf => ⟨hf, rfl⟩⟩
  · refine ⟨?_, fun f hf => ?_⟩
    · rw [Event.instructions_append]
      exact List.prefix_append _ _
    · cases hf

end Generator

end JackStack
