import JackStack.Proofs.Code.Cells
import JackStack.Proofs.Code.Depth
import JackStack.Proofs.Code.Placing
import JackStack.Proofs.Translation

/-!
# Operands in bounds

Every push and pop of a compiled class stays inside the cells of its function: those that the line
of the function reserves for its variables, those of its arguments, and those of the variables of
the class. In the scopes that the code of a function is made with, every declared name has a cell
of its own.
-/

namespace JackStack

open JackStack.Tree JackStack.Generator

namespace Tree

/-! ## The cells of a function -/

/-- The names that a class declares with one kind of sharing. -/
def Class.names (c : Class) (sharing : Sharing) : List String :=
  (c.groups.filter (·.sharing = sharing)).flatMap (·.group.names)

/-- The number of cells of each segment for the function of a subroutine, whose line reserves a
number of local ones. -/
def Subroutine.cells (c : Class) (s : Subroutine) (locals : UInt32) : Segment → Option Nat
  | .constant => none
  | .argument => some (s.parameters.length + if s.kind = .method then 1 else 0)
  | .local => some locals.toNat
  | .static => some (c.names .static).length
  | .this => some (c.names .field).length
  | .that => some 1
  | .pointer => some 2
  | .temp => some 1

/-- A group declares as many variables as it has names, all of one kind. -/
theorem Group.countKind_declarations (kind kind' : VarKind) (g : Group) :
    countKind kind (g.declarations kind') = if kind' = kind then g.names.length else 0 := by
  rw [countKind, Group.declarations, List.countP_map]
  by_cases h : kind' = kind
  · rw [if_pos h, List.countP_eq_length.mpr (by simp [h])]
  · rw [if_neg h, List.countP_eq_zero.mpr (by simp [h])]

/-- The names of a kind of sharing are as many as the variables of that kind. -/
theorem Class.length_names (c : Class) (sharing : Sharing) :
    (c.names sharing).length = countKind sharing.varKind c.declarations := by
  obtain ⟨name, groups, subroutines⟩ := c
  simp only [Class.names, Class.declarations]
  induction groups with
  | nil => rfl
  | cons g groups ih =>
    have hgroup : countKind sharing.varKind g.declarations =
        if g.sharing = sharing then g.group.names.length else 0 := by
      obtain ⟨sharing', group⟩ := g
      cases sharing' <;> cases sharing <;> exact group.countKind_declarations _ _
    rw [List.flatMap_cons, countKind, List.countP_append, ← countKind, ← countKind, ← ih, hgroup]
    by_cases h : g.sharing = sharing
    · rw [if_pos h, List.filter_cons_of_pos (by simp [h]), List.flatMap_cons, List.length_append]
    · rw [if_neg h, List.filter_cons_of_neg (by simp [h]), Nat.zero_add]

/-- The arguments that a subroutine declares are its parameters. -/
theorem Subroutine.countKind_argument (s : Subroutine) :
    countKind .argument s.declarations = s.parameters.length := by
  have hparameters : countKind .argument
      (s.parameters.map fun p => ⟨.argument, p.type.text, p.name⟩) = s.parameters.length := by
    rw [countKind, List.countP_map, List.countP_eq_length.mpr (by simp)]
  have hlocals : countKind .argument (s.locals.flatMap (Group.declarations .local)) = 0 := by
    rw [countKind, List.countP_eq_zero]
    intro d hd
    obtain ⟨g, -, hd⟩ := List.mem_flatMap.mp hd
    obtain ⟨name, -, rfl⟩ := List.mem_map.mp hd
    simp
  rw [countKind] at hparameters hlocals ⊢
  rw [Subroutine.declarations, List.countP_append, hparameters, hlocals, Nat.add_zero]

/-- The cells of a function are those of the context it is compiled in. -/
theorem Subroutine.cells_eq {c : Class} {s : Subroutine} (hfits : s.Fits) :
    s.cells c (.ofNat (s.locals.flatMap Group.names).length) = (c.context s).cells := by
  have hlocals := s.countKind_local
  have hle : countKind .local s.declarations ≤ s.declarations.length := List.countP_le_length
  have hlimit : (s.locals.flatMap Group.names).length < UInt32.size := by
    have hlt := hfits.1
    rw [operandLimit] at hlt
    omega
  ext1 segment
  cases segment with
  | argument =>
    change _ = some ((c.context s).receivers + countKind .argument s.declarations)
    rw [s.countKind_argument, Nat.add_comm]
    rfl
  | «local» =>
    simp only [Subroutine.cells, Context.cells, Context.room, Class.context, hlocals,
      UInt32.toNat_ofNat_of_lt' hlimit]
  | static =>
    simp only [Subroutine.cells, Context.cells, Context.room, Class.context, c.length_names,
      Sharing.varKind]
  | this =>
    simp only [Subroutine.cells, Context.cells, Context.room, Class.context, c.length_names,
      Sharing.varKind]
  | constant => rfl
  | that => rfl
  | pointer => rfl
  | temp => rfl

/-- The function of a subroutine: its line, and behind it code whose operands are in bounds. -/
def Subroutine.CompiledTo (c : Class) (s : Subroutine) (f : List Instruction) : Prop :=
  ∃ locals body, f = .function (c.name ++ "." ++ s.name) locals :: body ∧
    Bounded (s.cells c locals) body

/-- The code of a subroutine is a function for it. -/
theorem Subroutine.compiledTo_code {c : Class} (hfits : c.Fits) {s : Subroutine}
    (hs : s ∈ c.subroutines) (n : Nat) : s.CompiledTo c (s.code c n) := by
  have hsfits := hfits.2 s hs
  refine ⟨_, _, rfl, ?_⟩
  rw [Subroutine.cells_eq hsfits]
  exact Subroutine.bounded (Class.roomy hfits.1 hsfits.1) n

/-- All code of subroutines lies in their functions. -/
theorem flatten_functions_subroutineCode {c : Class} {n : Nat} {subs : List Subroutine}
    (hsubs : ∀ s ∈ subs, s.WellFormed c ∧ s.Fits) :
    (functions (subroutineCode c n subs)).flatten = subroutineCode c n subs := by
  induction subs generalizing n with
  | nil => rfl
  | cons s subs ih =>
    obtain ⟨⟨hwf, hfits⟩, hrest⟩ := List.forall_mem_cons.mp hsubs
    rw [functions_subroutineCode_cons hwf hfits, List.flatten_cons, ih hrest, subroutineCode]

end Tree

/-! ## Where bodies begin -/

/-- Carrying out the actions leads to the state, where the body of a subroutine begins, and what is
emitted from there on begins with the function. -/
def Opens (actions : List Action) (g : Generator) (f : List Instruction) : Prop :=
  ∃ front back, actions = front ++ .openBody :: back ∧ (generate front).2 = .ok g ∧
    (functions (Event.instructions (g.run [] (.openBody :: back)).1)).head? = some f

/-- The beginning of a body is found without regard to places. -/
theorem Opens.of_unplaced {actions : List Action} {g : Generator} {f : List Instruction}
    (h : Opens (Action.unplaced actions) g f) : Opens actions g f := by
  obtain ⟨front, back, hsplit, hfront, hfunction⟩ := h
  obtain ⟨front', rest, hwithout, rfl, hrest⟩ := List.map_eq_append_iff.mp hsplit
  obtain ⟨a, back', rfl, ha, rfl⟩ := List.map_eq_cons_iff.mp hrest
  obtain ⟨front₁, rest₁, rfl, hfront₁, hrest₁⟩ := List.filter_eq_append_iff.mp hwithout
  obtain ⟨front₂, back₁, rfl, hfront₂, -, hback₁⟩ := List.filter_eq_cons_iff.mp hrest₁
  obtain rfl : a = .openBody := by
    cases a <;> first | rfl | cases ha
  have hfront₂' : Action.withoutScans front₂ = [] := List.filter_eq_nil_iff.mpr hfront₂
  refine ⟨front₁ ++ front₂, back₁, (List.append_assoc ..).symm, ?_, ?_⟩
  · have hunplaced : Action.unplaced (front₁ ++ front₂) = front'.map (Action.withPos .start) := by
      rw [Action.unplaced, Action.withoutScans_append, hfront₂', List.append_nil, ← hfront₁]
      rfl
    have hends := (run_alike (Action.listAlike_unplaced (front₁ ++ front₂)) {}).ends
    rw [hunplaced] at hends
    rw [generate] at hfront ⊢
    rw [hfront] at hends
    generalize (Generator.run {} [] (front₁ ++ front₂)).2 = r at hends
    cases hends
    rfl
  · have hunplaced : Action.unplaced (.openBody :: back₁) =
        .openBody :: back'.map (Action.withPos .start) := by
      rw [← hback₁]
      rfl
    have hsame := (run_alike (Action.listAlike_unplaced (.openBody :: back₁)) g).instructions
    rw [hunplaced] at hsame
    rwa [hsame]

namespace Tree

/-- The function of a subroutine, with the state in which its body begins: the scope of the
subroutine houses its names, and that of the class is the one given. -/
structure Subroutine.Placed (c : Class) (scope : Scope) (actions : List Action) (s : Subroutine)
    (f : List Instruction) : Prop where
  compiled : s.CompiledTo c f
  housed : ∃ g, Opens actions g f ∧ g.subScope.Houses (s.declarations.map (·.name)) ∧
    g.classScope = scope

/-- Well-formed subroutines lead from between two subroutines to between two others. -/
theorem Between.exists_carries {c : Class} {size : Nat} (hsize : size < UInt32.size)
    {subs : List Subroutine} (hwf : ∀ s ∈ subs, s.WellFormed c)
    (ht : ∀ s ∈ subs, AllPlain size s.tokens) {n : Nat} {g : Generator} (h : Between c n g) :
    ∃ m g', Carries g (subs.flatMap Subroutine.actions) (subroutineCode c n subs) g' ∧
      Between c m g' := by
  induction subs generalizing n g with
  | nil => exact ⟨n, g, carries_nil.mpr ⟨rfl, rfl⟩, h⟩
  | cons s subs ih =>
    obtain ⟨hs, hsubs⟩ := List.forall_mem_cons.mp hwf
    obtain ⟨hts, hts'⟩ := List.forall_mem_cons.mp ht
    have hsub := (h.carries_subroutine hsize hts).mpr ⟨hs, rfl, rfl⟩
    obtain ⟨m, g', hrest, hbetween⟩ := ih hsubs hts' (h.next s)
    exact ⟨m, g', carries_append.mpr ⟨_, _, _, hsub, hrest, rfl⟩, hbetween⟩

/-- From between two subroutines on, every subroutine of a class gets its function. A subroutine
leads to the state between it and the next one, and its own body begins behind its declarations. -/
theorem Between.placed {c : Class} (hc : c.WellFormed) (hfits : c.Fits) {size : Nat}
    (hsize : size < UInt32.size) {subs : List Subroutine} (hsubs : ∀ s ∈ subs, s ∈ c.subroutines)
    (ht : ∀ s ∈ subs, AllPlain size s.tokens) {n : Nat} {g : Generator} (h : Between c n g)
    {front : List Action} {code : List Instruction} (hfront : Carries {} front code g) :
    List.Forall₂ (Subroutine.Placed c g.classScope (front ++ subs.flatMap Subroutine.actions)) subs
      (functions (subroutineCode c n subs)) := by
  induction subs generalizing n g front code with
  | nil => exact .nil
  | cons s subs ih =>
    obtain ⟨hs, hsubs⟩ := List.forall_mem_cons.mp hsubs
    obtain ⟨hts, hts'⟩ := List.forall_mem_cons.mp ht
    have hwf := hc.2 s hs
    have hnew := s.notMem_freshScope hts g
    have hsub := (h.carries_subroutine hsize hts).mpr ⟨hwf, rfl, rfl⟩
    have hplaced := ih hsubs hts' (h.next s) (carries_append.mpr ⟨_, _, _, hfront, hsub, rfl⟩)
    obtain ⟨-, g', hrest, -⟩ :=
      (h.next s).exists_carries hsize (fun s' hs' => hc.2 s' (hsubs s' hs')) hts'
    rw [Subroutine.actions_eq, ← List.cons_append, ← List.cons_append] at hsub
    obtain ⟨g₁, code₁, code₂, hhead, hbody, hcode⟩ := carries_append.mp hsub
    obtain ⟨hnodup, rfl, rfl⟩ := (carries_head hnew).mp hhead
    rw [List.nil_append] at hcode
    subst hcode
    have hopens : Opens (front ++ (s :: subs).flatMap Subroutine.actions) (inside g s)
        (s.code c n) := by
      obtain ⟨events, hrun, -⟩ := carries_append.mpr ⟨_, _, _, hfront, hhead, rfl⟩
      obtain ⟨events', hrun', hevents'⟩ := carries_append.mpr ⟨_, _, _, hbody, hrest, rfl⟩
      refine ⟨_, blockActions s.body ++ subs.flatMap Subroutine.actions, ?_,
        congrArg Prod.snd hrun, ?_⟩
      · simp only [List.flatMap_cons, Subroutine.actions_eq, List.append_assoc, List.cons_append]
      · have hfunctions := functions_subroutineCode_cons hwf (hfits.2 s hs) n subs
        rw [subroutineCode] at hfunctions
        rw [List.cons_append] at hrun'
        rw [hrun', hevents', hfunctions]
        rfl
    rw [functions_subroutineCode_cons hwf (hfits.2 s hs)]
    refine .cons ⟨Subroutine.compiledTo_code hfits hs n, _, hopens, ?_, rfl⟩ ?_
    · exact houses_inside hwf (hfits.2 s hs) hnew
    · rw [List.flatMap_cons, ← List.append_assoc]
      exact hplaced

end Tree

/-- Every push and pop that a compilation has written is in bounds: all of them stand in functions,
and these are the functions of the subroutines of the class, in order. The scopes that the code is
made with give every declared name a cell of its own: the scope of a subroutine those of its
parameters and variables, and the scope of the class, the same throughout, those of the class. -/
theorem compiled_operands_in_bounds {bytes : ByteArray} (hsize : bytes.size < UInt32.size)
    {sink : Sink} {options : Options}
    (h : (compile (Reading.ofBytes bytes.toList) sink options).verdict = .ok ()) :
    let source := Unread.ofReadings (Reading.ofBytes bytes.toList)
    let actions := (Syntax.parse source.outcomes source.finish).actions
    let code := Event.instructions (Run.ofReadings (Reading.ofBytes bytes.toList)).events
    (compile (Reading.ofBytes bytes.toList) sink options).output =
        (codeText options.indent code).toUTF8 ∧
      (functions code).flatten = code ∧
      ∃ (c : Tree.Class) (g : Generator), ScansTo bytes c.tokens ∧
        (generate actions).2 = .ok g ∧ g.classScope.Houses (c.declarations.map (·.name)) ∧
        List.Forall₂ (Subroutine.Placed c g.classScope actions) c.subroutines
          (functions code) := by
  intro source actions code
  obtain ⟨c, hscans, hwf, hfits, (hcode : code = c.code)⟩ :=
    Run.exists_class_of_verdict hsize (Run.verdict_of_deliverFrom h)
  have hplain : ∀ s ∈ c.subroutines, AllPlain bytes.size s.tokens := by
    intro s hs t ht
    apply hscans.plain
    have hmem : t ∈ c.subroutines.flatMap Subroutine.tokens := List.mem_flatMap.mpr ⟨s, hs, ht⟩
    simp [Class.tokens, hmem]
  have hactions : Action.unplaced actions = c.actions := by
    obtain ⟨lexemes, htokens, houtcomes⟩ := hscans
    obtain ⟨xs, r, hparse, hxs⟩ := Syntax.parse_of_tokens htokens source.finish
    rw [← houtcomes] at hparse
    rw [← hxs]
    exact congrArg (fun p => Action.unplaced p.actions) hparse
  have hdeclared := Class.carries_declared.mpr ⟨hwf.1, rfl, rfl⟩
  have hbetween : Between c 0 c.declared := ⟨rfl, rfl, rfl⟩
  obtain ⟨m, g', hcarries, hbetween'⟩ := hbetween.exists_carries hsize hwf.2 hplain
  have hscope : g'.classScope = c.declared.classScope :=
    hbetween'.classScope.trans hbetween.classScope.symm
  have hplaced := hbetween.placed hwf hfits hsize (fun _ hs => hs) hplain hdeclared
  rw [List.cons_append, ← Class.actions_eq] at hplaced
  refine ⟨compile_output h, ?_, c, g', hscans, ?_, hbetween'.houses_class hwf hfits, ?_⟩
  · rw [hcode]
    exact flatten_functions_subroutineCode fun s hs => ⟨hwf.2 s hs, hfits.2 s hs⟩
  · have hall := carries_append.mpr ⟨_, _, _, hdeclared, hcarries, rfl⟩
    rw [List.cons_append, ← Class.actions_eq, ← hactions, carries_unplaced] at hall
    obtain ⟨events, hrun, -⟩ := hall
    exact congrArg Prod.snd hrun
  · rw [hcode, hscope]
    refine hplaced.imp ?_
    rintro s f ⟨hcompiled, g₁, hopens, hhoused, hclass⟩
    rw [← hactions] at hopens
    exact ⟨hcompiled, g₁, hopens.of_unplaced, hhoused, hclass⟩

/-- The one function of the text of `counter`, a method that also has a parameter, two variables, a
field and a static variable. -/
theorem counterText_operands :
    counterText.toUTF8.size < UInt32.size ∧
    (compile (Reading.ofBytes counterText.toUTF8.toList) {} {}).verdict = .ok () ∧
    let source := Unread.ofReadings (Reading.ofBytes counterText.toUTF8.toList)
    let actions := (Syntax.parse source.outcomes source.finish).actions
    let code := Event.instructions
      (Run.ofReadings (Reading.ofBytes counterText.toUTF8.toList)).events
    ∃ (g : Generator), (generate actions).2 = .ok g ∧ g.classScope.Houses ["count", "all"] ∧
      List.Forall₂ (Subroutine.Placed counter g.classScope actions) counter.subroutines
        (functions code) := by
  obtain ⟨-, -, c, g, hscans, hg, hclass, hplaced⟩ :=
    compiled_operands_in_bounds counterText_size counterText_compiled
  obtain rfl : c = counter := Class.tokens_injective (hscans.unique counterText_scans)
  exact ⟨counterText_size, counterText_compiled, g, hg, hclass, hplaced⟩

end JackStack
