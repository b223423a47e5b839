import JackStack.Proofs.Code.Carrying

/-!
# Scopes and classes

The scopes of the generator hold the declarations of a class and of a subroutine, each variable
with its number, and refuse a name exactly when they hold it already. Together with what holds for
statements this settles whole classes: a class is carried out exactly when it is well-formed, and
into its code.
-/

namespace JackStack

open JackStack.Tree

namespace Scope

/-- The names of a scope. -/
def names (s : Scope) : List String := s.members.map (·.name)

/-- The scope with one more variable. -/
def add (s : Scope) (d : Declaration) : Scope :=
  s.push ⟨d.name, d.type, d.kind, s.count d.kind⟩

/-- The scope with more variables. -/
def extend (s : Scope) (ds : List Declaration) : Scope := ds.foldl add s

/-- A name is not found exactly where it is none of the names. -/
theorem find?_eq_none_iff {s : Scope} {name : String} : s.find? name = none ↔ name ∉ s.names := by
  rw [find?_eq, List.find?_eq_none, names, List.mem_map]
  simp

/-- A new name is declared with the count of its kind for its number. -/
theorem declare?_of_not_mem {s : Scope} {d : Declaration} (h : d.name ∉ s.names) :
    s.declare? d.kind d.type d.name = some (s.count d.kind, s.add d) := by
  rw [declare?, find?_eq_none_iff.mpr h]
  rfl

/-- A name is not declared a second time. -/
theorem declare?_of_mem {s : Scope} {d : Declaration} (h : d.name ∈ s.names) :
    s.declare? d.kind d.type d.name = none := by
  rw [declare?_eq_none_iff, Option.isSome_iff_ne_none]
  exact fun hn => find?_eq_none_iff.mp hn h

/-- A variable adds its name behind the others. -/
theorem names_add (s : Scope) (d : Declaration) : (s.add d).names = s.names ++ [d.name] := by
  simp [names, add]

/-- A variable adds one to the count of its kind and nothing to the others. -/
theorem countP_add (s : Scope) (d : Declaration) (kind : VarKind) :
    (s.add d).members.countP (·.kind = kind) =
      s.members.countP (·.kind = kind) + countKind kind [d] := by
  simp [add, countKind, List.countP_append, List.countP_cons]

/-- Variables in a row add to the count of a kind as many as are of that kind. -/
theorem countP_extend (s : Scope) (ds : List Declaration) (kind : VarKind) :
    (s.extend ds).members.countP (·.kind = kind) =
      s.members.countP (·.kind = kind) + countKind kind ds := by
  induction ds generalizing s with
  | nil => rfl
  | cons d ds ih =>
    rw [extend, List.foldl_cons, ← extend, ih, countP_add, Nat.add_assoc]
    simp [countKind, List.countP_cons, Nat.add_comm]

/-- What is found stays found. -/
theorem find?_extend_of_some {s : Scope} {ds : List Declaration} {name : String} {v : Variable}
    (h : s.find? name = some v) : (s.extend ds).find? name = some v := by
  induction ds generalizing s with
  | nil => exact h
  | cons d ds ih =>
    refine ih ?_
    rw [find?_eq] at h ⊢
    rw [add, members_push, List.find?_append, h]
    rfl

/-- A scope that numbers its variables as if the front were declared in it finds in its extension
what the declarations say. -/
theorem find?_extend {receivers : Nat} {s : Scope} {front ds : List Declaration} {name : String}
    (hcount : ∀ kind, s.members.countP (·.kind = kind) =
      (if kind = .argument then receivers else 0) + countKind kind front)
    (hname : s.find? name = none) :
    ((s.extend ds).find? name).map Variable.data =
      (slotAmong receivers name front ds).map Slot.data := by
  induction ds generalizing s front with
  | nil => rw [extend, List.foldl_nil, hname, slotAmong]; rfl
  | cons d ds ih =>
    by_cases h : d.name = name
    · have hfound : (s.add d).find? name = some ⟨d.name, d.type, d.kind, s.count d.kind⟩ := by
        rw [find?_eq] at hname ⊢
        rw [add, members_push, List.find?_append, hname]
        simp [h]
      have hextend : ((s.add d).extend ds).find? name = _ := find?_extend_of_some hfound
      rw [extend, List.foldl_cons, ← extend, hextend, slotAmong, if_pos h]
      simp [Variable.data, Slot.data, count_eq, hcount]
    · have hnone : (s.add d).find? name = none := by
        rw [find?_eq] at hname ⊢
        rw [add, members_push, List.find?_append, hname]
        simp [h]
      rw [slotAmong, if_neg h]
      refine ih (fun kind => ?_) hnone
      rw [countP_add, hcount, Nat.add_assoc]
      simp [countKind, List.countP_append]

end Scope

namespace Generator

/-- The variables of this kind belong to the subroutine. -/
def ownKind : VarKind → Bool
  | .static | .field => false
  | .argument | .local => true

/-- The scope of the subroutine or that of the class. -/
def scopeOf (g : Generator) (own : Bool) : Scope := if own then g.subScope else g.classScope

/-- The generator with another scope of the subroutine or of the class. -/
def withScope (g : Generator) (own : Bool) (s : Scope) : Generator :=
  if own then { g with subScope := s } else { g with classScope := s }

/-- The scope that was put there is found there. -/
theorem scopeOf_withScope (g : Generator) (own : Bool) (s : Scope) :
    (g.withScope own s).scopeOf own = s := by
  cases own <;> rfl

/-- Of two scopes put in the same place the last one stays. -/
theorem withScope_withScope (g : Generator) (own : Bool) (s s' : Scope) :
    (g.withScope own s).withScope own s' = g.withScope own s' := by
  cases own <;> rfl

theorem withScope_scopeOf (g : Generator) (own : Bool) : g.withScope own (g.scopeOf own) = g := by
  cases own <;> rfl

/-- A declaration adds a variable to its scope and emits nothing, or fails with the name. -/
theorem step_declare (g : Generator) (kind : VarKind) (type name : String) (pos : Position) :
    g.step (.declare kind type name pos) =
      match (g.scopeOf (ownKind kind)).declare? kind type name with
      | some (_, scope) => .ok (g.withScope (ownKind kind) scope, [])
      | none => .error (.redefined pos name) := by
  simp only [step, declare]
  cases kind <;> simp only [scopeOf, withScope, ownKind] <;> split <;> simp_all

/-- Declarations are carried out exactly when their names are new and different. -/
theorem carries_declarations {own : Bool} {ds : List Declaration}
    (hds : ∀ d ∈ ds, ownKind d.kind = own) {g g' : Generator} {code : List Instruction} :
    Carries g (ds.map fun d => .declare d.kind d.type d.name .start) code g' ↔
      ((∀ d ∈ ds, d.name ∉ (g.scopeOf own).names) ∧ (ds.map (·.name)).Nodup) ∧ code = [] ∧
        g' = g.withScope own ((g.scopeOf own).extend ds) := by
  induction ds generalizing g code with
  | nil =>
    rw [List.map_nil, carries_nil, Scope.extend, List.foldl_nil, withScope_scopeOf]
    simp
  | cons d ds ih =>
    obtain ⟨hd, hds⟩ := List.forall_mem_cons.mp hds
    have hstep := g.step_declare d.kind d.type d.name .start
    rw [hd] at hstep
    by_cases h : d.name ∈ (g.scopeOf own).names
    · rw [Scope.declare?_of_mem h] at hstep
      refine iff_of_false (not_carries_cons_of_error hstep) ?_
      rintro ⟨⟨hnew, -⟩, -⟩
      exact hnew d List.mem_cons_self h
    · rw [Scope.declare?_of_not_mem h] at hstep
      rw [List.map_cons, carries_cons_of_ok hstep]
      simp only [ih hds, scopeOf_withScope, withScope_withScope, Scope.names_add, List.map_cons,
        List.nodup_cons, List.forall_mem_cons, List.mem_append, List.mem_singleton, not_or,
        List.mem_map, not_exists, not_and]
      constructor
      · rintro ⟨back, rfl, ⟨hnew, hnodup⟩, rfl, rfl⟩
        exact ⟨⟨⟨h, fun e he => (hnew e he).1⟩, fun e he => (hnew e he).2, hnodup⟩, rfl, rfl⟩
      · rintro ⟨⟨⟨-, hnew⟩, hne, hnodup⟩, rfl, rfl⟩
        exact ⟨[], rfl, ⟨fun e he => ⟨hnew e he, hne e he⟩, hnodup⟩, rfl, rfl⟩

end Generator

namespace Tree

open JackStack.Generator

/-- The action of a declaration. -/
def Declaration.action (d : Declaration) : Action := .declare d.kind d.type d.name .start

/-- The actions of a group of variables are its declarations. -/
theorem Group.actions_eq (kind : VarKind) (g : Group) :
    g.actions kind = (g.declarations kind).map Declaration.action := by
  simp [Group.actions, Group.declarations, Group.names, Declaration.action]

/-- The actions of a class: its name, its declarations and then its subroutines. -/
theorem Class.actions_eq (c : Class) : c.actions =
    .nameClass c.name :: (c.declarations.map Declaration.action ++
      c.subroutines.flatMap Subroutine.actions) := by
  have h : ∀ g : ClassGroup, g.actions = g.declarations.map Declaration.action := by
    rintro ⟨_ | _, group⟩ <;> exact Group.actions_eq _ group
  simp only [Class.actions, Class.declarations, List.map_flatMap, ← h, List.cons_append]

/-- The actions of a subroutine: its kind and name, its declarations and then its body. -/
theorem Subroutine.actions_eq (s : Subroutine) : s.actions =
    .openSub s.kind :: .nameSub s.name :: (s.declarations.map Declaration.action ++
      .openBody :: blockActions s.body) := by
  have hp : s.parameters.flatMap Parameter.actions =
      (s.parameters.map fun p => (⟨.argument, p.type.text, p.name⟩ : Declaration)).map
        Declaration.action := by
    rw [List.map_map, List.map_eq_flatMap]
    rfl
  simp only [Subroutine.actions, Subroutine.declarations, List.map_append, List.map_flatMap, hp,
    ← Group.actions_eq, List.cons_append, List.append_assoc]

/-- A class declares no variable of a subroutine. -/
theorem Class.ownKind_declarations (c : Class) : ∀ d ∈ c.declarations, ownKind d.kind = false := by
  intro d hd
  obtain ⟨⟨_ | _, group⟩, -, hd⟩ := List.mem_flatMap.mp hd <;>
    obtain ⟨name, -, rfl⟩ := List.mem_map.mp hd <;> rfl

/-- A subroutine declares no variable of the class. -/
theorem Subroutine.ownKind_declarations (s : Subroutine) :
    ∀ d ∈ s.declarations, ownKind d.kind = true := by
  intro d hd
  obtain hd | hd := List.mem_append.mp hd
  · obtain ⟨p, -, rfl⟩ := List.mem_map.mp hd
    rfl
  · obtain ⟨group, -, hd⟩ := List.mem_flatMap.mp hd
    obtain ⟨name, -, rfl⟩ := List.mem_map.mp hd
    rfl

/-- The generator stands between two subroutines of the class, after a number of labels. -/
structure Between (c : Class) (n : Nat) (g : Generator) : Prop where
  className : g.className = c.name
  classScope : g.classScope = Scope.empty.extend c.declarations
  labels : g.labels = n

/-- The generator inside a subroutine, behind its declarations. -/
def inside (g : Generator) (s : Subroutine) : Generator :=
  { g with
    subKind := s.kind
    subName := s.name
    subScope := (g.freshScope s.kind).extend s.declarations }

/-- Behind a subroutine the generator stands between it and the next one. -/
theorem Between.next {c : Class} {n : Nat} {g : Generator} (h : Between c n g) (s : Subroutine) :
    Between c (n + blockLabels s.body) { inside g s with labels := n + blockLabels s.body } :=
  ⟨h.className, h.classScope, rfl⟩

/-- Inside a subroutine the generator finds what the context says. -/
theorem Between.agrees {c : Class} {n : Nat} {g : Generator} (h : Between c n g)
    (s : Subroutine) : Agrees (inside g s) (c.context s) := by
  refine ⟨h.className, rfl, ?_⟩
  intro name hname
  have hclass : (g.classScope.find? name).map Variable.data =
      (slotAmong 0 name [] c.declarations).map Slot.data := by
    rw [h.classScope]
    exact Scope.find?_extend (fun kind => by simp [countKind]) rfl
  have hsub : (((g.freshScope s.kind).extend s.declarations).find? name).map Variable.data =
      (slotAmong (c.context s).receivers name [] s.declarations).map Slot.data := by
    refine Scope.find?_extend (fun kind => ?_) ?_
    · unfold Generator.freshScope Context.receivers Class.context
      rcases s with ⟨_ | _ | _, _⟩ <;> cases kind <;> rfl
    · unfold Generator.freshScope
      rcases s with ⟨_ | _ | _, _⟩ <;> simp [Scope.find?_eq, Ne.symm hname]
  rw [Generator.find?, Context.slot?, Option.map_or, Option.map_or]
  exact congrArg₂ Option.or hsub hclass

/-- A body begins with the line of the function and what its kind asks for. -/
theorem Between.step_openBody {c : Class} {n : Nat} {g : Generator} (h : Between c n g)
    (s : Subroutine) : ∃ new, (inside g s).step .openBody = .ok (inside g s, new) ∧
      Event.instructions new =
        .function (c.name ++ "." ++ s.name) (.ofNat (s.locals.flatMap Group.names).length) ::
          (c.context s).prologue := by
  have hlocals : (inside g s).subScope.count .local =
      .ofNat (s.locals.flatMap Group.names).length := by
    have hfresh : (g.freshScope s.kind).members.countP (·.kind = .local) = 0 := by
      unfold Generator.freshScope
      cases s.kind <;> rfl
    rw [Scope.count_eq, inside, Scope.countP_extend, hfresh, Nat.zero_add, s.countKind_local]
  have hprologue : (inside g s).prologue = (c.context s).prologue := by
    have hfields : g.classScope.count .field = .ofNat (countKind .field c.declarations) := by
      rw [Scope.count_eq, h.classScope, Scope.countP_extend]
      simp
    unfold Generator.prologue Context.prologue
    rcases s with ⟨_ | _ | _, _⟩ <;> simp [inside, Class.context, hfields]
  refine ⟨_, rfl, ?_⟩
  change Event.instructions (emitAll _) = _
  rw [instructions_emitAll, hlocals, hprologue]
  exact congrArg (· :: _) (congrArg₂ Instruction.function (by rw [inside, h.className]) rfl)

/-- The names of a group stand among its tokens. -/
theorem Group.mem_tokens {g : Group} {name : String} (h : name ∈ g.names) :
    .identifier name ∈ g.tokens := by
  obtain ⟨type, first, others⟩ := g
  rcases List.mem_cons.mp h with rfl | h
  · simp [Group.tokens]
  · have hmem : .identifier name ∈ nameTokens others :=
      List.mem_flatMap.mpr ⟨name, h, by simp⟩
    simp [Group.tokens, hmem]

/-- The names of parameters stand among their tokens. -/
theorem Parameter.mem_tokens {p : Parameter} {ps : List Parameter} (h : p ∈ ps) :
    .identifier p.name ∈ parameterTokens ps := by
  cases ps with
  | nil => cases h
  | cons q ps =>
    rw [parameterTokens, List.mem_append]
    rcases List.mem_cons.mp h with rfl | h
    · exact .inl (by simp [Parameter.tokens])
    · exact .inr (List.mem_flatMap.mpr ⟨p, h, by simp [Parameter.tokens]⟩)

/-- The names of a subroutine are among its tokens. -/
theorem Subroutine.mem_tokens {s : Subroutine} {d : Declaration} (hd : d ∈ s.declarations) :
    .identifier d.name ∈ s.tokens := by
  rcases List.mem_append.mp hd with hd | hd
  · obtain ⟨p, hp, rfl⟩ := List.mem_map.mp hd
    simp [Subroutine.tokens, Parameter.mem_tokens hp]
  · obtain ⟨g, hg, hd⟩ := List.mem_flatMap.mp hd
    obtain ⟨name, hname, rfl⟩ := List.mem_map.mp hd
    have hmem : .identifier name ∈ localTokens s.locals :=
      List.mem_flatMap.mpr ⟨g, hg, List.mem_cons_of_mem _ (Group.mem_tokens hname)⟩
    simp [Subroutine.tokens, hmem]

/-- The head of a subroutine is carried out exactly when its names are different. -/
theorem carries_head {g g' : Generator} {s : Subroutine} {code : List Instruction}
    (hnew : ∀ d ∈ s.declarations, d.name ∉ (g.freshScope s.kind).names) :
    Carries g (.openSub s.kind :: .nameSub s.name :: s.declarations.map Declaration.action)
      code g' ↔ (s.declarations.map (·.name)).Nodup ∧ code = [] ∧ g' = inside g s := by
  have hopen : g.step (.openSub s.kind) =
    .ok ({ g with subKind := s.kind, subScope := g.freshScope s.kind }, []) := rfl
  have hname : ({ g with subKind := s.kind, subScope := g.freshScope s.kind } : Generator).step
      (.nameSub s.name) = .ok ({ g with
        subKind := s.kind, subName := s.name, subScope := g.freshScope s.kind },
        [.note (.subBegun s.kind g.className s.name)]) := rfl
  rw [carries_cons_of_ok hopen]
  constructor
  · rintro ⟨back, rfl, hback⟩
    obtain ⟨back, rfl, hds⟩ := (carries_cons_of_ok hname).mp hback
    obtain ⟨⟨-, hnodup⟩, rfl, rfl⟩ := (carries_declarations s.ownKind_declarations).mp hds
    exact ⟨hnodup, rfl, rfl⟩
  · rintro ⟨hnodup, rfl, rfl⟩
    refine ⟨[], rfl, (carries_cons_of_ok hname).mpr ⟨[], rfl, ?_⟩⟩
    exact (carries_declarations s.ownKind_declarations).mpr ⟨⟨hnew, hnodup⟩, rfl, rfl⟩

/-- The scope that a subroutine starts with holds none of its names. -/
theorem Subroutine.notMem_freshScope {size : Nat} (s : Subroutine) (ht : AllPlain size s.tokens)
    (g : Generator) : ∀ d ∈ s.declarations, d.name ∉ (g.freshScope s.kind).names := by
  intro d hd
  have hthis := ne_this_of_plain (ht _ (Subroutine.mem_tokens hd))
  unfold Generator.freshScope Scope.names
  cases s.kind <;> simp [hthis]

/-- A subroutine is carried out exactly when it is well-formed, and into its code. -/
theorem Between.carries_subroutine {c : Class} {n : Nat} {g g' : Generator} (h : Between c n g)
    {size : Nat} (hsize : size < UInt32.size) {s : Subroutine} (ht : AllPlain size s.tokens)
    {code : List Instruction} : Carries g s.actions code g' ↔
      s.WellFormed c ∧ code = s.code c n ∧
        g' = { inside g s with labels := n + blockLabels s.body } := by
  have hnew := s.notMem_freshScope ht g
  have hplain : AllPlain size (blockTokens s.body) := by
    intro t hmem
    exact ht t (by simp [Subroutine.tokens, hmem])
  have hblock := block_yields hsize (h.agrees s) s.body hplain
  obtain ⟨new, hbody, hcode⟩ := h.step_openBody s
  have hfull : Event.instructions new ++ blockCode (c.context s) n s.body = s.code c n := by
    rw [hcode]
    rfl
  obtain rfl := h.labels
  rw [Subroutine.actions_eq, ← List.cons_append, ← List.cons_append, carries_append]
  constructor
  · rintro ⟨g₁, code₁, code₂, hhead, htail, rfl⟩
    obtain ⟨hnodup, rfl, rfl⟩ := (carries_head hnew).mp hhead
    obtain ⟨back, rfl, hback⟩ := (carries_cons_of_ok hbody).mp htail
    obtain ⟨hmet, rfl, rfl⟩ := (hblock _ _).mp hback
    exact ⟨⟨hnodup, hmet⟩, hfull, rfl⟩
  · rintro ⟨⟨hnodup, hmet⟩, rfl, rfl⟩
    refine ⟨inside g s, [], _, (carries_head hnew).mpr ⟨hnodup, rfl, rfl⟩, ?_, rfl⟩
    exact (carries_cons_of_ok hbody).mpr ⟨_, hfull.symm, (hblock _ _).mpr ⟨hmet, rfl, rfl⟩⟩

/-- Subroutines are carried out exactly when they are well-formed, and into their code. -/
theorem Between.carries_subroutines {c : Class} {size : Nat} (hsize : size < UInt32.size)
    {subs : List Subroutine} (ht : ∀ s ∈ subs, AllPlain size s.tokens) {n : Nat} {g : Generator}
    (h : Between c n g) (code : List Instruction) :
    (∃ g', Carries g (subs.flatMap Subroutine.actions) code g') ↔
      (∀ s ∈ subs, s.WellFormed c) ∧ code = subroutineCode c n subs := by
  induction subs generalizing n g code with
  | nil => simp [carries_nil, subroutineCode]
  | cons s subs ih =>
    obtain ⟨hs, hsubs⟩ := List.forall_mem_cons.mp ht
    have hih := ih hsubs (h.next s)
    simp only [List.flatMap_cons, carries_append, h.carries_subroutine hsize hs,
      List.forall_mem_cons, subroutineCode]
    constructor
    · rintro ⟨g', _, _, back, ⟨hwf, rfl, rfl⟩, hback, rfl⟩
      obtain ⟨hwfs, rfl⟩ := (hih _).mp ⟨g', hback⟩
      exact ⟨⟨hwf, hwfs⟩, rfl⟩
    · rintro ⟨⟨hwf, hwfs⟩, rfl⟩
      obtain ⟨g', hback⟩ := (hih _).mpr ⟨hwfs, rfl⟩
      exact ⟨g', _, _, _, ⟨hwf, rfl, rfl⟩, hback, rfl⟩

/-- The state in which the subroutines of a class begin. -/
def Class.declared (c : Class) : Generator :=
  { className := c.name, classScope := Scope.empty.extend c.declarations }

/-- The declarations of a class are carried out exactly when their names are different. -/
theorem Class.carries_declared {c : Class} {g : Generator} {code : List Instruction} :
    Carries {} (.nameClass c.name :: c.declarations.map Declaration.action) code g ↔
      (c.declarations.map (·.name)).Nodup ∧ code = [] ∧ g = c.declared := by
  have hname : ({} : Generator).step (.nameClass c.name) =
    .ok ({ className := c.name }, [.note (.classBegun c.name)]) := rfl
  have hds : ∀ {code' g'}, Carries { className := c.name }
      (c.declarations.map Declaration.action) code' g' ↔ _ :=
    carries_declarations c.ownKind_declarations
  rw [carries_cons_of_ok hname]
  constructor
  · rintro ⟨back, rfl, hback⟩
    obtain ⟨⟨-, hnodup⟩, rfl, rfl⟩ := hds.mp hback
    exact ⟨hnodup, rfl, rfl⟩
  · rintro ⟨hnodup, rfl, rfl⟩
    exact ⟨[], rfl, hds.mpr ⟨⟨fun _ _ => List.not_mem_nil, hnodup⟩, rfl, rfl⟩⟩

/-- The class is carried out and the code is emitted for it. -/
def Class.Emits (c : Class) (code : List Instruction) : Prop := ∃ g, Carries {} c.actions code g

/-- The code of a class is that of its subroutines. -/
theorem Class.emits_iff {c : Class} {code : List Instruction} :
    c.Emits code ↔ (c.declarations.map (·.name)).Nodup ∧
      ∃ g, Carries c.declared (c.subroutines.flatMap Subroutine.actions) code g := by
  rw [Emits, Class.actions_eq, ← List.cons_append]
  simp only [carries_append, Class.carries_declared]
  constructor
  · rintro ⟨g, _, _, back, ⟨hnodup, rfl, rfl⟩, hback, rfl⟩
    exact ⟨hnodup, g, hback⟩
  · rintro ⟨hnodup, g, hback⟩
    exact ⟨g, _, _, code, ⟨hnodup, rfl, rfl⟩, hback, rfl⟩

/-- A class is carried out exactly when it is well-formed, and into its code. -/
theorem Class.carries {c : Class} {size : Nat} (hsize : size < UInt32.size)
    (ht : AllPlain size c.tokens) {code : List Instruction} :
    (∃ g', Carries {} c.actions code g') ↔ c.WellFormed ∧ code = c.code := by
  have hbetween : Between c 0 c.declared := ⟨rfl, rfl, rfl⟩
  have hplain : ∀ s ∈ c.subroutines, AllPlain size s.tokens := by
    intro s hs t hmem
    have hmem' : t ∈ c.subroutines.flatMap Subroutine.tokens := List.mem_flatMap.mpr ⟨s, hs, hmem⟩
    exact ht t (by simp [Class.tokens, hmem'])
  rw [← Emits, emits_iff, hbetween.carries_subroutines hsize hplain, ← and_assoc]
  rfl

end Tree

end JackStack
