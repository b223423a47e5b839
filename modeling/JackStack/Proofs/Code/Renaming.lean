import JackStack.Proofs.Code.Raising
import JackStack.Proofs.Grammar.Renaming
import Mathlib.Data.List.Nodup

/-!
# Code does not depend on the names of variables

Two generators that find the same variables under different names do the same, one step after the
other: the code shows the kind, the number and the type of a variable, never its name. A class and
the same class with another name for a variable bring two generators into such states at the
beginning of every body, so the same code is emitted for both.
-/

namespace JackStack

open JackStack.Tree

namespace Generator

/-- A call emits its callee with the arguments counted. -/
theorem step_call (g : Generator) (owner : Option String) (name : String) (args : Nat) :
    g.step (.call owner name args) = .ok (g, emitAll
      [.call (g.callee owner name).1 (.ofNat (args + (g.callee owner name).2))]) := rfl

/-- The second generator knows by other names what the first one knows: for the names that may come
up, it finds under the other name a variable with the same data. What is no variable keeps its
name, which may be that of a class. -/
structure Aliases (Known : String → Prop) (ρ : String → String) (g h : Generator) : Prop where
  className : h.className = g.className
  subName : h.subName = g.subName
  subKind : h.subKind = g.subKind
  labels : h.labels = g.labels
  branches : h.branches = g.branches
  locals : h.subScope.count .local = g.subScope.count .local
  fields : h.classScope.count .field = g.classScope.count .field
  find : ∀ name, Known name →
    (h.find? (ρ name)).map Variable.data = (g.find? name).map Variable.data
  foreign : ∀ name, Known name → g.find? name = none → ρ name = name

namespace Aliases

variable {Known : String → Prop} {ρ : String → String} {g g' h : Generator}

/-- Either nothing is found on both sides, or the same on both. -/
theorem find_cases (hgh : Aliases Known ρ g h) {name : String} (hname : Known name) :
    (g.find? name = none ∧ h.find? (ρ name) = none ∧ ρ name = name) ∨
      ∃ v w, g.find? name = some v ∧ h.find? (ρ name) = some w ∧ w.data = v.data := by
  have hfind := hgh.find name hname
  rcases hg : g.find? name with _ | v <;> rcases hh : h.find? (ρ name) with _ | w <;>
    rw [hg, hh] at hfind
  · exact .inl ⟨rfl, rfl, hgh.foreign name hname hg⟩
  · cases hfind
  · cases hfind
  · exact .inr ⟨v, w, rfl, rfl, Option.some.inj hfind⟩

/-- What depends on the data of a variable is the same on both sides. -/
theorem map_find? (hgh : Aliases Known ρ g h) {name : String} (hname : Known name)
    {code : Variable → Instruction} (hcode : ∀ v w, v.data = w.data → code v = code w) :
    (h.find? (ρ name)).toList.map code = (g.find? name).toList.map code := by
  obtain ⟨hg, hh, -⟩ | ⟨v, w, hg, hh, hdata⟩ := hgh.find_cases hname
  · rw [hg, hh]
  · rw [hg, hh]
    exact congrArg (fun i => [i]) (hcode w v hdata)

/-- Variables of the same kind and number are pushed alike. -/
theorem push_eq (v w : Variable) (h : v.data = w.data) : v.push = w.push := by
  have hplace : (v.kind, v.index) = (w.kind, w.index) := congrArg Prod.snd h
  rw [Variable.push, Variable.push, (Prod.mk.inj hplace).1, (Prod.mk.inj hplace).2]

/-- Variables of the same kind and number are popped alike. -/
theorem pop_eq (v w : Variable) (h : v.data = w.data) : v.pop = w.pop := by
  have hplace : (v.kind, v.index) = (w.kind, w.index) := congrArg Prod.snd h
  rw [Variable.pop, Variable.pop, (Prod.mk.inj hplace).1, (Prod.mk.inj hplace).2]

/-- A renamed call has the callee of the call. -/
theorem callee_eq (hgh : Aliases Known ρ g h) {owner : Option String}
    (howner : ∀ first ∈ owner, Known first) (name : String) :
    h.callee (owner.map ρ) name = g.callee owner name := by
  cases owner with
  | none => simp only [Option.map_none, callee, hgh.subKind, hgh.className]
  | some first =>
    simp only [Option.map_some, callee]
    obtain ⟨hg, hh, hsame⟩ | ⟨v, w, hg, hh, hdata⟩ := hgh.find_cases (howner first rfl)
    · rw [hg, hh, hsame]
    · rw [hg, hh]
      exact congrArg (fun type => (type ++ "." ++ name, 1)) (congrArg Prod.fst hdata)

/-- A branch emits the same under other names. -/
theorem onBranch_eq (hgh : Aliases Known ρ g h) (code : String → String → List Instruction) :
    h.onBranch code = g.onBranch code := by
  simp only [onBranch, label, hgh.branches, hgh.className]

/-- What stands in front of the statements is the same under other names. -/
theorem prologue_eq (hgh : Aliases Known ρ g h) : h.prologue = g.prologue := by
  simp only [prologue, hgh.subKind, hgh.fields]

/-- Labels have nothing to do with names. -/
theorem relabel (hgh : Aliases Known ρ g h) (labels : Nat) (branches : List Nat) :
    Aliases Known ρ { g with labels, branches } { h with labels, branches } :=
  { hgh with labels := rfl, branches := rfl, find := hgh.find, foreign := hgh.foreign }

/-- An action that the first generator carries out is carried out by the second one under the other
names, with the same instructions. -/
theorem step (hgh : Aliases Known ρ g h) {a : Action} (ha : a.isInner = true)
    (hnames : ∀ n ∈ a.lookups, Known n) {new : List Event} (hstep : g.step a = .ok (g', new)) :
    ∃ h' new', h.step (a.rename ρ) = .ok (h', new') ∧
      Event.instructions new' = Event.instructions new ∧ Aliases Known ρ g' h' := by
  cases a with
  | nameClass | declare | openSub => cases ha
  | nameSub name =>
    cases hstep
    exact ⟨_, _, rfl, rfl, { hgh with subName := rfl, find := hgh.find, foreign := hgh.foreign }⟩
  | openBody =>
    cases hstep
    refine ⟨h, _, rfl, ?_, hgh⟩
    change Event.instructions (emitAll _) = Event.instructions (emitAll _)
    rw [hgh.className, hgh.subName, hgh.locals, hgh.prologue_eq]
  | use name pos =>
    obtain ⟨hg, -⟩ | ⟨v, w, hg, hh, -⟩ := hgh.find_cases (hnames name List.mem_cons_self)
    · simp only [Generator.step, hg] at hstep
      cases hstep
    · simp only [Generator.step, hg] at hstep
      cases hstep
      exact ⟨h, [], by simp only [Action.rename, Generator.step, hh], rfl, hgh⟩
  | load name | receive name =>
    cases hstep
    have hcode := hgh.map_find? (hnames name List.mem_cons_self) push_eq
    exact ⟨h, _, rfl, congrArg (fun code => Event.instructions (emitAll code)) hcode, hgh⟩
  | store name =>
    cases hstep
    have hcode := hgh.map_find? (hnames name List.mem_cons_self) pop_eq
    exact ⟨h, _, rfl, congrArg (fun code => Event.instructions (emitAll code)) hcode, hgh⟩
  | index name =>
    cases hstep
    have hcode := hgh.map_find? (hnames name List.mem_cons_self) push_eq
    exact ⟨h, _, rfl, congrArg (fun code => Event.instructions (emitAll (code ++ _))) hcode, hgh⟩
  | call owner name args =>
    rw [step_call] at hstep
    cases hstep
    have howner : ∀ first ∈ owner, Known first := by
      rintro first ⟨⟩
      exact hnames first List.mem_cons_self
    refine ⟨h, _, step_call h _ _ _, ?_, hgh⟩
    rw [hgh.callee_eq howner]
  | checkInteger value pos | checkString content pos =>
    simp only [Generator.step] at hstep
    split at hstep
    · cases hstep
    · next hcheck =>
      cases hstep
      exact ⟨h, [], by simp only [Action.rename, Generator.step, hcheck, if_false], rfl, hgh⟩
  | receiveThis =>
    cases hstep
    exact ⟨h, _, rfl, by rw [hgh.subKind], hgh⟩
  | openBranch =>
    cases hstep
    refine ⟨_, _, rfl, rfl, ?_⟩
    rw [hgh.labels, hgh.branches]
    exact hgh.relabel _ _
  | closeBranch =>
    cases hstep
    refine ⟨_, _, rfl, rfl, ?_⟩
    rw [hgh.branches]
    exact { hgh with branches := rfl, find := hgh.find, foreign := hgh.foreign }
  | markFirst | leaveUnless | turnBack =>
    cases hstep
    exact ⟨h, _, rfl, by rw [hgh.onBranch_eq], hgh⟩
  | _ =>
    cases hstep
    exact ⟨h, _, rfl, rfl, hgh⟩

/-- Actions that the first generator carries out are carried out by the second one under the other
names, into the same code. -/
theorem carries (hgh : Aliases Known ρ g h) {actions : List Action} (hinner : AllInner actions)
    (hnames : ∀ n ∈ lookupsOf actions, Known n) {code : List Instruction}
    (hcarries : Carries g actions code g') :
    ∃ h', Carries h (actions.map (Action.rename ρ)) code h' ∧ Aliases Known ρ g' h' := by
  induction actions generalizing g h code with
  | nil =>
    obtain ⟨rfl, rfl⟩ := carries_nil.mp hcarries
    exact ⟨h, carries_nil.mpr ⟨rfl, rfl⟩, hgh⟩
  | cons a actions ih =>
    obtain ⟨ha, hactions⟩ := List.forall_mem_cons.mp hinner
    rw [lookupsOf_cons, List.forall_mem_append] at hnames
    rcases hstep : g.step a with e | ⟨g₁, new⟩
    · exact absurd hcarries (not_carries_cons_of_error hstep)
    · obtain ⟨back, rfl, hback⟩ := (carries_cons_of_ok hstep).mp hcarries
      obtain ⟨h₁, new', hstep', hnew, hgh₁⟩ := hgh.step ha hnames.1 hstep
      obtain ⟨h', hback', hgh'⟩ := ih hgh₁ hactions hnames.2 hback
      exact ⟨h', (carries_cons_of_ok hstep').mpr ⟨back, by rw [hnew], hback'⟩, hgh'⟩

end Aliases

end Generator

namespace Tree

open JackStack.Generator

/-! ## Slots under other names -/

section Slots

variable {x y name : String}

/-- Renaming keeps apart what is not called by the new name before. -/
theorem update_eq_update_iff {a b : String} (ha : a ≠ y) (hb : b ≠ y) :
    Function.update id x y a = Function.update id x y b ↔ a = b := by
  by_cases hax : a = x <;> by_cases hbx : b = x
  · simp [hax, hbx]
  · simp [hax, Function.update_of_ne hbx, Ne.symm hb, Ne.symm hbx]
  · simp [hbx, ha, hax]
  · simp [Function.update_of_ne hax, Function.update_of_ne hbx]

/-- Renaming leaves the number of variables of a kind. -/
theorem countKind_rename (ρ : String → String) (kind : VarKind) (ds : List Declaration) :
    countKind kind (ds.map (Declaration.rename ρ)) = countKind kind ds := by
  rw [countKind, List.countP_map]
  rfl

/-- A renamed variable has under its new name the slot that it had under the old one. -/
theorem slotAmong_rename {receivers : Nat} (front : List Declaration) {ds : List Declaration}
    (hname : name ≠ y) (hds : y ∉ ds.map (·.name)) :
    slotAmong receivers (Function.update id x y name)
      (front.map (Declaration.rename (Function.update id x y)))
      (ds.map (Declaration.rename (Function.update id x y))) =
        slotAmong receivers name front ds := by
  induction ds generalizing front with
  | nil => rfl
  | cons d ds ih =>
    obtain ⟨hd, hds⟩ := List.ne_and_not_mem_of_not_mem_cons hds
    have hiff : (d.rename (Function.update id x y)).name = Function.update id x y name ↔
        d.name = name := update_eq_update_iff (Ne.symm hd) hname
    rw [List.map_cons, slotAmong, slotAmong]
    by_cases hfound : d.name = name
    · rw [if_pos (hiff.mpr hfound), if_pos hfound]
      exact congrArg (fun n => some (Slot.mk d.type d.kind (_ + n)))
        (countKind_rename _ d.kind front)
    · rw [if_neg (mt hiff.mp hfound), if_neg hfound, ← ih _ hds, List.map_append]
      rfl

/-- A name that is not declared has no slot. -/
theorem slotAmong_eq_none {receivers : Nat} {front ds : List Declaration}
    (h : name ∉ ds.map (·.name)) : slotAmong receivers name front ds = none := by
  rw [← Option.not_isSome_iff_eq_none, slotAmong_isSome]
  exact h

/-- The names of declarations stay different. -/
theorem nodup_rename {ds : List Declaration} (hds : y ∉ ds.map (·.name))
    (hnodup : (ds.map (·.name)).Nodup) :
    ((ds.map (Declaration.rename (Function.update id x y))).map (·.name)).Nodup := by
  have hnames : (ds.map (Declaration.rename (Function.update id x y))).map (·.name) =
      (ds.map (·.name)).map (Function.update id x y) := by
    rw [List.map_map, List.map_map]
    rfl
  rw [hnames]
  refine hnodup.map_on fun a ha b hb heq => ?_
  exact (update_eq_update_iff (ne_of_mem_of_not_mem ha hds) (ne_of_mem_of_not_mem hb hds)).mp heq

end Slots

/-! ## Subroutines -/

/-- A subroutine of the second class is one of the first with other names: the names that may come
up have the same slots. -/
structure Twins (Known : String → Prop) (c c' : Class) (ρ : String → String) (s s' : Subroutine) :
    Prop where
  kind : s'.kind = s.kind
  name : s'.name = s.name
  nodup : (s.declarations.map (·.name)).Nodup → (s'.declarations.map (·.name)).Nodup
  locals : countKind .local s'.declarations = countKind .local s.declarations
  actions : blockActions s'.body = (blockActions s.body).map (Action.rename ρ)
  slot : ∀ name, Known name → (c'.context s').slot? (ρ name) = (c.context s).slot? name
  foreign : ∀ name, Known name → (c.context s).slot? name = none → ρ name = name
  known : ∀ name ∈ lookupsOf (blockActions s.body), Known name
  /-- The receiver of a method has a name that no source can use. -/
  this : ∀ name, Known name → name ≠ "this" ∧ ρ name ≠ "this"
  new : ∀ d ∈ s.declarations, d.name ≠ "this"
  new' : ∀ d ∈ s'.declarations, d.name ≠ "this"

/-- A class of the same name and with as many fields. -/
structure Kin (c c' : Class) : Prop where
  name : c'.name = c.name
  fields : countKind .field c'.declarations = countKind .field c.declarations

section Subroutines

variable {Known : String → Prop} {c c' : Class} {ρ : String → String} {s s' : Subroutine}
  {g g' h : Generator} {n : Nat}

/-- The generators between two subroutines of two classes, after as many labels. -/
structure BetweenBoth (c c' : Class) (g h : Generator) : Prop where
  first : Between c g.labels g
  second : Between c' g.labels h
  branches : h.branches = g.branches

/-- Inside a subroutine its local variables are counted, in 32 bits. -/
theorem count_inside (g : Generator) (s : Subroutine) :
    (inside g s).subScope.count .local = .ofNat (countKind .local s.declarations) := by
  have hfresh : (g.freshScope s.kind).members.countP (·.kind = .local) = 0 := by
    unfold Generator.freshScope
    cases s.kind <;> rfl
  rw [Scope.count_eq, inside, Scope.countP_extend, hfresh, Nat.zero_add]

/-- Between two subroutines the fields of the class are counted, in 32 bits. -/
theorem Between.count_field (hg : Between c n g) :
    g.classScope.count .field = .ofNat (countKind .field c.declarations) := by
  rw [Scope.count_eq, hg.classScope, Scope.countP_extend]
  simp

/-- At the beginning of a body the second generator knows by other names what the first knows. -/
theorem Twins.aliases (htwins : Twins Known c c' ρ s s') (hkin : Kin c c')
    (hgh : BetweenBoth c c' g h) : Aliases Known ρ (inside g s) (inside h s') where
  className := by
    change h.className = g.className
    rw [hgh.first.className, hgh.second.className, hkin.name]
  subName := htwins.name
  subKind := htwins.kind
  labels := hgh.second.labels
  branches := hgh.branches
  locals := by rw [count_inside, count_inside, htwins.locals]
  fields := by
    change h.classScope.count .field = g.classScope.count .field
    rw [hgh.first.count_field, hgh.second.count_field, hkin.fields]
  find name hname := by
    obtain ⟨hname₁, hname₂⟩ := htwins.this name hname
    rw [(hgh.first.agrees s).find name hname₁, (hgh.second.agrees s').find _ hname₂,
      htwins.slot name hname]
  foreign name hname hnone := by
    refine htwins.foreign name hname ?_
    have hfind := (hgh.first.agrees s).find name (htwins.this name hname).1
    rw [hnone] at hfind
    exact Option.map_eq_none_iff.mp hfind.symm

/-- A subroutine that is carried out is carried out with other names into the same code. -/
theorem Twins.carries (htwins : Twins Known c c' ρ s s') (hkin : Kin c c')
    (hgh : BetweenBoth c c' g h) {code : List Instruction}
    (hcarries : Carries g s.actions code g') :
    ∃ h', Carries h s'.actions code h' ∧ BetweenBoth c c' g' h' := by
  have hfresh : ∀ (g : Generator) (s : Subroutine), (∀ d ∈ s.declarations, d.name ≠ "this") →
      ∀ d ∈ s.declarations, d.name ∉ (g.freshScope s.kind).names := by
    intro g s hthis d hd
    unfold Generator.freshScope Scope.names
    cases s.kind <;> simp [hthis d hd]
  rw [Subroutine.actions_eq, ← List.cons_append, ← List.cons_append] at hcarries ⊢
  obtain ⟨g₁, code₁, code₂, hhead, hbody, rfl⟩ := carries_append.mp hcarries
  obtain ⟨hnodup, rfl, rfl⟩ := (carries_head (hfresh g s htwins.new)).mp hhead
  have hinner : AllInner (.openBody :: blockActions s.body) :=
    List.forall_mem_cons.mpr ⟨rfl, block_allInner s.body⟩
  obtain ⟨h', hbody', hgh'⟩ := (htwins.aliases hkin hgh).carries hinner htwins.known hbody
  have hclass : ∀ {k k' : Generator} {actions : List Action}, AllInner actions →
      Carries k actions code₂ k' → k'.className = k.className ∧ k'.classScope = k.classScope :=
    fun hactions hrun =>
    class_of_carries (fun a ha => Action.isLocal_of_isInner (hactions a ha)) hrun
  refine ⟨h', carries_append.mpr ⟨inside h s', [], code₂, ?_, ?_, rfl⟩, ?_⟩
  · exact (carries_head (hfresh h s' htwins.new')).mpr ⟨htwins.nodup hnodup, rfl, rfl⟩
  · rw [htwins.actions]
    exact hbody'
  · obtain ⟨hname, hscope⟩ := hclass hinner hbody
    have hinner' : AllInner ((Action.openBody :: blockActions s.body).map (Action.rename ρ)) := by
      rw [List.map_cons, ← htwins.actions]
      exact List.forall_mem_cons.mpr ⟨rfl, block_allInner s'.body⟩
    obtain ⟨hname', hscope'⟩ := hclass hinner' hbody'
    exact ⟨⟨hname.trans hgh.first.className, hscope.trans hgh.first.classScope, rfl⟩,
      ⟨hname'.trans hgh.second.className, hscope'.trans hgh.second.classScope, hgh'.labels⟩,
      hgh'.branches⟩

/-- Subroutines that are carried out are carried out with other names into the same code. -/
theorem carries_of_twins (hkin : Kin c c') {subs subs' : List Subroutine}
    (htwins : List.Forall₂ (fun s s' => ∃ ρ, Twins Known c c' ρ s s') subs subs')
    (hgh : BetweenBoth c c' g h) {code : List Instruction}
    (hcarries : Carries g (subs.flatMap Subroutine.actions) code g') :
    ∃ h', Carries h (subs'.flatMap Subroutine.actions) code h' := by
  induction htwins generalizing g h code with
  | nil =>
    obtain ⟨rfl, rfl⟩ := carries_nil.mp hcarries
    exact ⟨h, carries_nil.mpr ⟨rfl, rfl⟩⟩
  | cons hs _ ih =>
    obtain ⟨ρ, hs⟩ := hs
    obtain ⟨g₁, code₁, code₂, hfirst, hrest, rfl⟩ := carries_append.mp hcarries
    obtain ⟨h₁, hfirst', hgh₁⟩ := hs.carries hkin hgh hfirst
    obtain ⟨h', hrest'⟩ := ih hgh₁ hrest
    exact ⟨h', carries_append.mpr ⟨h₁, code₁, code₂, hfirst', hrest', rfl⟩⟩

end Subroutines

/-! ## Classes -/

/-- The name can be given to a variable of the class: no token has it. -/
structure Class.Admits (c : Class) (size : Nat) (fresh : String) : Prop where
  plain : AllPlain size c.tokens
  ne_this : fresh ≠ "this"
  unused : .identifier fresh ∉ c.tokens

/-- The name is one of those in the class. -/
def Class.Mentions (c : Class) (name : String) : Prop := .identifier name ∈ c.tokens

/-- A class mentions what it declares. -/
theorem Class.mentions_of_declarations {c : Class} {d : Declaration} (hd : d ∈ c.declarations) :
    c.Mentions d.name := by
  obtain ⟨g, hg, hd⟩ := List.mem_flatMap.mp hd
  have hname : d.name ∈ g.group.names := by
    obtain ⟨_ | _, group⟩ := g <;> obtain ⟨name, hname, rfl⟩ := List.mem_map.mp hd <;> exact hname
  have hgroup : .identifier d.name ∈ c.groups.flatMap ClassGroup.tokens :=
    List.mem_flatMap.mpr ⟨g, hg, List.mem_cons_of_mem _ (Group.mem_tokens hname)⟩
  simp [Mentions, Class.tokens, hgroup]

section Classes

variable {c c' : Class} {s : Subroutine} {size : Nat} {x y : String}

/-- A class mentions what one of its subroutines mentions. -/
theorem Class.mentions_of_subroutine (hs : s ∈ c.subroutines) {name : String}
    (h : .identifier name ∈ s.tokens) : c.Mentions name := by
  have hsubs : .identifier name ∈ c.subroutines.flatMap Subroutine.tokens :=
    List.mem_flatMap.mpr ⟨s, hs, h⟩
  simp [Mentions, Class.tokens, hsubs]

/-- A class mentions what one of its subroutines looks up. -/
theorem Class.mentions_of_lookup (hs : s ∈ c.subroutines) {name : String}
    (h : name ∈ lookupsOf (blockActions s.body)) : c.Mentions name := by
  have hbody := block_mem_tokens_of_lookup s.body h
  exact c.mentions_of_subroutine hs (by simp [Subroutine.tokens, hbody])

namespace Class.Admits

variable (hy : c.Admits size y)
include hy

/-- No source mentions `this` as a name, since it is a reserved word. -/
theorem ne_this_of_mentions {name : String} (h : c.Mentions name) : name ≠ "this" :=
  ne_this_of_plain (hy.plain _ h)

/-- The new name is none of those mentioned. -/
theorem ne_of_mentions {name : String} (h : c.Mentions name) : name ≠ y := by
  rintro rfl
  exact hy.unused h

/-- No renamed name is `this`. -/
theorem update_ne_this {name : String} (h : c.Mentions name) :
    Function.update id x y name ≠ "this" := by
  by_cases hx : name = x
  · rw [hx, Function.update_self]
    exact hy.ne_this
  · rw [Function.update_of_ne hx]
    exact hy.ne_this_of_mentions h

/-- The class does not declare the new name. -/
theorem notMem_declarations : y ∉ c.declarations.map (·.name) := by
  intro hmem
  obtain ⟨d, hd, rfl⟩ := List.mem_map.mp hmem
  exact hy.unused (c.mentions_of_declarations hd)

/-- No subroutine declares the new name. -/
theorem notMem_own (hs : s ∈ c.subroutines) : y ∉ s.declarations.map (·.name) := by
  intro hmem
  obtain ⟨d, hd, rfl⟩ := List.mem_map.mp hmem
  exact hy.unused (c.mentions_of_subroutine hs (Subroutine.mem_tokens hd))

/-- No subroutine declares `this`. -/
theorem own_ne_this (hs : s ∈ c.subroutines) : ∀ d ∈ s.declarations, d.name ≠ "this" := fun _ hd =>
  hy.ne_this_of_mentions (c.mentions_of_subroutine hs (Subroutine.mem_tokens hd))

/-- A subroutine whose names have the same slots in another class. -/
theorem twins_self (hs : s ∈ c.subroutines)
    (hslot : ∀ name, c.Mentions name → (c'.context s).slot? name = (c.context s).slot? name) :
    Twins c.Mentions c c' id s s where
  kind := rfl
  name := rfl
  nodup := id
  locals := rfl
  actions := by rw [Action.rename_id, List.map_id]
  slot := hslot
  foreign _ _ _ := rfl
  known _ h := c.mentions_of_lookup hs h
  this _ h := ⟨hy.ne_this_of_mentions h, hy.ne_this_of_mentions h⟩
  new := hy.own_ne_this hs
  new' := hy.own_ne_this hs

/-- A variable of the class is renamed in a subroutine that uses it. -/
theorem twins_uses (hs : s ∈ c.subroutines) (hx : x ∈ c.declarations.map (·.name))
    (hfree : x ∉ s.declarations.map (·.name))
    (hc' : c'.declarations = c.declarations.map (Declaration.rename (Function.update id x y))) :
    Twins c.Mentions c c' (Function.update id x y) s (s.renameUses (Function.update id x y)) where
  kind := rfl
  name := rfl
  nodup := id
  locals := rfl
  actions := block_actions_rename _ s.body
  slot name hname := by
    have hown : ∀ receivers, slotAmong receivers (Function.update id x y name) [] s.declarations =
        slotAmong receivers name [] s.declarations := by
      intro receivers
      by_cases hnx : name = x
      · rw [hnx, Function.update_self, slotAmong_eq_none (hy.notMem_own hs),
          slotAmong_eq_none hfree]
      · rw [Function.update_of_ne hnx, id]
    have hshared : slotAmong 0 (Function.update id x y name) [] c'.declarations =
        slotAmong 0 name [] c.declarations := by
      rw [hc']
      exact slotAmong_rename [] (hy.ne_of_mentions hname) hy.notMem_declarations
    exact congrArg₂ Option.or (hown _) hshared
  foreign name _ hnone := by
    refine Function.update_of_ne ?_ y id
    rintro rfl
    have hsome := Context.slot?_isSome.mpr (.inr hx : (c.context s).Declares name)
    rw [hnone] at hsome
    cases hsome
  known _ h := c.mentions_of_lookup hs h
  this _ h := ⟨hy.ne_this_of_mentions h, hy.update_ne_this h⟩
  new := hy.own_ne_this hs
  new' _ hd := hy.own_ne_this hs _ hd

/-- A variable of a subroutine is renamed in it. The variable hides what the class may declare under
either name. -/
theorem twins_own (hs : s ∈ c.subroutines) (hx : x ∈ s.declarations.map (·.name))
    (hc' : c'.declarations = c.declarations) :
    Twins c.Mentions c c' (Function.update id x y) s (s.rename (Function.update id x y)) where
  kind := rfl
  name := rfl
  nodup := by
    rw [Subroutine.declarations_rename]
    exact nodup_rename (hy.notMem_own hs)
  locals := by rw [Subroutine.declarations_rename, countKind_rename]
  actions := block_actions_rename _ s.body
  slot name hname := by
    have hown : ∀ receivers, slotAmong receivers (Function.update id x y name) []
        (s.rename (Function.update id x y)).declarations =
          slotAmong receivers name [] s.declarations := by
      intro receivers
      rw [Subroutine.declarations_rename]
      exact slotAmong_rename [] (hy.ne_of_mentions hname) (hy.notMem_own hs)
    change (slotAmong (c.context s).receivers _ [] (s.rename _).declarations).or
        (slotAmong 0 _ [] c'.declarations) =
      (slotAmong (c.context s).receivers name [] s.declarations).or
        (slotAmong 0 name [] c.declarations)
    rw [hown, hc']
    by_cases hnx : name = x
    · obtain ⟨slot, hslot⟩ := Option.isSome_iff_exists.mp (slotAmong_isSome.mpr (hnx ▸ hx))
      rw [hslot]
      rfl
    · rw [Function.update_of_ne hnx, id]
  foreign name _ hnone := by
    refine Function.update_of_ne ?_ y id
    rintro rfl
    have hsome := Context.slot?_isSome.mpr (.inl hx : (c.context s).Declares name)
    rw [hnone] at hsome
    cases hsome
  known _ h := c.mentions_of_lookup hs h
  this _ h := ⟨hy.ne_this_of_mentions h, hy.update_ne_this h⟩
  new := hy.own_ne_this hs
  new' := by
    rw [Subroutine.declarations_rename]
    intro d hd
    obtain ⟨d₀, hd₀, rfl⟩ := List.mem_map.mp hd
    exact hy.update_ne_this (c.mentions_of_subroutine hs (Subroutine.mem_tokens hd₀))

/-- A variable of the class is renamed around a subroutine that has a variable of its name. -/
theorem twins_shadowed (hs : s ∈ c.subroutines) (hx : x ∈ s.declarations.map (·.name))
    (hc' : c'.declarations = c.declarations.map (Declaration.rename (Function.update id x y))) :
    Twins c.Mentions c c' id s s := by
  refine hy.twins_self hs fun name hname => ?_
  change (slotAmong (c.context s).receivers name [] s.declarations).or
      (slotAmong 0 name [] c'.declarations) = (c.context s).slot? name
  by_cases hnx : name = x
  · have hsome : (slotAmong (c.context s).receivers name [] s.declarations).isSome :=
      slotAmong_isSome.mpr (hnx ▸ hx)
    obtain ⟨slot, hslot⟩ := Option.isSome_iff_exists.mp hsome
    change _ = (slotAmong (c.context s).receivers name [] s.declarations).or _
    rw [hslot]
    rfl
  · have hshared : slotAmong 0 name [] c'.declarations = slotAmong 0 name [] c.declarations := by
      have hrename : slotAmong 0 (Function.update id x y name) [] (c.declarations.map _) = _ :=
        slotAmong_rename [] (hy.ne_of_mentions hname) hy.notMem_declarations
      rwa [Function.update_of_ne hnx, ← hc'] at hrename
    rw [hshared]
    rfl

end Class.Admits

/-- The same code is emitted for a class with another name for one of its variables. -/
theorem Class.Emits.rename {code : List Instruction} (h : c.Emits code) (hy : c.Admits size y)
    {b : Binder} (hb : c.Binds b) : (c.rename y b).Emits code := by
  obtain ⟨hnodup, g, hcarries⟩ := Class.emits_iff.mp h
  have hboth : ∀ {c c' : Class}, BetweenBoth c c' c.declared c'.declared :=
    ⟨⟨rfl, rfl, rfl⟩, ⟨rfl, rfl, rfl⟩, rfl⟩
  cases b with
  | shared x =>
    have hdeclarations : (c.rename y (.shared x)).declarations =
        c.declarations.map (Declaration.rename (Function.update id x y)) := by
      simp only [Class.declarations, Class.rename, List.flatMap_map, List.map_flatMap,
        ClassGroup.declarations_rename]
    have hkin : Kin c (c.rename y (.shared x)) :=
      ⟨rfl, by rw [hdeclarations, countKind_rename]⟩
    have htwins : List.Forall₂
        (fun s s' => ∃ ρ, Twins c.Mentions c (c.rename y (.shared x)) ρ s s') c.subroutines
        (c.rename y (.shared x)).subroutines := by
      refine List.forall₂_map_right_iff.mpr (List.forall₂_same.mpr fun s hs => ?_)
      by_cases hown : x ∈ s.declarations.map (·.name)
      · rw [if_pos hown]
        exact ⟨id, hy.twins_shadowed hs hown hdeclarations⟩
      · rw [if_neg hown]
        exact ⟨_, hy.twins_uses hs hb hown hdeclarations⟩
    refine Class.emits_iff.mpr ⟨?_, carries_of_twins hkin htwins hboth hcarries⟩
    rw [hdeclarations]
    exact nodup_rename hy.notMem_declarations hnodup
  | own sub x =>
    obtain ⟨s, hget, hx⟩ := hb
    obtain ⟨hlt, -⟩ := List.getElem?_eq_some_iff.mp hget
    have hkin : Kin c (c.rename y (.own sub x)) := ⟨rfl, rfl⟩
    have htwins : List.Forall₂
        (fun s s' => ∃ ρ, Twins c.Mentions c (c.rename y (.own sub x)) ρ s s') c.subroutines
        (c.rename y (.own sub x)).subroutines := by
      have hself : ∀ {subs}, (∀ s ∈ subs, s ∈ c.subroutines) → List.Forall₂
          (fun s s' => ∃ ρ, Twins c.Mentions c (c.rename y (.own sub x)) ρ s s') subs subs :=
        fun hsubs => List.forall₂_same.mpr fun s hs =>
          ⟨id, hy.twins_self (hsubs s hs) fun _ _ => rfl⟩
      obtain ⟨front, s', back, hsubs, rfl, hmodify⟩ :=
        List.exists_of_modify (Subroutine.rename (Function.update id x y)) hlt
      obtain rfl : s' = s := by simpa [hsubs] using hget
      have hmem : ∀ t, t ∈ front ∨ t = s' ∨ t ∈ back → t ∈ c.subroutines := by simp [hsubs]
      change List.Forall₂ _ c.subroutines (c.subroutines.modify _ _)
      rw [hmodify, hsubs]
      refine List.rel_append (hself fun t ht => hmem t (.inl ht)) (.cons ?_ (hself fun t ht =>
        hmem t (.inr (.inr ht))))
      exact ⟨_, hy.twins_own (hmem s' (.inr (.inl rfl))) hx rfl⟩
    exact Class.emits_iff.mpr ⟨hnodup, carries_of_twins hkin htwins hboth hcarries⟩

end Classes

end Tree

end JackStack
