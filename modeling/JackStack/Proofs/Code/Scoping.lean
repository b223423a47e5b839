import JackStack.Proofs.Code.Raising
import JackStack.Proofs.Grammar.Scripts

/-!
# The scopes in front of a mark

Wherever carrying out a class has come to, the scopes of the generator hold the names declared so
far: one action adds the name it declares and no other, and only the beginning of a subroutine
empties a scope. A marked token of a class stands among the variables of the class, or in the head
of a subroutine, or among its statements, and in each of these places it is known which
declarations stand before it.
-/

namespace JackStack

open JackStack.Tree

/-! ## Names that actions declare -/

namespace Action

/-- The name that the action declares in the scope of the subroutine or in that of the class. -/
def declared? (own : Bool) : Action → Option String
  | declare kind _ name _ => if Generator.ownKind kind = own then some name else none
  | _ => none

/-- The action begins a subroutine. -/
def isOpenSub : Action → Bool
  | openSub _ => true
  | _ => false

/-- Inside a subroutine nothing is declared for the class. -/
theorem declared?_of_isLocal {a : Action} (h : a.isLocal = true) : a.declared? false = none := by
  cases a with
  | declare kind type name pos =>
    rw [declared?, if_neg]
    rw [show Generator.ownKind kind = true from h]
    decide
  | _ => rfl

/-- Among statements nothing is declared. -/
theorem declared?_of_isInner {a : Action} (h : a.isInner = true) (own : Bool) :
    a.declared? own = none := by
  cases a with
  | declare => cases h
  | _ => rfl

/-- Among statements no subroutine begins. -/
theorem isOpenSub_of_isInner {a : Action} (h : a.isInner = true) : a.isOpenSub = false := by
  cases a with
  | openSub => cases h
  | _ => rfl

end Action

namespace Generator

variable {g g' : Generator} {code : List Instruction}

/-- An action adds the name it declares to a scope that it does not begin. -/
theorem names_of_step {own : Bool} {a : Action} {new : List Event}
    (h : g.step a = .ok (g', new)) (ha : own = true → a.isOpenSub = false) :
    (g'.scopeOf own).names = (g.scopeOf own).names ++ (a.declared? own).toList := by
  cases a with
  | declare kind type name pos =>
    have hstep := g.step_declare kind type name pos
    by_cases hname : name ∈ (g.scopeOf (ownKind kind)).names
    · rw [Scope.declare?_of_mem (d := ⟨kind, type, name⟩) hname, h] at hstep
      cases hstep
    · rw [Scope.declare?_of_not_mem (d := ⟨kind, type, name⟩) hname, h] at hstep
      cases hstep
      by_cases hown : ownKind kind = own
      · subst hown
        rw [scopeOf_withScope, Scope.names_add, Action.declared?, if_pos rfl]
        rfl
      · rw [Action.declared?, if_neg hown]
        cases own <;> cases kind <;>
          first | exact absurd rfl hown | simp [scopeOf, withScope, ownKind]
  | openSub kind =>
    cases own with
    | true => cases ha rfl
    | false =>
      cases h
      simp [scopeOf, Action.declared?]
  | use name pos | checkInteger value pos | checkString content pos =>
    simp only [step] at h
    split at h <;> cases h
    simp [Action.declared?]
  | _ =>
    cases h
    cases own <;> simp [scopeOf, Action.declared?]

/-- Actions add the names they declare to a scope that none of them begins. -/
theorem names_of_carries {own : Bool} {actions : List Action} (h : Carries g actions code g')
    (hopen : own = true → ∀ a ∈ actions, a.isOpenSub = false) :
    (g'.scopeOf own).names =
      (g.scopeOf own).names ++ actions.filterMap (Action.declared? own) := by
  induction actions generalizing g code with
  | nil =>
    obtain ⟨-, rfl⟩ := carries_nil.mp h
    simp
  | cons a actions ih =>
    rcases hstep : g.step a with e | ⟨g₁, new⟩
    · exact absurd h (not_carries_cons_of_error hstep)
    · obtain ⟨back, -, hback⟩ := (carries_cons_of_ok hstep).mp h
      have hrest := ih hback fun ho b hb => hopen ho b (List.mem_cons_of_mem _ hb)
      have hfirst := names_of_step hstep fun ho => hopen ho a List.mem_cons_self
      rw [hrest, hfirst, List.append_assoc]
      cases ha : a.declared? own <;> simp [ha]

/-- The scope of the class has the names that were declared in it. -/
theorem classNames_of_carries {actions : List Action} (h : Carries {} actions code g) :
    g.classScope.names = actions.filterMap (Action.declared? false) := by
  have hempty : (({} : Generator).scopeOf false).names = [] := rfl
  have hnames : (g.scopeOf false).names = _ := names_of_carries h nofun
  rwa [hempty, List.nil_append] at hnames

/-- The name that the scope of a subroutine starts with. -/
def receiverNames : SubKind → List String
  | .method => ["this"]
  | _ => []

/-- From the beginning of a subroutine on, its scope has the names that were declared there. -/
theorem names_of_openSub {kind : SubKind} {actions : List Action}
    (h : Carries g (.openSub kind :: actions) code g')
    (hopen : ∀ a ∈ actions, a.isOpenSub = false) :
    g'.subScope.names = receiverNames kind ++ actions.filterMap (Action.declared? true) := by
  have hstep : g.step (.openSub kind) =
    .ok ({ g with subKind := kind, subScope := g.freshScope kind }, []) := rfl
  obtain ⟨back, -, hback⟩ := (carries_cons_of_ok hstep).mp h
  have hnames : (g'.scopeOf true).names = _ := names_of_carries hback fun _ => hopen
  have hfresh : (g.freshScope kind).names = receiverNames kind := by
    unfold freshScope Scope.names
    cases kind <;> simp [receiverNames]
  rw [← hfresh]
  exact hnames

/-! ## Failing actions -/

/-- What an action fails about: a name its scope holds, a name that neither scope holds, or a
constant. -/
theorem step_error_cases {a : Action} {e : Error} (h : g.step a = .error e) :
    (∃ kind type name pos, a = .declare kind type name pos ∧ e = .redefined pos name ∧
      name ∈ (g.scopeOf (ownKind kind)).names) ∨
    (∃ name pos, a = .use name pos ∧ e = .undefined pos name ∧
      name ∉ g.subScope.names ∧ name ∉ g.classScope.names) ∨
    (∃ value pos, a = .checkInteger value pos ∧ e = .intOutOfRange pos value ∧
      maxConstant < value) ∨
    ∃ content pos, a = .checkString content pos ∧ stringFault content pos = some e := by
  cases a with
  | declare kind type name pos =>
    have hstep := g.step_declare kind type name pos
    rw [h] at hstep
    by_cases hname : name ∈ (g.scopeOf (ownKind kind)).names
    · rw [Scope.declare?_of_mem (d := ⟨kind, type, name⟩) hname] at hstep
      cases hstep
      exact .inl ⟨kind, type, name, pos, rfl, rfl, hname⟩
    · rw [Scope.declare?_of_not_mem (d := ⟨kind, type, name⟩) hname] at hstep
      cases hstep
  | use name pos =>
    simp only [step] at h
    split at h
    · cases h
    · next hfind =>
      cases h
      obtain ⟨hsub, hclass⟩ := Option.or_eq_none_iff.mp hfind
      exact .inr (.inl ⟨name, pos, rfl, rfl, Scope.find?_eq_none_iff.mp hsub,
        Scope.find?_eq_none_iff.mp hclass⟩)
  | checkInteger value pos =>
    simp only [step] at h
    split at h
    · next hvalue =>
      cases h
      exact .inr (.inr (.inl ⟨value, pos, rfl, rfl, hvalue⟩))
    · cases h
  | checkString content pos =>
    simp only [step] at h
    split at h
    · next hfault =>
      cases h
      exact .inr (.inr (.inr ⟨content, pos, rfl, hfault⟩))
    · cases h
  | _ => cases h

/-- Where actions fail, one of them is the first to fail. -/
theorem exists_step_error {actions : List Action} {e : Error}
    (h : (g.run [] actions).2 = .error e) :
    ∃ xs x ys code g', actions = xs ++ x :: ys ∧ Carries g xs code g' ∧ g'.step x = .error e := by
  induction actions generalizing g with
  | nil => cases h
  | cons a actions ih =>
    rcases hstep : g.step a with e' | ⟨g₁, new⟩
    · rw [run_cons_of_error hstep] at h
      cases h
      exact ⟨[], a, actions, [], g, rfl, carries_nil.mpr ⟨rfl, rfl⟩, hstep⟩
    · rw [run_cons_of_ok hstep] at h
      obtain ⟨xs, x, ys, code, g', rfl, hxs, hx⟩ := ih h
      exact ⟨a :: xs, x, ys, _, g', rfl, (carries_cons_of_ok hstep).mpr ⟨code, rfl, hxs⟩, hx⟩

end Generator

/-- A string constant is refused for its first character that is too large, and where there is none
for its length, which is taken in 32 bits. -/
theorem stringFault_cases (content : String) (pos : Position) :
    (∃ front c back, content.toList = front ++ c :: back ∧ (∀ x ∈ front, x.toNat ≤ 32767) ∧
      32767 < c.toNat ∧ stringFault content pos = some (.charOutOfRange pos c)) ∨
    (∀ x ∈ content.toList, x.toNat ≤ 32767) ∧ stringFault content pos =
      if 32767 < content.length % UInt32.size then
        some (.intOutOfRange pos (UInt32.ofNat content.length))
      else none := by
  have hlarge : ∀ x : Char, maxConstant < x.val ↔ 32767 < x.toNat :=
    fun x => UInt32.lt_iff_toNat_lt
  have hlong : maxConstant < UInt32.ofNat content.length ↔
      32767 < content.length % UInt32.size := by
    rw [UInt32.lt_iff_toNat_lt, UInt32.toNat_ofNat']
    exact Iff.rfl
  unfold stringFault
  cases hfind : content.toList.find? fun c => maxConstant < c.val with
  | some c =>
    obtain ⟨hc, front, back, hsplit, hfront⟩ := List.find?_eq_some_iff_append.mp hfind
    refine .inl ⟨front, c, back, hsplit, ?_, (hlarge c).mp (of_decide_eq_true hc), rfl⟩
    intro x hx
    have hsmall := hfront x hx
    simp only [Bool.not_eq_true', decide_eq_false_iff_not, hlarge] at hsmall
    exact Nat.le_of_not_lt hsmall
  | none =>
    refine .inr ⟨?_, by simp only [hlong]⟩
    intro x hx
    have hsmall := List.find?_eq_none.mp hfind x hx
    simp only [decide_eq_true_eq, hlarge] at hsmall
    exact Nat.le_of_not_lt hsmall

/-- An action that fails names the place that is blamed. -/
theorem Generator.pos_of_step_error {g : Generator} {x : Action} {e : Error} (h : g.step x = .error e) :
    x.pos? = e.pos ∧ x.pos? ≠ none := by
  rcases step_error_cases h with ⟨kind, type, name, pos, rfl, rfl, -⟩ | ⟨name, pos, rfl, rfl, -⟩ |
    ⟨value, pos, rfl, rfl, -⟩ | ⟨content, pos, rfl, hfault⟩
  · exact ⟨rfl, nofun⟩
  · exact ⟨rfl, nofun⟩
  · exact ⟨rfl, nofun⟩
  · refine ⟨?_, nofun⟩
    rcases stringFault_cases content pos with ⟨front, c, back, -, -, -, hwide⟩ | ⟨-, hlong⟩
    · rw [hwide] at hfault
      cases hfault
      rfl
    · rw [hlong] at hfault
      split at hfault
      · cases hfault
        rfl
      · cases hfault

/-! ## Where marks stand -/

namespace Tree

open JackStack.Generator

/-- An item in front of the statements: if it names a place, it declares a variable of the
subroutine or of the class. -/
def Item.isHeading (own : Bool) : Item → Bool
  | token _ => true
  | marked (.declared kind _ _) => ownKind kind = own
  | marked _ => false
  | report a => a.pos?.isNone && !a.isOpenSub

/-- A marked token of a heading declares a variable of its scope. -/
theorem Item.isHeading_marked {own : Bool} {m : Mark} (h : (Item.marked m).isHeading own = true) :
    ∃ kind type name, m = .declared kind type name ∧ ownKind kind = own := by
  cases m with
  | declared kind type name => exact ⟨kind, type, name, rfl, of_decide_eq_true h⟩
  | _ => cases h

/-- The declarations in a heading stand at its marks. -/
theorem exists_marked_of_declared {own : Bool} {script : List Item}
    (h : ∀ i ∈ script, i.isHeading own = true) {name : String}
    (hname : name ∈ (actionsOf script).filterMap (Action.declared? own)) :
    ∃ kind type, .marked (.declared kind type name) ∈ script := by
  obtain ⟨a, ha, hdeclared⟩ := List.mem_filterMap.mp hname
  obtain ⟨i, hi, hia⟩ := List.mem_filterMap.mp ha
  have hheading := h i hi
  cases i with
  | token t => cases hia
  | marked m =>
    cases hia
    obtain ⟨kind, type, name', rfl, hkind⟩ := Item.isHeading_marked hheading
    rw [Mark.action, Action.declared?, if_pos hkind] at hdeclared
    cases hdeclared
    exact ⟨kind, type, hi⟩
  | report b =>
    cases hia
    cases a with
    | declare => cases hheading
    | _ => cases hdeclared

/-- No subroutine begins inside a heading. -/
theorem not_isOpenSub_of_isHeading {own : Bool} {script : List Item}
    (h : ∀ i ∈ script, i.isHeading own = true) :
    ∀ a ∈ actionsOf script, a.isOpenSub = false := by
  intro a ha
  obtain ⟨i, hi, hia⟩ := List.mem_filterMap.mp ha
  have hheading := h i hi
  cases i with
  | token t => cases hia
  | marked m =>
    cases hia
    cases m <;> rfl
  | report b =>
    cases hia
    cases a with
    | openSub => cases hheading
    | _ => rfl

/-- The script of a group of variables belongs to a heading. -/
theorem Group.isHeading_script {own : Bool} {kind : VarKind} (h : ownKind kind = own) (g : Group) :
    ∀ i ∈ g.script kind, i.isHeading own = true := by
  intro i hi
  simp only [Group.script, List.cons_append, List.mem_cons, List.mem_append, List.mem_flatMap,
    List.not_mem_nil, or_false] at hi
  rcases hi with rfl | rfl | ⟨name, -, rfl | rfl⟩ | rfl
  · rfl
  · exact decide_eq_true h
  · rfl
  · exact decide_eq_true h
  · rfl

/-- In front of the subroutines of a class stand the declarations of its variables. -/
theorem Class.isHeading_headScript (c : Class) :
    ∀ i ∈ c.headScript, i.isHeading false = true := by
  intro i hi
  simp only [Class.headScript, List.mem_cons, List.mem_flatMap] at hi
  rcases hi with rfl | rfl | rfl | rfl | ⟨g, -, hg⟩
  · rfl
  · rfl
  · rfl
  · rfl
  · rcases List.mem_cons.mp hg with rfl | hg
    · rfl
    · have hkind : ownKind g.sharing.varKind = false := by
        cases g.sharing <;> rfl
      exact g.group.isHeading_script hkind i hg

/-- The script of a subroutine between its beginning and its statements. -/
def Subroutine.heading (s : Subroutine) : List Item :=
  .token (returnToken s.returns) :: .token (.identifier s.name) :: .report (.nameSub s.name) ::
    .token (.symbol '(') :: parameterScript s.parameters ++
    .token (.symbol ')') :: .token (.symbol '{') ::
    s.locals.flatMap (fun g => .token (.keyword .varKw) :: g.script .local)

/-- The head of a subroutine: its word, its kind and then its heading. -/
theorem Subroutine.headScript_eq (s : Subroutine) :
    s.headScript = .token (.keyword (subKeyword s.kind)) :: .report (.openSub s.kind) ::
      s.heading := rfl

/-- The script of parameters belongs to a heading. -/
theorem isHeading_parameterScript (ps : List Parameter) :
    ∀ i ∈ parameterScript ps, i.isHeading true = true := by
  intro i hi
  cases ps with
  | nil => cases hi
  | cons p rest =>
    simp only [parameterScript, Parameter.script, List.mem_append, List.mem_cons,
      List.mem_flatMap, List.not_mem_nil, or_false] at hi
    rcases hi with (rfl | rfl) | ⟨q, -, rfl | rfl | rfl⟩ <;> rfl

/-- In front of the statements of a subroutine stand the declarations of its variables. -/
theorem Subroutine.isHeading_heading (s : Subroutine) :
    ∀ i ∈ s.heading, i.isHeading true = true := by
  intro i hi
  simp only [Subroutine.heading, List.cons_append, List.mem_cons, List.mem_append,
    List.mem_flatMap] at hi
  rcases hi with rfl | rfl | rfl | rfl | hi | rfl | rfl | ⟨g, -, rfl | hg⟩
  · rfl
  · rfl
  · rfl
  · rfl
  · exact isHeading_parameterScript s.parameters i hi
  · rfl
  · rfl
  · rfl
  · exact g.isHeading_script rfl i hg

/-- The parts of a class in which marked tokens stand. -/
inductive Zone where
  /-- The variables of the class. -/
  | shared
  /-- The parameters and variables of a subroutine, behind those of `inner`. -/
  | own (s : Subroutine) (inner : List Item)
  /-- The statements of a subroutine. -/
  | body (s : Subroutine)

/-- The part of a class in which a marked token stands, with `before` in front of it. -/
inductive Class.Site (c : Class) (before : List Item) (m : Mark) : Zone → Prop where
  | shared (tail : List Item) (script : c.headScript = before ++ .marked m :: tail) :
      Site c before m .shared
  | own (front back : List Subroutine) (s : Subroutine) (inner tail : List Item)
      (split : c.subroutines = front ++ s :: back)
      (lead : before = c.headScript ++ front.flatMap Subroutine.script ++
        .token (.keyword (subKeyword s.kind)) :: .report (.openSub s.kind) :: inner)
      (script : s.heading = inner ++ .marked m :: tail) : Site c before m (.own s inner)
  | body (front back : List Subroutine) (s : Subroutine) (inner tail : List Item)
      (split : c.subroutines = front ++ s :: back)
      (lead : before = c.headScript ++ front.flatMap Subroutine.script ++
        (s.headScript ++ .report .openBody :: inner))
      (script : blockScript s.body = inner ++ .marked m :: tail) : Site c before m (.body s)

/-- A marked token is no plain token and no report. -/
theorem eq_cons_of_cons_eq {i : Item} {script before after : List Item} {m : Mark}
    (h : i :: script = before ++ .marked m :: after) (hi : i ≠ .marked m) :
    ∃ rest, before = i :: rest ∧ script = rest ++ .marked m :: after := by
  cases before with
  | nil => exact absurd (List.cons.inj h).1 hi
  | cons j rest =>
    obtain ⟨rfl, hscript⟩ := List.cons.inj h
    exact ⟨rest, rfl, hscript⟩

/-- An element of lists one behind the other is one of one of them. -/
theorem exists_split_of_flatMap {α β : Type} {f : α → List β} {xs : List α} {before after : List β}
    {y : β} (h : xs.flatMap f = before ++ y :: after) :
    ∃ front x back inner tail, xs = front ++ x :: back ∧ before = front.flatMap f ++ inner ∧
      f x = inner ++ y :: tail := by
  induction xs generalizing before with
  | nil => simp at h
  | cons x xs ih =>
    rw [List.flatMap_cons] at h
    rcases eq_append_cons_cases h with ⟨tail, hx, -⟩ | ⟨rest, rfl, hrest⟩
    · exact ⟨[], x, xs, before, tail, rfl, rfl, hx⟩
    · obtain ⟨front, z, back, inner, tail, rfl, rfl, hz⟩ := ih hrest
      exact ⟨x :: front, z, back, inner, tail, rfl, by simp, hz⟩

/-- No marked token is the only token of a script that is a plain token. -/
theorem not_marked_of_token {t : Token} {before after : List Item} {m : Mark} :
    [.token t] ≠ before ++ .marked m :: after := by
  intro h
  obtain ⟨rest, -, hnil⟩ := eq_cons_of_cons_eq h nofun
  exact List.append_ne_nil_of_right_ne_nil rest (List.cons_ne_nil _ _) hnil.symm

/-- A marked token of a subroutine stands among its declarations or among its statements. -/
theorem Subroutine.site_of_script {s : Subroutine} {before after : List Item} {m : Mark}
    (h : s.script = before ++ .marked m :: after) :
    (∃ inner tail, before = .token (.keyword (subKeyword s.kind)) :: .report (.openSub s.kind) ::
        inner ∧ s.heading = inner ++ .marked m :: tail) ∨
      ∃ inner tail, before = s.headScript ++ .report .openBody :: inner ∧
        blockScript s.body = inner ++ .marked m :: tail := by
  rw [Subroutine.script, List.append_assoc, List.cons_append] at h
  rcases eq_append_cons_cases h with ⟨tail, hhead, -⟩ | ⟨behind, rfl, hbehind⟩
  · rw [Subroutine.headScript_eq] at hhead
    obtain ⟨rest, rfl, hrest⟩ := eq_cons_of_cons_eq hhead (by simp)
    obtain ⟨inner, rfl, hinner⟩ := eq_cons_of_cons_eq hrest (by simp)
    exact .inl ⟨inner, tail, rfl, hinner⟩
  · obtain ⟨inner, rfl, hinner⟩ := eq_cons_of_cons_eq hbehind (by simp)
    rcases eq_append_cons_cases hinner with ⟨tail, hbody, -⟩ | ⟨zs, -, hlast⟩
    · exact .inr ⟨inner, tail, rfl, hbody⟩
    · exact absurd hlast not_marked_of_token

/-- Every marked token of a class stands in one of three places. -/
theorem Class.site_of_script {c : Class} {before after : List Item} {m : Mark}
    (h : c.script = before ++ .marked m :: after) : ∃ zone, c.Site before m zone := by
  rw [Class.script, List.append_assoc] at h
  rcases eq_append_cons_cases h with ⟨tail, hhead, -⟩ | ⟨behind, rfl, hbehind⟩
  · exact ⟨_, .shared tail hhead⟩
  rcases eq_append_cons_cases hbehind with ⟨tail, hsubs, -⟩ | ⟨zs, -, hlast⟩
  · obtain ⟨front, s, back, inner, tail, hsplit, rfl, hs⟩ := exists_split_of_flatMap hsubs
    rw [← List.append_assoc]
    rcases Subroutine.site_of_script hs with ⟨inner, tail, rfl, hhead⟩ | ⟨inner, tail, rfl, hbody⟩
    · exact ⟨_, .own front back s inner tail hsplit rfl hhead⟩
    · exact ⟨_, .body front back s inner tail hsplit rfl hbody⟩
  · exact absurd hlast not_marked_of_token

/-! ## What the scopes hold there -/

/-- The head of a class reports its name and its declarations. -/
theorem Class.actionsOf_headScript (c : Class) :
    actionsOf c.headScript = .nameClass c.name :: c.declarations.map Declaration.action := by
  have h := (Class.script_eq ⟨c.name, c.groups, []⟩).2
  rw [Class.actions_eq] at h
  simpa [Class.script, Class.headScript, Class.declarations] using h

/-- The heading of a subroutine reports its name and its declarations. -/
theorem Subroutine.actionsOf_heading (s : Subroutine) :
    actionsOf s.heading = .nameSub s.name :: s.declarations.map Declaration.action := by
  have h := (Subroutine.script_eq { s with body := [] }).2
  rw [Subroutine.actions_eq] at h
  have hbody : actionsOf s.heading ++ [.openBody] =
      .nameSub s.name :: s.declarations.map Declaration.action ++ [.openBody] := by
    simpa [Subroutine.script, Subroutine.headScript_eq, Subroutine.heading, blockScript,
      Subroutine.declarations, blockActions] using h
  exact List.append_cancel_right hbody

namespace Class.Site

variable {c : Class} {before : List Item} {m : Mark} {code : List Instruction} {g : Generator}

/-- Among the variables of a class, a token is marked as one of them. -/
theorem declared_of_shared (h : c.Site before m .shared) :
    ∃ kind type name, m = .declared kind type name ∧ ownKind kind = false := by
  obtain ⟨tail, hscript⟩ := h
  exact Item.isHeading_marked (c.isHeading_headScript _ (by simp [hscript]))

/-- In the head of a subroutine, a token is marked as one of its parameters and variables. -/
theorem declared_of_own {s : Subroutine} {inner : List Item} (h : c.Site before m (.own s inner)) :
    ∃ kind type name, m = .declared kind type name ∧ ownKind kind = true := by
  cases h with
  | own _ _ _ _ tail _ _ hscript =>
    exact Item.isHeading_marked (s.isHeading_heading _ (by simp [hscript]))

/-- Among statements nothing is declared. -/
theorem ne_declared_of_body {s : Subroutine} (h : c.Site before m (.body s)) (kind : VarKind)
    (type name : String) : m ≠ .declared kind type name := by
  rintro rfl
  cases h with
  | body _ _ _ inner tail _ _ hscript =>
    have hmem : Mark.action (.declared kind type name) ∈ blockActions s.body := by
      rw [← (blockScript_sound s.body).2, hscript]
      simp
    exact absurd (block_allInner s.body _ hmem) (by simp [Mark.action, Action.isInner])

/-- Among the variables of a class, its scope has the names declared before. -/
theorem exists_marked_of_shared (h : c.Site before m .shared)
    (hg : Carries {} (actionsOf before) code g) {name : String}
    (hname : name ∈ g.classScope.names) :
    ∃ kind type, .marked (.declared kind type name) ∈ before := by
  obtain ⟨tail, hscript⟩ := h
  have hheading : ∀ i ∈ before, i.isHeading false = true := by
    intro i hi
    exact c.isHeading_headScript i (by simp [hscript, hi])
  rw [classNames_of_carries hg] at hname
  exact exists_marked_of_declared hheading hname

/-- In the head of a subroutine, its scope has the names declared there before, and in a method
that of the receiver. -/
theorem exists_marked_of_own {s : Subroutine} {inner : List Item}
    (h : c.Site before m (.own s inner)) (hg : Carries {} (actionsOf before) code g)
    {name : String} (hname : name ∈ g.subScope.names) (hthis : name ≠ "this") :
    ∃ kind type, .marked (.declared kind type name) ∈ inner := by
  cases h with
  | own front _ _ _ tail _ hlead hscript =>
  have hheading : ∀ i ∈ inner, i.isHeading true = true := by
    intro i hi
    exact s.isHeading_heading i (by simp [hscript, hi])
  rw [hlead, actionsOf_append, actionsOf_token, actionsOf_report] at hg
  obtain ⟨g₁, code₁, code₂, -, hinner, -⟩ := carries_append.mp hg
  rw [names_of_openSub hinner (not_isOpenSub_of_isHeading hheading), List.mem_append] at hname
  rcases hname with hname | hname
  · unfold receiverNames at hname
    split at hname
    · exact absurd (List.mem_singleton.mp hname) hthis
    · cases hname
  · exact exists_marked_of_declared hheading hname

end Class.Site

/-- Statements declare no names. -/
theorem filterMap_declared?_of_allInner {actions : List Action} (h : AllInner actions)
    (own : Bool) : actions.filterMap (Action.declared? own) = [] := by
  apply List.filterMap_eq_nil_iff.mpr
  intro a ha
  exact Action.declared?_of_isInner (h a ha) own

/-- Subroutines declare no names for the class. -/
theorem filterMap_declared?_of_allLocal {actions : List Action} (h : AllLocal actions) :
    actions.filterMap (Action.declared? false) = [] := by
  apply List.filterMap_eq_nil_iff.mpr
  intro a ha
  exact Action.declared?_of_isLocal (h a ha)

/-- Declarations of a scope declare their names for it, in order. -/
theorem filterMap_declared?_declarations {own : Bool} {ds : List Declaration}
    (h : ∀ d ∈ ds, ownKind d.kind = own) :
    (ds.map Declaration.action).filterMap (Action.declared? own) = ds.map (·.name) := by
  rw [List.filterMap_map, ← List.filterMap_eq_map]
  apply List.filterMap_congr
  intro d hd
  exact if_pos (h d hd)

/-- Among the statements of a subroutine, the scopes have the names of the class and those of the
subroutine, and in a method that of the receiver. What of the subroutine stands before the mark is
the beginning of its actions. -/
theorem Class.Site.names_of_body {c : Class} {before : List Item} {m : Mark} {s : Subroutine}
    (h : c.Site before m (.body s)) {code : List Instruction} {g : Generator}
    (hg : Carries {} (actionsOf before) code g) :
    g.classScope.names = c.declarations.map (·.name) ∧
      g.subScope.names = receiverNames s.kind ++ s.declarations.map (·.name) := by
  cases h with
  | body front _ _ inner tail _ hlead hscript =>
  have hblock := (blockScript_sound s.body).2
  rw [hscript, actionsOf_append] at hblock
  have hinner : AllInner (actionsOf inner) := by
    intro a ha
    exact block_allInner s.body a (hblock ▸ List.mem_append_left _ ha)
  have hfront : actionsOf (front.flatMap Subroutine.script) =
      front.flatMap Subroutine.actions := by
    simp [Subroutine.script_eq]
  have hsub : actionsOf (s.headScript ++ .report .openBody :: inner) =
      .openSub s.kind :: .nameSub s.name :: (s.declarations.map Declaration.action ++
        .openBody :: actionsOf inner) := by
    simp [Subroutine.headScript_eq, Subroutine.actionsOf_heading]
  have hbegins : actionsOf (s.headScript ++ .report .openBody :: inner) <+: s.actions := by
    refine ⟨actionsOf (.marked m :: tail), ?_⟩
    rw [hsub, Subroutine.actions_eq, ← hblock]
    simp
  rw [hlead] at hg
  constructor
  case left =>
    have hlocal : AllLocal (actionsOf (s.headScript ++ .report .openBody :: inner)) := by
      intro a ha
      refine subroutines_allLocal [s] a ?_
      rw [List.flatMap_singleton]
      exact hbegins.subset ha
    rw [classNames_of_carries hg, actionsOf_append, actionsOf_append, c.actionsOf_headScript,
      hfront, List.filterMap_append, List.filterMap_append,
      filterMap_declared?_of_allLocal (subroutines_allLocal front),
      filterMap_declared?_of_allLocal hlocal, List.append_nil, List.append_nil]
    exact filterMap_declared?_declarations c.ownKind_declarations
  case right =>
    have hopen : ∀ a ∈ Action.nameSub s.name :: (s.declarations.map Declaration.action ++
        .openBody :: actionsOf inner), a.isOpenSub = false := by
      intro a ha
      simp only [List.mem_cons, List.mem_append, List.mem_map] at ha
      rcases ha with rfl | ⟨d, -, rfl⟩ | rfl | ha
      · rfl
      · rfl
      · rfl
      · exact Action.isOpenSub_of_isInner (hinner a ha)
    rw [actionsOf_append, hsub] at hg
    obtain ⟨g₁, code₁, code₂, -, hown, -⟩ := carries_append.mp hg
    rw [names_of_openSub hown hopen]
    simp only [List.filterMap_append, List.filterMap_cons,
      filterMap_declared?_declarations s.ownKind_declarations,
      filterMap_declared?_of_allInner hinner, Action.declared?, List.append_nil]

end Tree

end JackStack
