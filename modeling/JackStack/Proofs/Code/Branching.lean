import JackStack.Proofs.Code.Outline
import JackStack.Proofs.Grammar.Pieces

/-!
# Branches and their labels

Every `if` and `while` takes the next two numbers, defines the labels with these numbers and jumps
once to each of them. Branches inside it take the numbers behind, so the labels of statements are
those of an interval of numbers. `Branched` says so of outlines, and the outline of every class is
made of functions with such outlines.
-/

namespace JackStack

/-! ## Outlines with branches -/

/-- The outline of statements with `k` branches, whose labels have the numbers from `n` on. -/
inductive Branched (name : String) : Nat → Nat → List Instruction → Prop
  | nil {n : Nat} : Branched name n 0 []
  | append {n j k : Nat} {front back : List Instruction} (first : Branched name n j front)
      (rest : Branched name (n + 2 * j) k back) : Branched name n (j + k) (front ++ back)
  | choice {n j k : Nat} {block other : List Instruction} (inner : Branched name (n + 2) j block)
      (otherwise : Branched name (n + 2 + 2 * j) k other) :
      Branched name n (j + k + 1) (.ifGoto (labelText name (n + 1)) :: block ++
        .goto (labelText name n) :: .label (labelText name (n + 1)) :: other ++
        [.label (labelText name n)])
  | loop {n k : Nat} {block : List Instruction} (inner : Branched name (n + 2) k block) :
      Branched name n (k + 1) (.label (labelText name n) :: .ifGoto (labelText name (n + 1)) ::
        block ++ [.goto (labelText name n), .label (labelText name (n + 1))])

/-- The labels of a class with `2 * k` numbers from `n` on. -/
def labelPairs (name : String) (n k : Nat) : List String :=
  (List.range' n (2 * k)).map (labelText name)

/-- Pairs of labels in a row, and those behind them, are pairs of labels in a row. -/
theorem labelPairs_add (name : String) (n j k : Nat) :
    labelPairs name n (j + k) = labelPairs name n j ++ labelPairs name (n + 2 * j) k := by
  rw [labelPairs, labelPairs, labelPairs, ← List.map_append, List.range'_append_1, Nat.mul_add]

/-- The first pair of labels and those behind it. -/
theorem labelPairs_succ (name : String) (n k : Nat) :
    labelPairs name n (k + 1) =
      labelText name n :: labelText name (n + 1) :: labelPairs name (n + 2) k := rfl

/-- No label stands twice among pairs in a row. -/
theorem nodup_labelPairs (name : String) (n k : Nat) : (labelPairs name n k).Nodup :=
  List.Pairwise.map _ (fun _ _ hne heq => hne (labelText_inj.mp heq).2) List.nodup_range'

namespace Branched

variable {name : String} {n k : Nat} {out : List Instruction}

/-- The labels of the interval are defined, each once, though not in order. -/
theorem labelNames_perm (h : Branched name n k out) :
    (labelNames out).Perm (labelPairs name n k) := by
  induction h with
  | nil => exact .nil
  | append _ _ hfront hback =>
    rw [labelNames_append, labelPairs_add]
    exact hfront.append hback
  | choice _ _ hblock hother =>
    rw [labelPairs_succ, labelPairs_add]
    simp only [labelNames_append, labelNames_ifGoto, labelNames_goto, labelNames_label,
      labelNames_nil, List.cons_append]
    refine (List.perm_append_singleton _ _).trans (.cons _ ?_)
    exact List.perm_middle.trans (.cons _ (hblock.append hother))
  | loop _ hblock =>
    rw [labelPairs_succ]
    simp only [labelNames_append, labelNames_ifGoto, labelNames_goto, labelNames_label,
      labelNames_nil, List.cons_append]
    exact .cons _ ((List.perm_append_singleton _ _).trans (.cons _ hblock))

/-- The labels of the interval are jumped to, each from one place. -/
theorem jumpNames_perm (h : Branched name n k out) :
    (jumpNames out).Perm (labelPairs name n k) := by
  induction h with
  | nil => exact .nil
  | append _ _ hfront hback =>
    rw [jumpNames_append, labelPairs_add]
    exact hfront.append hback
  | choice _ _ hblock hother =>
    rw [labelPairs_succ, labelPairs_add]
    simp only [jumpNames_append, jumpNames_ifGoto, jumpNames_goto, jumpNames_label, jumpNames_nil,
      List.cons_append, List.append_nil]
    refine (List.Perm.cons _ List.perm_middle).trans (.trans (.swap _ _ _) ?_)
    exact .cons _ (.cons _ (hblock.append hother))
  | loop _ hblock =>
    rw [labelPairs_succ]
    simp only [jumpNames_append, jumpNames_ifGoto, jumpNames_goto, jumpNames_label, jumpNames_nil,
      List.cons_append]
    refine (List.Perm.cons _ (List.perm_append_singleton _ _)).trans ?_
    exact .trans (.swap _ _ _) (.cons _ (.cons _ hblock))

/-- Of each branch one jump is conditional and the other one is not. -/
theorem countP_eq (h : Branched name n k out) :
    out.countP Instruction.isGoto = k ∧ out.countP Instruction.isIfGoto = k := by
  induction h with
  | nil => exact ⟨rfl, rfl⟩
  | append _ _ hfront hback =>
    simp only [List.countP_append]
    omega
  | choice _ _ hblock hother =>
    simp only [List.countP_append, List.countP_cons, List.countP_nil, Instruction.isGoto,
      Instruction.isIfGoto, List.cons_append, if_true, Bool.false_eq_true, if_false]
    omega
  | loop _ hblock =>
    simp only [List.countP_append, List.countP_cons, List.countP_nil, Instruction.isGoto,
      Instruction.isIfGoto, List.cons_append, if_true, Bool.false_eq_true, if_false]
    omega

/-- No function begins inside statements. -/
theorem isFunction_eq_false (h : Branched name n k out) : ∀ i ∈ out, i.isFunction = false := by
  induction h with
  | nil => exact List.forall_mem_nil _
  | append _ _ hfront hback => exact List.forall_mem_append.mpr ⟨hfront, hback⟩
  | choice _ _ hblock hother =>
    simp only [List.forall_mem_append, List.forall_mem_cons, List.cons_append]
    exact ⟨rfl, ⟨hblock, rfl, rfl, hother⟩, rfl, List.forall_mem_nil _⟩
  | loop _ hblock =>
    simp only [List.forall_mem_append, List.forall_mem_cons, List.cons_append]
    exact ⟨rfl, rfl, hblock, rfl, rfl, List.forall_mem_nil _⟩

end Branched

/-- The outline of functions with `k` branches, whose labels have the numbers from `n` on. -/
inductive Sections (name : String) : Nat → Nat → List Instruction → Prop
  | nil {n : Nat} : Sections name n 0 []
  | cons {n j k : Nat} {body rest : List Instruction} (first : Branched name n j body)
      (others : Sections name (n + 2 * j) k rest) :
      Sections name n (j + k) (.function "" 0 :: body ++ rest)

namespace Sections

variable {name : String} {n k : Nat} {out : List Instruction}

/-- The labels of sections are those of their pairs, each once, in some order. -/
theorem labelNames_perm (h : Sections name n k out) :
    (labelNames out).Perm (labelPairs name n k) := by
  induction h with
  | nil => exact .nil
  | cons first _ ih =>
    rw [labelPairs_add, List.cons_append, labelNames_cons rfl, labelNames_append]
    exact first.labelNames_perm.append ih

/-- The jumps of sections go to the labels of their pairs, to each once. -/
theorem jumpNames_perm (h : Sections name n k out) :
    (jumpNames out).Perm (labelPairs name n k) := by
  induction h with
  | nil => exact .nil
  | cons first _ ih =>
    rw [labelPairs_add, List.cons_append, jumpNames_cons rfl, jumpNames_append]
    exact first.jumpNames_perm.append ih

/-- Sections have as many jumps without a condition as with one. -/
theorem countP_eq (h : Sections name n k out) :
    out.countP Instruction.isGoto = k ∧ out.countP Instruction.isIfGoto = k := by
  induction h with
  | nil => exact ⟨rfl, rfl⟩
  | cons first _ ih =>
    have hfirst := first.countP_eq
    simp only [List.cons_append, List.countP_cons, List.countP_append, Instruction.isGoto,
      Instruction.isIfGoto, Bool.false_eq_true, if_false]
    omega

/-- The first function is the first section. -/
theorem functions_cons {n j k : Nat} {body rest : List Instruction} (first : Branched name n j body)
    (others : Sections name (n + 2 * j) k rest) :
    functions (.function "" 0 :: body ++ rest) = (.function "" 0 :: body) :: functions rest := by
  have htake : (body ++ rest).takeWhile (! ·.isFunction) = body := by
    rw [List.takeWhile_append_of_pos fun i hi => by simp [first.isFunction_eq_false i hi]]
    cases others with
    | nil => exact List.append_nil body
    | cons => exact List.append_nil body
  rw [List.cons_append, functions, if_pos (show Instruction.isFunction _ = true from rfl), htake,
    Tree.functions_append first.isFunction_eq_false]

/-- Every jump stands in a function. -/
theorem flatMap_functions (h : Sections name n k out) :
    (functions out).flatMap jumpNames = jumpNames out := by
  induction h with
  | nil => rfl
  | cons first others ih =>
    rw [functions_cons first others, List.flatMap_cons, ih, jumpNames_append]

/-- Every function jumps to the labels that it defines itself. -/
theorem jumpNames_perm_labelNames (h : Sections name n k out) {f : List Instruction}
    (hf : f ∈ functions out) : (jumpNames f).Perm (labelNames f) := by
  induction h with
  | nil => cases hf
  | cons first others ih =>
    rw [functions_cons first others] at hf
    rcases List.mem_cons.mp hf with rfl | hf
    · exact first.jumpNames_perm.trans first.labelNames_perm.symm
    · exact ih hf

end Sections

/-! ## Actions with branches -/

namespace Labelling

/-- The actions have nothing to do with labels. -/
def Quiet (actions : List Action) : Prop := ∀ a ∈ actions, ∀ l : Labelling, l.step a = (l, [])

/-- Actions that have nothing to do with labels leave the labelling and the outline alone. -/
theorem Quiet.run_eq {actions : List Action} (h : Quiet actions) (l : Labelling) :
    l.run actions = (l, []) := by
  induction actions with
  | nil => rfl
  | cons a actions ih =>
    obtain ⟨ha, hactions⟩ := List.forall_mem_cons.mp h
    rw [run, ha l, ih hactions]
    rfl

/-- The actions open and close `k` branches, from any labelling on. -/
def Balanced (k : Nat) (actions : List Action) : Prop :=
  ∀ l : Labelling, ∃ out, l.run actions = ({ l with labels := l.labels + 2 * k }, out) ∧
    Branched l.className l.labels k out

namespace Balanced

variable {j k : Nat} {front back block other condition : List Action}

/-- Actions that branch nowhere are balanced. -/
theorem ofQuiet (h : Quiet front) : Balanced 0 front := fun l => ⟨[], h.run_eq l, .nil⟩

/-- Balanced actions behind balanced ones are balanced, and the branches add up. -/
theorem append (hfront : Balanced j front) (hback : Balanced k back) :
    Balanced (j + k) (front ++ back) := by
  intro l
  obtain ⟨out, hrun, hout⟩ := hfront l
  obtain ⟨out', hrun', hout'⟩ := hback { l with labels := l.labels + 2 * j }
  refine ⟨out ++ out', ?_, hout.append hout'⟩
  rw [run_append, hrun, hrun', Nat.mul_add, Nat.add_assoc]

/-- An `if` opens a branch around its blocks. -/
theorem choice (hcondition : Quiet condition) (hblock : Balanced j block)
    (hother : Balanced k other) :
    Balanced (j + k + 1) (.openBranch :: condition ++ .leaveUnless :: block ++
      .turnBack :: other ++ [.markFirst, .closeBranch]) := by
  intro l
  obtain ⟨out, hrun, hout⟩ := hblock ⟨l.className, l.labels + 2, l.labels :: l.branches⟩
  obtain ⟨out', hrun', hout'⟩ :=
    hother ⟨l.className, l.labels + 2 + 2 * j, l.labels :: l.branches⟩
  refine ⟨_, ?_, hout.choice hout'⟩
  have hlabels : l.labels + 2 + 2 * j + 2 * k = l.labels + 2 * (j + k + 1) := by omega
  simp only [run_append, run, step, hcondition.run_eq, hrun, hrun', onBranch, List.tail_cons,
    hlabels, List.nil_append, List.append_nil, List.cons_append]

/-- A `while` opens a branch around its condition and its block. -/
theorem loop (hcondition : Quiet condition) (hblock : Balanced k block) :
    Balanced (k + 1) (.openBranch :: .markFirst :: condition ++ .leaveUnless :: block ++
      [.turnBack, .closeBranch]) := by
  intro l
  obtain ⟨out, hrun, hout⟩ := hblock ⟨l.className, l.labels + 2, l.labels :: l.branches⟩
  refine ⟨_, ?_, hout.loop⟩
  have hlabels : l.labels + 2 + 2 * k = l.labels + 2 * (k + 1) := by omega
  simp only [run_append, run, step, hcondition.run_eq, hrun, onBranch, List.tail_cons, hlabels,
    List.nil_append, List.append_nil, List.cons_append]

end Balanced

end Labelling

/-! ## The branches of a class -/

namespace Tree

open JackStack.Labelling

/-- The actions of expressions have nothing to do with labels. -/
theorem Item.quiet_of_inExpression {i : Item} (h : i.inExpression = true ∨ i.isConstant = true)
    {a : Action} (ha : i.action? = some a) (l : Labelling) : l.step a = (l, []) := by
  cases i with
  | token t => cases ha
  | marked m => cases m <;> cases ha <;> rfl
  | report b =>
    cases ha
    cases a with
    | nameClass | openSub | openBody | openBranch | markFirst | leaveUnless | turnBack
    | closeBranch => exact absurd h nofun
    | _ => rfl

/-- A script made of parts of expressions has nothing to do with labels. -/
theorem Made.quiet {script : List Item} (h : Made Item.inExpression script) :
    Quiet (actionsOf script) := by
  intro a ha
  obtain ⟨i, haction, hpart⟩ := h.mem_actionsOf ha
  exact i.quiet_of_inExpression hpart haction

/-- An expression has nothing to do with labels. -/
theorem Expression.quiet (e : Expression) : Quiet e.actions := e.script_eq.2 ▸ e.made.quiet

/-- A call has nothing to do with labels. -/
theorem Call.quiet (target : Call) : Quiet target.actions := target.script_eq.2 ▸ target.made.quiet

mutual

/-- The number of `if` and `while` statements in a statement, at any depth. -/
def Statement.branches : Statement → Nat
  | .ifThen _ block => blockBranches block + 1
  | .ifElse _ block other => blockBranches block + blockBranches other + 1
  | .whileLoop _ block => blockBranches block + 1
  | _ => 0

/-- The number of `if` and `while` statements in statements, at any depth. -/
def blockBranches : List Statement → Nat
  | [] => 0
  | s :: rest => s.branches + blockBranches rest

end

/-- The number of `if` and `while` statements in subroutines. -/
def subroutineBranches : List Subroutine → Nat
  | [] => 0
  | s :: rest => blockBranches s.body + subroutineBranches rest

/-- The number of `if` and `while` statements in a class. -/
def Class.branches (c : Class) : Nat := subroutineBranches c.subroutines

mutual

/-- A statement opens and closes a branch for each `if` and `while` in it. -/
theorem Statement.balanced : (s : Statement) → Balanced s.branches s.actions
  | .assign _ value =>
    .ofQuiet (List.forall_mem_append.mpr ⟨List.forall_mem_cons.mpr ⟨fun _ => rfl, value.quiet⟩,
      List.forall_mem_singleton.mpr fun _ => rfl⟩)
  | .assignElement array index value => by
    have hindex : Quiet (.use array .start :: index.actions) :=
      List.forall_mem_cons.mpr ⟨fun _ => rfl, index.quiet⟩
    have hvalue : Quiet (.index array :: value.actions) :=
      List.forall_mem_cons.mpr ⟨fun _ => rfl, value.quiet⟩
    exact .ofQuiet (List.forall_mem_append.mpr
      ⟨List.forall_mem_append.mpr ⟨hindex, hvalue⟩, List.forall_mem_singleton.mpr fun _ => rfl⟩)
  | .ifThen condition block => by
    have hchoice := (block_balanced block).choice condition.quiet (.ofQuiet (List.forall_mem_nil _))
    simpa [Statement.actions, Statement.branches] using hchoice
  | .ifElse condition block other =>
    (block_balanced block).choice condition.quiet (block_balanced other)
  | .whileLoop condition block => (block_balanced block).loop condition.quiet
  | .perform target =>
    .ofQuiet (List.forall_mem_append.mpr
      ⟨target.quiet, List.forall_mem_singleton.mpr fun _ => rfl⟩)
  | .giveBack none =>
    .ofQuiet (List.forall_mem_cons.mpr ⟨fun _ => rfl, List.forall_mem_singleton.mpr fun _ => rfl⟩)
  | .giveBack (some value) =>
    .ofQuiet (List.forall_mem_append.mpr
      ⟨value.quiet, List.forall_mem_singleton.mpr fun _ => rfl⟩)

/-- The actions of a block are balanced. -/
theorem block_balanced : (b : List Statement) → Balanced (blockBranches b) (blockActions b)
  | [] => .ofQuiet (List.forall_mem_nil _)
  | s :: rest => (Statement.balanced s).append (block_balanced rest)

end

/-- Declarations have nothing to do with labels. -/
theorem Group.quiet (kind : VarKind) (g : Group) : Quiet (g.actions kind) :=
  List.forall_mem_map.mpr fun _ _ _ => rfl

/-- A subroutine begins a function around the branches of its body. -/
theorem Subroutine.run_actions (s : Subroutine) (l : Labelling) :
    ∃ body, l.run s.actions =
        ({ l with labels := l.labels + 2 * blockBranches s.body }, .function "" 0 :: body) ∧
      Branched l.className l.labels (blockBranches s.body) body := by
  have hdeclarations : Quiet (.openSub s.kind :: .nameSub s.name ::
      s.parameters.flatMap Parameter.actions ++ s.locals.flatMap (Group.actions .local)) := by
    have hparameters : Quiet (s.parameters.flatMap Parameter.actions) :=
      List.forall_mem_flatMap.mpr fun _ _ => List.forall_mem_singleton.mpr fun _ => rfl
    have hlocals : Quiet (s.locals.flatMap (Group.actions .local)) :=
      List.forall_mem_flatMap.mpr fun g _ => g.quiet .local
    have hnames : Quiet (.openSub s.kind :: .nameSub s.name ::
        s.parameters.flatMap Parameter.actions) :=
      List.forall_mem_cons.mpr ⟨fun _ => rfl, List.forall_mem_cons.mpr ⟨fun _ => rfl, hparameters⟩⟩
    exact List.forall_mem_append.mpr ⟨hnames, hlocals⟩
  obtain ⟨body, hrun, hbody⟩ := block_balanced s.body l
  refine ⟨body, ?_, hbody⟩
  rw [Subroutine.actions, run_append, hdeclarations.run_eq]
  simp only [run, step, hrun, List.nil_append, List.cons_append]

/-- The outline of subroutines is made of functions with branches. -/
theorem subroutines_sections (subs : List Subroutine) (l : Labelling) :
    Sections l.className l.labels (subroutineBranches subs)
      (l.run (subs.flatMap Subroutine.actions)).2 := by
  induction subs generalizing l with
  | nil => exact .nil
  | cons s subs ih =>
    obtain ⟨body, hrun, hbody⟩ := s.run_actions l
    have hrest := ih { l with labels := l.labels + 2 * blockBranches s.body }
    rw [List.flatMap_cons, run_append, hrun]
    exact .cons hbody hrest

/-- The outline of a class is made of functions with branches. -/
theorem Class.sections (c : Class) :
    Sections c.name 0 c.branches (({} : Labelling).run c.actions).2 := by
  have hgroups : Quiet (c.groups.flatMap ClassGroup.actions) :=
    List.forall_mem_flatMap.mpr fun g _ => g.group.quiet g.sharing.varKind
  have hsubs := subroutines_sections c.subroutines ⟨c.name, 0, []⟩
  rw [Class.actions, run_append, run, hgroups.run_eq]
  exact hsubs

end Tree

end JackStack
