import JackStack.Proofs.Meaning.Expressions

/-!
# Statements on the machine

The code of a statement does on the machine what the statement does, and it does nothing else: a
statement that comes to something takes the machine there, and with a statement that comes to
nothing the machine goes on for as many steps as one likes. Jumps land where they should because
no label is defined twice.
-/

namespace JackStack.Tree

open JackStack.Machine

variable {lib : Library} {scratch : Scratch} {ctx : Context} {code : List Instruction}
  {st st' : State} {m : Machine}

/-- The machine is in the state of a source statement, with nothing on the stack. -/
structure Ready (ctx : Context) (st : State) (m : Machine) : Prop where
  frame : Matches ctx st.frame m
  world : m.world = st.world
  stack : m.stack = []

/-- An expression leaves the frame as it is. -/
theorem Expression.evalIn_frame {e : Expression} {v : Word}
    (h : e.evalIn ctx lib st = (v, st')) : st'.frame = st.frame := by
  cases h
  rfl

/-- The value of an expression is put on the stack, and the world is the one behind it. -/
theorem Matches.leaves (h : Matches ctx st.frame m) (hctx : ctx.Roomy) (hworld : m.world = st.world)
    {e : Expression} (hd : Demand.Sound ctx e.demands) {v : Word}
    (he : e.evalIn ctx lib st = (v, st')) :
    Leaves lib scratch (e.code ctx) m (v :: m.stack) st'.world := by
  have hleaves : Leaves lib scratch (e.code ctx) m _ _ := Expression.leaves hctx h e hd
  rw [hworld] at hleaves
  cases he
  exact hleaves

/-- On a ready machine the code of an expression leaves its value alone on the stack. -/
theorem Ready.leaves (h : Ready ctx st m) (hctx : ctx.Roomy) {e : Expression}
    (hd : Demand.Sound ctx e.demands) {v : Word} (he : e.evalIn ctx lib st = (v, st')) :
    Leaves lib scratch (e.code ctx) m [v] st'.world := by
  rw [← h.stack]
  exact h.frame.leaves hctx h.world hd he

/-! ## Straight statements -/

/-- A value alone on the stack is stored in a slot. -/
theorem Slot.apply_pop (lib : Library) (scratch : Scratch) {s : Slot} {v : Word}
    (hm : Matches ctx st.frame m) (hworld : m.world = st.world) (hstack : m.stack = [v])
    (hroom : s.index < ctx.room s.kind) (hfits : ctx.room s.kind < operandLimit) :
    ∃ m', m.apply lib scratch s.pop = some m' ∧ Ready ctx (s.write v st) m' := by
  have hindex : (UInt32.ofNat s.index).toNat = s.index :=
    UInt32.toNat_ofNat_of_lt' (Nat.lt_trans hroom hfits)
  have hpop : ∀ segment, m.apply lib scratch (.pop segment (.ofNat s.index)) =
      { m with stack := [] }.write segment s.index v := by
    intro segment
    simp only [Machine.apply, hstack, hindex]
  obtain ⟨type, kind, index⟩ := s
  cases kind with
  | static =>
    refine ⟨_, hpop .static, ⟨hm.arguments, hm.locals, hm.this⟩, ?_, rfl⟩
    simp only [Slot.write, hworld]
  | field =>
    refine ⟨_, hpop .this, ⟨hm.arguments, hm.locals, hm.this⟩, ?_, rfl⟩
    simp only [Slot.write, hworld, hm.this]
  | argument =>
    refine ⟨_, hpop .argument, ⟨?_, hm.locals, hm.this⟩, hworld, rfl⟩
    simp only [Slot.write, hm.arguments]
  | «local» =>
    refine ⟨_, hpop .local, ⟨hm.arguments, ?_, hm.this⟩, hworld, rfl⟩
    intro i hi
    simp only [Slot.write, Function.update_apply, hm.locals i hi]

/-- Assigning to a variable leaves the machine ready in the assigned state. -/
theorem Ready.assign (h : Ready ctx st m) (hctx : ctx.Roomy) {name : String} {value : Expression}
    (hd : Demand.Sound ctx (Statement.assign name value).demands) {v : Word}
    (hvalue : value.evalIn ctx lib st = (v, st')) (n : Nat) :
    ∃ m', applyAll lib scratch ((Statement.assign name value).code ctx n) m = some m' ∧
      Ready ctx (ctx.assign name v st') m' := by
  obtain ⟨s, hs⟩ := hd.slot
  obtain ⟨that, temp, happly⟩ := h.leaves hctx hd.tail hvalue
  obtain ⟨m', hpop, hready⟩ := Slot.apply_pop lib scratch
    (Expression.evalIn_frame hvalue ▸ h.frame.with [v] that temp st'.world) rfl rfl (hctx.bound hs)
    (hctx.fits s.kind)
  refine ⟨m', ?_, by rwa [Context.assign, hs]⟩
  rw [Statement.code, applyAll_append, happly, Option.bind_some, Context.popVar, hs,
    Option.toList_some, List.map_singleton, applyAll, hpop]
  rfl

/-- What leaves nothing on the stack leaves the machine ready. -/
theorem Leaves.ready {line : List Instruction} {w : World} (h : Leaves lib scratch line m [] w)
    (hm : Matches ctx st.frame m) :
    ∃ m', applyAll lib scratch line m = some m' ∧ Ready ctx { st with world := w } m' := by
  obtain ⟨that, temp, happly⟩ := h
  exact ⟨_, happly, hm.with _ _ _ _, rfl, rfl⟩

/-- A value goes through the scratch cell to an address below it on the stack. -/
theorem leaves_store {address v : Word} (hstack : m.stack = [v, address]) :
    Leaves lib scratch [.pop .temp 0, .pop .pointer 1, .push .temp 0, .pop .that 0] m []
      { m.world with heap := Function.update m.world.heap address v } := by
  refine ⟨address, Function.update m.temp 0 v, ?_⟩
  simp [applyAll, Machine.apply, Machine.read, Machine.write, hstack]

/-- Assigning to an element leaves the machine ready in the state with the element written. -/
theorem Ready.assignElement (h : Ready ctx st m) (hctx : ctx.Roomy) {array : String}
    {index value : Expression}
    (hd : Demand.Sound ctx (Statement.assignElement array index value).demands) {i v : Word}
    {st'' : State} (hindex : index.evalIn ctx lib st = (i, st'))
    (hvalue : value.evalIn ctx lib st' = (v, st'')) (n : Nat) :
    ∃ m', applyAll lib scratch ((Statement.assignElement array index value).code ctx n) m =
        some m' ∧ Ready ctx { st'' with
          world.heap := Function.update st''.world.heap
            (ctx.value array st'.frame st'.world + i) v } m' := by
  have hframe := Expression.evalIn_frame hindex
  have hm : ∀ stack that temp,
      Matches ctx st'.frame { m with stack, that, temp, world := st'.world } :=
    fun _ _ _ => hframe ▸ h.frame.with _ _ _ _
  have haddress : Leaves lib scratch (index.code ctx ++ ctx.pushVar array) m
      [ctx.value array st'.frame st'.world, i] st'.world :=
    (h.leaves hctx hd.tail.left hindex).append fun _ _ =>
      Context.leaves_pushVar hctx (hm _ _ _) hd.slot
  have hboth : Leaves lib scratch
      (index.code ctx ++ ctx.pushVar array ++ .arithmetic .add :: value.code ctx) m
      [v, ctx.value array st'.frame st'.world + i] st''.world :=
    haddress.append fun _ _ => .cons (leaves_address rfl) fun _ _ =>
      (hm _ _ _).leaves hctx rfl hd.tail.right hvalue
  have hframe' := (Expression.evalIn_frame hvalue).trans hframe
  exact (hboth.append fun _ _ => leaves_store rfl).ready (hframe' ▸ h.frame)

/-- A call for its effect leaves the machine ready in the world that it leads to. -/
theorem Ready.perform (h : Ready ctx st m) (hctx : ctx.Roomy) {target : Call}
    (hd : Demand.Sound ctx target.demands) {v : Word} {w : World}
    (htarget : target.eval ctx lib st.frame st.world = (v, w)) (n : Nat) :
    ∃ m', applyAll lib scratch ((Statement.perform target).code ctx n) m = some m' ∧
      Ready ctx { st with world := w } m' := by
  have hcall : Leaves lib scratch (target.code ctx) m _ _ := Call.leaves hctx h.frame target hd
  rw [h.world, h.stack, htarget] at hcall
  exact (hcall.append fun that temp => .single that (Function.update temp 0 v) rfl).ready h.frame

/-! ## Jumps -/

/-- The machine goes from one place to another and nothing else changes. -/
def Passes (lib : Library) (scratch : Scratch) (code : List Instruction) (pc pc' : Nat) : Prop :=
  ∀ m, ∃ k, runFor lib scratch code k (pc, m) = some (pc', m)

namespace Passes

variable {pc pc' pc'' : Nat} {name : String}

/-- A passage and one from where it ended make one. -/
theorem trans (h : Passes lib scratch code pc pc') (h' : Passes lib scratch code pc' pc'') :
    Passes lib scratch code pc pc'' := by
  intro m
  obtain ⟨j, hj⟩ := h m
  obtain ⟨k, hk⟩ := h' m
  exact ⟨j + k, runFor_trans hj hk⟩

/-- A label is passed. -/
theorem label (h : code[pc]? = some (.label name)) : Passes lib scratch code pc (pc + 1) :=
  fun _ => ⟨1, runFor_one (step_of_apply h rfl)⟩

/-- A jump passes to its label, which stands in one place only. -/
theorem goto (hnodup : (labelNames code).Nodup) (h : code[pc]? = some (.goto name))
    (h' : code[pc']? = some (.label name)) : Passes lib scratch code pc pc' := by
  intro m
  refine ⟨1, runFor_one ?_⟩
  simp only [step, h, target_eq hnodup h', Option.map_some]

end Passes

/-- At a place the machine finds out the value of a condition, in at least one step, and goes to
one of two others. -/
def Branches (lib : Library) (scratch : Scratch) (code : List Instruction) (ctx : Context)
    (pc : Nat) (condition : Expression) (taken other : Nat) : Prop :=
  ∀ ⦃st st' : State⦄ ⦃m : Machine⦄ ⦃v : Word⦄, Ready ctx st m →
    condition.evalIn ctx lib st = (v, st') → ∃ k m',
      runFor lib scratch code (k + 1) (pc, m) = some (if v = Word.yes then taken else other, m') ∧
        Ready ctx st' m'

/-- A branch behind a passage is a branch. -/
theorem Branches.after {pc pc' taken other : Nat} {condition : Expression}
    (h : Passes lib scratch code pc pc')
    (h' : Branches lib scratch code ctx pc' condition taken other) :
    Branches lib scratch code ctx pc condition taken other := by
  intro st st' m v hready hvalue
  obtain ⟨j, hj⟩ := h m
  obtain ⟨k, m', hk, hready'⟩ := h' hready hvalue
  have hrun := runFor_trans hj hk
  exact ⟨j + k, m', hrun, hready'⟩

/-- Only the negation of `true` is zero. -/
theorem not_eq_zero_iff {v : Word} : ~~~v = 0 ↔ v = Word.yes := by
  rw [← BitVec.not_inj, BitVec.not_not]
  rfl

/-- A condition, its negation and a jump branch to behind them or to the label. -/
theorem branches_of_codeAt (hctx : ctx.Roomy) (hnodup : (labelNames code).Nodup)
    {condition : Expression} (hd : Demand.Sound ctx condition.demands) {pc other : Nat}
    {name : String}
    (hcode : CodeAt code pc (condition.code ctx ++ [.arithmetic .not, .ifGoto name]))
    (hother : code[other]? = some (.label name)) :
    Branches lib scratch code ctx pc condition (pc + (condition.code ctx).length + 2) other := by
  intro st st' m v hready hvalue
  obtain ⟨hcondition, hnot, hjump, -⟩ := codeAt_append.mp hcode
  obtain ⟨that, temp, happly⟩ := hready.leaves hctx hd hvalue
  have hrun := runFor_of_applyAll hcondition happly
  have hframe := Expression.evalIn_frame hvalue
  refine ⟨(condition.code ctx).length + 1, { m with stack := [], that, temp, world := st'.world },
    runFor_trans (runFor_trans hrun (runFor_one (step_of_apply hnot rfl))) (runFor_one ?_),
    hframe ▸ hready.frame.with _ _ _ _, rfl, rfl⟩
  simp only [step, hjump, not_eq_zero_iff, target_eq hnodup hother, Option.map_some]
  split <;> rfl

/-! ## Where the parts of a statement are -/

section Layout

variable (hctx : ctx.Roomy) (hnodup : (labelNames code).Nodup) {n pc : Nat}
  {condition : Expression} {block other : List Statement}

include hctx hnodup

/-- Behind the condition of an `if` the machine is at its block or where the block ends, and it
gets from there to the end. -/
theorem ifThen_layout (hd : Demand.Sound ctx (Statement.ifThen condition block).demands)
    (hcode : CodeAt code pc ((Statement.ifThen condition block).code ctx n)) :
    ∃ taken skipped, Branches lib scratch code ctx pc condition taken skipped ∧
      CodeAt code taken (blockCode ctx (n + 2) block) ∧
      Passes lib scratch code (taken + (blockCode ctx (n + 2) block).length)
        (pc + ((Statement.ifThen condition block).code ctx n).length) ∧
      Passes lib scratch code skipped
        (pc + ((Statement.ifThen condition block).code ctx n).length) := by
  simp only [Statement.code, List.append_assoc, List.cons_append, codeAt_append, CodeAt] at hcode
  obtain ⟨hcondition, hnot, hjump, hblock, hgoto, hsecond, hfirst, -⟩ := hcode
  have hend : pc + ((Statement.ifThen condition block).code ctx n).length =
      pc + (condition.code ctx).length + 1 + 1 + (blockCode ctx (n + 2) block).length +
        1 + 1 + 1 := by
    simp only [Statement.code, List.length_append, List.length_cons, List.length_nil]
    omega
  rw [hend]
  refine ⟨_, _, branches_of_codeAt hctx hnodup hd.left ?_ hsecond, hblock, ?_, ?_⟩
  · exact codeAt_append.mpr ⟨hcondition, hnot, hjump, trivial⟩
  · exact (Passes.goto hnodup hgoto hfirst).trans (.label hfirst)
  · exact (Passes.label hsecond).trans (.label hfirst)

/-- Behind the condition of an `if` with an `else` the machine is at one of the two blocks, and it
gets from behind either to the end. -/
theorem ifElse_layout (hd : Demand.Sound ctx (Statement.ifElse condition block other).demands)
    (hcode : CodeAt code pc ((Statement.ifElse condition block other).code ctx n)) :
    ∃ taken skipped, Branches lib scratch code ctx pc condition taken skipped ∧
      CodeAt code taken (blockCode ctx (n + 2) block) ∧
      CodeAt code (skipped + 1) (blockCode ctx (n + 2 + blockLabels block) other) ∧
      Passes lib scratch code skipped (skipped + 1) ∧
      Passes lib scratch code (taken + (blockCode ctx (n + 2) block).length)
        (pc + ((Statement.ifElse condition block other).code ctx n).length) ∧
      Passes lib scratch code
        (skipped + 1 + (blockCode ctx (n + 2 + blockLabels block) other).length)
        (pc + ((Statement.ifElse condition block other).code ctx n).length) := by
  simp only [Statement.code, List.append_assoc, List.cons_append, codeAt_append, CodeAt] at hcode
  obtain ⟨hcondition, hnot, hjump, hblock, hgoto, hsecond, hother, hfirst, -⟩ := hcode
  have hend : pc + ((Statement.ifElse condition block other).code ctx n).length =
      pc + (condition.code ctx).length + 1 + 1 + (blockCode ctx (n + 2) block).length + 1 + 1 +
        (blockCode ctx (n + 2 + blockLabels block) other).length + 1 := by
    simp only [Statement.code, List.length_append, List.length_cons, List.length_nil]
    omega
  rw [hend]
  refine ⟨_, _, branches_of_codeAt hctx hnodup hd.left.left ?_ hsecond, hblock, hother,
    .label hsecond, ?_, .label hfirst⟩
  · exact codeAt_append.mpr ⟨hcondition, hnot, hjump, trivial⟩
  · exact (Passes.goto hnodup hgoto hfirst).trans (.label hfirst)

/-- Behind the condition of a loop the machine is at its block, behind which it gets back to the
condition, or where the loop ends. -/
theorem while_layout (hd : Demand.Sound ctx (Statement.whileLoop condition block).demands)
    (hcode : CodeAt code pc ((Statement.whileLoop condition block).code ctx n)) :
    ∃ taken skipped, Branches lib scratch code ctx pc condition taken skipped ∧
      CodeAt code taken (blockCode ctx (n + 2) block) ∧
      Passes lib scratch code (taken + (blockCode ctx (n + 2) block).length) pc ∧
      Passes lib scratch code skipped
        (pc + ((Statement.whileLoop condition block).code ctx n).length) := by
  simp only [Statement.code, List.append_assoc, List.cons_append, codeAt_append, CodeAt] at hcode
  obtain ⟨hfirst, hcondition, hnot, hjump, hblock, hgoto, hsecond, -⟩ := hcode
  have hend : pc + ((Statement.whileLoop condition block).code ctx n).length =
      pc + 1 + (condition.code ctx).length + 1 + 1 + (blockCode ctx (n + 2) block).length +
        1 + 1 := by
    simp only [Statement.code, List.length_append, List.length_cons, List.length_nil]
    omega
  rw [hend]
  refine ⟨_, _, Branches.after (.label hfirst) (branches_of_codeAt hctx hnodup hd.left ?_ hsecond),
    hblock, .goto hnodup hgoto hfirst, .label hsecond⟩
  exact codeAt_append.mpr ⟨hcondition, hnot, hjump, trivial⟩

end Layout

/-! ## What a statement comes to -/

/-- The machine gets to what statements come to: to the place behind them in the state that they
finish in, or to a place where their value is returned. -/
def Meets (lib : Library) (scratch : Scratch) (code : List Instruction) (ctx : Context)
    (finish : Nat) (o : Completion) (here : Nat × Machine) : Prop :=
  match o with
  | .finished st => ∃ k m, runFor lib scratch code k here = some (finish, m) ∧ Ready ctx st m
  | .returned v w => ∃ k pc m, runFor lib scratch code k here = some (pc, m) ∧
      m.ending? code pc = some ⟨some v, w⟩

namespace Meets

variable {finish finish' k : Nat} {o : Completion} {here there : Nat × Machine}

/-- Steps in front. -/
theorem after (h : runFor lib scratch code k here = some there)
    (h' : Meets lib scratch code ctx finish o there) :
    Meets lib scratch code ctx finish o here := by
  cases o with
  | finished st =>
    obtain ⟨j, m, hj, hready⟩ := h'
    exact ⟨k + j, m, runFor_trans h hj, hready⟩
  | returned v w =>
    obtain ⟨j, pc, m, hj, hending⟩ := h'
    exact ⟨k + j, pc, m, runFor_trans h hj, hending⟩

/-- Steps behind, if control gets there. -/
theorem passes (h : Meets lib scratch code ctx finish o here)
    (h' : Passes lib scratch code finish finish') : Meets lib scratch code ctx finish' o here := by
  cases o with
  | finished st =>
    obtain ⟨j, m, hj, hready⟩ := h
    obtain ⟨k, hk⟩ := h' m
    exact ⟨j + k, m, runFor_trans hj hk, hready⟩
  | returned v w => exact h

/-- Code that a ready machine gets through meets the statement finished. -/
theorem of_applyAll {line : List Instruction} {pc : Nat} {m' : Machine}
    (hcode : CodeAt code pc line) (h : applyAll lib scratch line m = some m')
    (hready : Ready ctx st m') :
    Meets lib scratch code ctx (pc + line.length) (.finished st) (pc, m) :=
  ⟨line.length, m', runFor_of_applyAll hcode h, hready⟩

/-- A value alone on the stack is returned. -/
theorem of_return {line : List Instruction} {pc : Nat} {v : Word} {w : World}
    (hcode : CodeAt code pc (line ++ [.ret])) (h : Leaves lib scratch line m [v] w) :
    Meets lib scratch code ctx finish (.returned v w) (pc, m) := by
  obtain ⟨that, temp, happly⟩ := h
  obtain ⟨hline, hret, -⟩ := codeAt_append.mp hcode
  refine ⟨line.length, _, _, runFor_of_applyAll hline happly, ?_⟩
  simp only [ending?, hret]
  rfl

end Meets

mutual

/-- What a statement comes to is where its code takes the machine. -/
theorem Statement.Runs.meets (hctx : ctx.Roomy) (hnodup : (labelNames code).Nodup) :
    ∀ {s : Statement} {st : State} {o : Completion}, s.Runs ctx lib st o →
      ∀ {n pc : Nat} {m : Machine}, Demand.Sound ctx s.demands → CodeAt code pc (s.code ctx n) →
        Ready ctx st m → Meets lib scratch code ctx (pc + (s.code ctx n).length) o (pc, m)
  | _, _, _, .assign hvalue, n, _, _, hd, hcode, hready => by
    obtain ⟨m', happly, hready'⟩ := hready.assign hctx hd hvalue n
    exact .of_applyAll hcode happly hready'
  | _, _, _, .assignElement hindex hvalue, n, _, _, hd, hcode, hready => by
    obtain ⟨m', happly, hready'⟩ := hready.assignElement hctx hd hindex hvalue n
    exact .of_applyAll hcode happly hready'
  | _, _, _, .ifThen hcondition hblock, _, _, _, hd, hcode, hready => by
    obtain ⟨taken, skipped, hbranches, htaken, hpass, -⟩ := ifThen_layout hctx hnodup hd hcode
    obtain ⟨k, m', hrun, hready'⟩ := hbranches hready hcondition
    have hmeets := BlockRuns.meets hctx hnodup hblock hd.right htaken hready'
    exact .after hrun (hmeets.passes hpass)
  | _, _, _, .ifThenSkip hcondition hv, _, _, _, hd, hcode, hready => by
    obtain ⟨taken, skipped, hbranches, -, -, hpass⟩ := ifThen_layout hctx hnodup hd hcode
    obtain ⟨k, m', hrun, hready'⟩ := hbranches hready hcondition
    rw [if_neg hv] at hrun
    exact .passes ⟨k + 1, m', hrun, hready'⟩ hpass
  | _, _, _, .ifElse hcondition hblock, _, _, _, hd, hcode, hready => by
    obtain ⟨taken, skipped, hbranches, htaken, -, -, hpass, -⟩ :=
      ifElse_layout hctx hnodup hd hcode
    obtain ⟨k, m', hrun, hready'⟩ := hbranches hready hcondition
    have hmeets := BlockRuns.meets hctx hnodup hblock hd.left.right htaken hready'
    exact .after hrun (hmeets.passes hpass)
  | _, _, _, .ifElseOther hcondition hv hother, _, _, _, hd, hcode, hready => by
    obtain ⟨taken, skipped, hbranches, -, hskipped, hlabel, -, hpass⟩ :=
      ifElse_layout hctx hnodup hd hcode
    obtain ⟨k, m', hrun, hready'⟩ := hbranches hready hcondition
    rw [if_neg hv] at hrun
    obtain ⟨j, hj⟩ := hlabel m'
    have hmeets := BlockRuns.meets hctx hnodup hother hd.right hskipped hready'
    exact .after (runFor_trans hrun hj) (hmeets.passes hpass)
  | _, _, _, .whileDone hcondition hv, _, _, _, hd, hcode, hready => by
    obtain ⟨taken, skipped, hbranches, -, -, hpass⟩ := while_layout hctx hnodup hd hcode
    obtain ⟨k, m', hrun, hready'⟩ := hbranches hready hcondition
    rw [if_neg hv] at hrun
    exact .passes ⟨k + 1, m', hrun, hready'⟩ hpass
  | _, _, _, .whileAgain hcondition hblock hagain, _, _, _, hd, hcode, hready => by
    obtain ⟨taken, skipped, hbranches, htaken, hpass, -⟩ := while_layout hctx hnodup hd hcode
    obtain ⟨k, m', hrun, hready'⟩ := hbranches hready hcondition
    have hmeets := BlockRuns.meets hctx hnodup hblock hd.right htaken hready'
    obtain ⟨j, m'', hj, hready''⟩ := hmeets.passes hpass
    exact .after (runFor_trans hrun hj) (Statement.Runs.meets hctx hnodup hagain hd hcode hready'')
  | _, _, _, .whileReturned hcondition hblock, _, _, _, hd, hcode, hready => by
    obtain ⟨taken, skipped, hbranches, htaken, -⟩ := while_layout hctx hnodup hd hcode
    obtain ⟨k, m', hrun, hready'⟩ := hbranches hready hcondition
    exact .after hrun (BlockRuns.meets hctx hnodup hblock hd.right htaken hready')
  | _, _, _, .perform htarget, n, _, _, hd, hcode, hready => by
    obtain ⟨m', happly, hready'⟩ := hready.perform hctx hd htarget n
    exact .of_applyAll hcode happly hready'
  | _, _, _, .giveBackNone, _, _, m, _, hcode, hready => by
    have hzero : Leaves lib scratch [.push .constant (.ofNat 0)] m _ _ := leaves_constant 0
    rw [hready.stack, hready.world] at hzero
    exact .of_return hcode hzero
  | _, _, _, .giveBack hvalue, _, _, _, hd, hcode, hready =>
    .of_return hcode (hready.leaves hctx hd hvalue)

/-- The machine meets what a block comes to. -/
theorem BlockRuns.meets (hctx : ctx.Roomy) (hnodup : (labelNames code).Nodup) :
    ∀ {b : List Statement} {st : State} {o : Completion}, BlockRuns ctx lib b st o →
      ∀ {n pc : Nat} {m : Machine}, Demand.Sound ctx (blockDemands b) →
        CodeAt code pc (blockCode ctx n b) → Ready ctx st m →
          Meets lib scratch code ctx (pc + (blockCode ctx n b).length) o (pc, m)
  | _, _, _, .nil, _, _, m, _, _, hready => ⟨0, m, rfl, hready⟩
  | _, _, _, .cons hs hrest, _, _, _, hd, hcode, hready => by
    obtain ⟨hfront, hback⟩ := codeAt_append.mp hcode
    obtain ⟨k, m', hrun, hready'⟩ := Statement.Runs.meets hctx hnodup hs hd.left hfront hready
    rw [blockCode, List.length_append, ← Nat.add_assoc]
    exact .after hrun (BlockRuns.meets hctx hnodup hrest hd.right hback hready')
  | _, _, _, .returned hs, _, _, _, hd, hcode, hready => by
    obtain ⟨hfront, -⟩ := codeAt_append.mp hcode
    exact Statement.Runs.meets hctx hnodup hs hd.left hfront hready

end

/-! ## Statements that come to nothing -/

mutual

/-- A statement comes to something, or the machine takes as many steps as one likes with it. Where a
loop is back at its condition, it is so at least one step later. -/
theorem Statement.runs_or_proceeds (hctx : ctx.Roomy) (hnodup : (labelNames code).Nodup)
    (k : Nat) : (s : Statement) → ∀ {st : State} {n pc : Nat} {m : Machine},
      Demand.Sound ctx s.demands → CodeAt code pc (s.code ctx n) → Ready ctx st m →
        (∃ o, s.Runs ctx lib st o) ∨ Proceeds lib scratch code k (pc, m)
  | .assign _ value, st, _, _, _, _, _, _ => by
    rcases hvalue : value.evalIn ctx lib st with ⟨v, st'⟩
    exact .inl ⟨_, .assign hvalue⟩
  | .assignElement _ index value, st, _, _, _, _, _, _ => by
    rcases hindex : index.evalIn ctx lib st with ⟨i, st'⟩
    rcases hvalue : value.evalIn ctx lib st' with ⟨v, st''⟩
    exact .inl ⟨_, .assignElement hindex hvalue⟩
  | .ifThen condition block, st, _, _, _, hd, hcode, hready => by
    rcases hcondition : condition.evalIn ctx lib st with ⟨v, st'⟩
    by_cases hv : v = Word.yes
    · subst hv
      obtain ⟨taken, skipped, hbranches, htaken, -⟩ := ifThen_layout hctx hnodup hd hcode
      obtain ⟨j, m', hrun, hready'⟩ := hbranches hready hcondition
      rcases block_runs_or_proceeds hctx hnodup k block hd.right htaken hready' with
        ⟨o, hblock⟩ | hproceeds
      · exact .inl ⟨o, .ifThen hcondition hblock⟩
      · exact .inr (hproceeds.after hrun (Nat.le_add_left _ _))
    · exact .inl ⟨_, .ifThenSkip hcondition hv⟩
  | .ifElse condition block other, st, _, _, _, hd, hcode, hready => by
    rcases hcondition : condition.evalIn ctx lib st with ⟨v, st'⟩
    obtain ⟨taken, skipped, hbranches, htaken, hskipped, hlabel, -⟩ :=
      ifElse_layout hctx hnodup hd hcode
    obtain ⟨j, m', hrun, hready'⟩ := hbranches hready hcondition
    by_cases hv : v = Word.yes
    · subst hv
      rcases block_runs_or_proceeds hctx hnodup k block hd.left.right htaken hready' with
        ⟨o, hblock⟩ | hproceeds
      · exact .inl ⟨o, .ifElse hcondition hblock⟩
      · exact .inr (hproceeds.after hrun (Nat.le_add_left _ _))
    · rw [if_neg hv] at hrun
      obtain ⟨i, hi⟩ := hlabel m'
      rcases block_runs_or_proceeds hctx hnodup k other hd.right hskipped hready' with
        ⟨o, hother⟩ | hproceeds
      · exact .inl ⟨o, .ifElseOther hcondition hv hother⟩
      · exact .inr (hproceeds.after (runFor_trans hrun hi) (Nat.le_add_left _ _))
  | .whileLoop condition block, st, _, _, _, hd, hcode, hready => by
    rcases hcondition : condition.evalIn ctx lib st with ⟨v, st'⟩
    by_cases hv : v = Word.yes
    · subst hv
      obtain ⟨taken, skipped, hbranches, htaken, hpass, -⟩ := while_layout hctx hnodup hd hcode
      obtain ⟨j, m', hrun, hready'⟩ := hbranches hready hcondition
      rcases block_runs_or_proceeds hctx hnodup k block hd.right htaken hready' with
        ⟨st'' | ⟨v, w⟩, hblock⟩ | hproceeds
      · obtain ⟨i, m'', hi, hready''⟩ :=
          (BlockRuns.meets hctx hnodup hblock hd.right htaken hready').passes hpass
        cases k with
        | zero => exact .inr rfl
        | succ k =>
          rcases Statement.runs_or_proceeds hctx hnodup k (.whileLoop condition block) hd hcode
            hready'' with ⟨o, hagain⟩ | hproceeds
          · exact .inl ⟨o, .whileAgain hcondition hblock hagain⟩
          · exact .inr (hproceeds.after (runFor_trans hrun hi) (by omega))
      · exact .inl ⟨_, .whileReturned hcondition hblock⟩
      · exact .inr (hproceeds.after hrun (Nat.le_add_left _ _))
    · exact .inl ⟨_, .whileDone hcondition hv⟩
  | .perform target, st, _, _, _, _, _, _ => by
    rcases htarget : target.eval ctx lib st.frame st.world with ⟨v, w⟩
    exact .inl ⟨_, .perform htarget⟩
  | .giveBack none, _, _, _, _, _, _, _ => .inl ⟨_, .giveBackNone⟩
  | .giveBack (some value), st, _, _, _, _, _, _ => by
    rcases hvalue : value.evalIn ctx lib st with ⟨v, st'⟩
    exact .inl ⟨_, .giveBack hvalue⟩
termination_by s => (k, sizeOf s)

/-- A block comes to something, or the machine takes as many steps as one likes with it. -/
theorem block_runs_or_proceeds (hctx : ctx.Roomy) (hnodup : (labelNames code).Nodup) (k : Nat) :
    (b : List Statement) → ∀ {st : State} {n pc : Nat} {m : Machine},
      Demand.Sound ctx (blockDemands b) → CodeAt code pc (blockCode ctx n b) → Ready ctx st m →
        (∃ o, BlockRuns ctx lib b st o) ∨ Proceeds lib scratch code k (pc, m)
  | [], _, _, _, _, _, _, _ => .inl ⟨_, .nil⟩
  | s :: rest, _, _, _, _, hd, hcode, hready => by
    obtain ⟨hfront, hback⟩ := codeAt_append.mp hcode
    rcases Statement.runs_or_proceeds hctx hnodup k s hd.left hfront hready with
      ⟨st' | ⟨v, w⟩, hs⟩ | hproceeds
    · obtain ⟨j, m', hrun, hready'⟩ := Statement.Runs.meets hctx hnodup hs hd.left hfront hready
      rcases block_runs_or_proceeds hctx hnodup k rest hd.right hback hready' with
        ⟨o, hrest⟩ | hproceeds
      · exact .inl ⟨o, .cons hs hrest⟩
      · exact .inr (hproceeds.after hrun (Nat.le_add_left _ _))
    · exact .inl ⟨_, .returned hs⟩
    · exact .inr hproceeds
termination_by b => (k, sizeOf b)

end

end JackStack.Tree
