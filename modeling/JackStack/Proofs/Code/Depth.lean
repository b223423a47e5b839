import JackStack.Proofs.Code.Carrying

/-!
# Depth of the operand stack

Read from top to bottom, the code of an expression leaves one value on the stack and that of a
statement none. No instruction takes more values than are there, and where control can leave the
line, at a label, a jump or a return, the depth is the one that fits every other way to get there.
-/

namespace JackStack

namespace Instruction

/-- The number of values that an instruction takes from the stack. -/
def takes : Instruction → Nat
  | push _ _ => 0
  | pop _ _ => 1
  | arithmetic .neg => 1
  | arithmetic .not => 1
  | arithmetic _ => 2
  | label _ => 0
  | goto _ => 0
  | ifGoto _ => 1
  | call _ args => args.toNat
  | function _ _ => 0
  | ret => 1

/-- The number of values that an instruction puts on the stack. -/
def gives : Instruction → Nat
  | push _ _ => 1
  | arithmetic _ => 1
  | call _ _ => 1
  | _ => 0

/-- What an instruction adds to the depth. -/
def effect (i : Instruction) : Int := i.gives - i.takes

/-- The depth at which an instruction has to stand, if control can leave the line there. -/
def level? : Instruction → Option Nat
  | label _ | goto _ => some 0
  | ifGoto _ | ret => some 1
  | _ => none

end Instruction

/-- The depth behind instructions, from depth zero. -/
def depthAfter : List Instruction → Int
  | [] => 0
  | i :: rest => i.effect + depthAfter rest

/-- The instructions of a function keep to the stack: none takes more values than there are,
labels and jumps stand at depth zero, conditional jumps and returns at depth one, and the depth at
the end is zero. -/
structure Disciplined (body : List Instruction) : Prop where
  enough : ∀ front i back, body = front ++ i :: back → (i.takes : Int) ≤ depthAfter front
  level : ∀ front i back, body = front ++ i :: back →
    ∀ depth : Nat, i.level? = some depth → depthAfter front = depth
  finish : depthAfter body = 0

/-- The functions in code, each with its line and the instructions up to the next one. -/
def functions : List Instruction → List (List Instruction)
  | [] => []
  | i :: rest =>
    if i.isFunction then (i :: rest.takeWhile (! ·.isFunction)) :: functions rest
    else functions rest

/-! ## Code from one depth to another -/

/-- The instructions lead from one depth to another, each of them finds what it needs, and none
of them begins a function. -/
inductive Leads : Nat → List Instruction → Nat → Prop
  | nil {d : Nat} : Leads d [] d
  | cons {d e : Nat} {i : Instruction} {rest : List Instruction} (enough : i.takes ≤ d)
      (level : ∀ depth ∈ i.level?, depth = d) (inner : i.isFunction = false)
      (next : Leads (d - i.takes + i.gives) rest e) : Leads d (i :: rest) e

namespace Leads

variable {d e f : Nat} {i : Instruction} {front back code : List Instruction}

/-- Code leads on from where the code in front of it led. -/
theorem append (h : Leads d front e) (h' : Leads e back f) : Leads d (front ++ back) f := by
  induction h with
  | nil => exact h'
  | cons enough level inner _ ih => exact .cons enough level inner (ih h')

/-- One instruction that needs no particular depth. -/
theorem single (enough : i.takes ≤ d) (level : i.level? = none) (inner : i.isFunction = false) :
    Leads d [i] (d - i.takes + i.gives) :=
  .cons enough (by simp [level]) inner .nil

theorem label (name : String) : Leads 0 [.label name] 0 :=
  .cons (Nat.le_refl 0) (by simp [Instruction.level?]) rfl .nil

theorem goto (name : String) : Leads 0 [.goto name] 0 :=
  .cons (Nat.le_refl 0) (by simp [Instruction.level?]) rfl .nil

/-- A jump with a condition takes the condition. -/
theorem ifGoto (name : String) : Leads 1 [.ifGoto name] 0 :=
  .cons (Nat.le_refl 1) (by simp [Instruction.level?]) rfl .nil

/-- A return takes the value that it gives back. -/
theorem ret : Leads 1 [.ret] 0 := .cons (Nat.le_refl 1) (by simp [Instruction.level?]) rfl .nil

/-- The depth counted along the code is the one that it leads to. -/
theorem depthAfter_eq (h : Leads d code e) : (d : Int) + depthAfter code = e := by
  induction h with
  | nil => exact Int.add_zero _
  | @cons d e i rest enough _ _ _ ih =>
    rw [depthAfter, ← ih, Instruction.effect]
    omega

/-- Inside such code every instruction finds what it needs. -/
theorem at_split (h : Leads d (front ++ i :: back) e) :
    (i.takes : Int) ≤ d + depthAfter front ∧
      ∀ depth : Nat, i.level? = some depth → (d : Int) + depthAfter front = depth := by
  induction front generalizing d with
  | nil =>
    cases h with
    | cons enough level _ _ =>
      refine ⟨?_, ?_⟩
      · simpa [depthAfter] using enough
      · intro depth hdepth
        simp [depthAfter, level depth hdepth]
  | cons j front ih =>
    cases h with
    | cons enough level _ next =>
      have hih := ih next
      have hdepth : ((d - j.takes + j.gives : Nat) : Int) + depthAfter front =
          d + depthAfter (j :: front) := by
        rw [depthAfter, Instruction.effect]
        omega
      rwa [hdepth] at hih

/-- Code that leads anywhere holds no function. -/
theorem isFunction_eq_false (h : Leads d code e) : ∀ i ∈ code, i.isFunction = false := by
  induction h with
  | nil => exact fun _ hi => absurd hi List.not_mem_nil
  | cons _ _ inner _ ih => exact List.forall_mem_cons.mpr ⟨inner, ih⟩

/-- Code that leads from nothing to nothing is disciplined. -/
theorem disciplined (h : Leads 0 code 0) : Disciplined code := by
  refine ⟨?_, ?_, ?_⟩
  · rintro front i back rfl
    simpa using h.at_split.1
  · rintro front i back rfl depth hdepth
    simpa using h.at_split.2 depth hdepth
  · simpa using h.depthAfter_eq

end Leads

namespace Tree

/-! ## Expressions -/

/-- What the depth of code depends on: names are declared, and the numbers of arguments fit their
operands. -/
structure Demand.Sound (ctx : Context) (demands : List Demand) : Prop where
  met : ∀ d ∈ demands, d.Met ctx
  fits : ∀ n, .arguments n ∈ demands → n + 1 < operandLimit

namespace Demand.Sound

variable {ctx : Context} {demands more : List Demand} {d : Demand}

theorem tail (h : Sound ctx (d :: demands)) : Sound ctx demands :=
  ⟨fun x hx => h.met x (List.mem_cons_of_mem d hx),
    fun n hn => h.fits n (List.mem_cons_of_mem d hn)⟩

/-- Demands in front are sound if all are. -/
theorem left (h : Sound ctx (demands ++ more)) : Sound ctx demands :=
  ⟨fun x hx => h.met x (List.mem_append_left more hx),
    fun n hn => h.fits n (List.mem_append_left more hn)⟩

/-- Demands behind are sound if all are. -/
theorem right (h : Sound ctx (demands ++ more)) : Sound ctx more :=
  ⟨fun x hx => h.met x (List.mem_append_right demands hx),
    fun n hn => h.fits n (List.mem_append_right demands hn)⟩

/-- A name that is demanded has a slot. -/
theorem slot {name : String} (h : Sound ctx (.known name :: demands)) :
    ∃ s, ctx.slot? name = some s :=
  Option.isSome_iff_exists.mp (Context.slot?_isSome.mpr (h.met _ List.mem_cons_self))

end Demand.Sound

/-- A push adds a value. -/
theorem Slot.leads_push (s : Slot) (d : Nat) : Leads d [s.push] (d + 1) := by
  obtain ⟨type, kind, index⟩ := s
  cases kind <;> exact .single (Nat.zero_le d) rfl rfl

/-- A pop takes a value. -/
theorem Slot.leads_pop (s : Slot) (d : Nat) : Leads (d + 1) [s.pop] d := by
  obtain ⟨type, kind, index⟩ := s
  cases kind <;> exact .single (Nat.succ_pos d) rfl rfl

/-- A declared name pushes one value. -/
theorem Context.leads_pushVar {ctx : Context} {name : String} {s : Slot}
    (h : ctx.slot? name = some s) (d : Nat) : Leads d (ctx.pushVar name) (d + 1) := by
  rw [Context.pushVar, h]
  exact s.leads_push d

/-- A binary operation takes two values and leaves one. -/
theorem leads_binaryCode (op : BinaryOp) (d : Nat) : Leads (d + 2) [binaryCode op] (d + 1) := by
  cases op <;> exact .single (Nat.le_add_left 2 d) rfl rfl

/-- Characters are appended one by one to the string on top. -/
theorem leads_appendCode (content : List Char) (d : Nat) :
    Leads (d + 1) (content.flatMap appendCode) (d + 1) := by
  induction content with
  | nil => exact .nil
  | cons c content ih =>
    have hpush : Leads (d + 1) [.push .constant (.ofNat c.toNat)] (d + 2) :=
      .single (Nat.zero_le _) rfl rfl
    have hcall : Leads (d + 2) [.call "String.appendChar" 2] (d + 1) :=
      .single (Nat.le_add_left 2 d) rfl rfl
    exact (hpush.append hcall).append ih

/-- The receiver of a call and the instruction that makes the call agree on their number. -/
theorem Context.leads_call (ctx : Context) (owner : Option String) (name : String) {args : Nat}
    (hargs : args + 1 < operandLimit) (d : Nat) :
    ∃ receivers, Leads d (ctx.receiverCode owner) (d + receivers) ∧
      Leads (d + receivers + args) [ctx.callCode owner name args] (d + 1) := by
  have hcall : ∀ (callee : String) (n : Nat), n < operandLimit →
      Leads (d + n) [.call callee (.ofNat n)] (d + 1) := by
    intro callee n hn
    have htakes : (Instruction.call callee (.ofNat n)).takes = n := UInt32.toNat_ofNat_of_lt' hn
    have hsingle := Leads.single (d := d + n) (i := .call callee (.ofNat n)) (by omega) rfl rfl
    rwa [htakes, Nat.add_sub_cancel] at hsingle
  unfold Context.receiverCode Context.callCode
  cases owner with
  | none =>
    by_cases hk : ctx.kind = .function
    · simp only [if_pos hk]
      exact ⟨0, .nil, hcall name args (by omega)⟩
    · simp only [if_neg hk]
      refine ⟨1, .single (Nat.zero_le d) rfl rfl, ?_⟩
      rw [Nat.add_assoc, Nat.add_comm 1]
      exact hcall _ (args + 1) hargs
  | some first =>
    cases hs : ctx.slot? first with
    | none =>
      simp only [Context.pushVar, hs]
      exact ⟨0, .nil, hcall _ args (by omega)⟩
    | some s =>
      refine ⟨1, Context.leads_pushVar hs d, ?_⟩
      simp only [hs]
      rw [Nat.add_assoc, Nat.add_comm 1]
      exact hcall _ (args + 1) hargs

mutual

/-- The code of a term adds one value. -/
theorem Term.leads {ctx : Context} (d : Nat) : (t : Term) → Demand.Sound ctx t.demands →
    Leads d (t.code ctx) (d + 1)
  | .integer _, _ => .single (Nat.zero_le d) rfl rfl
  | .string content, _ => by
    have hnew : Leads d [.push .constant (.ofNat content.length), .call "String.new" 1] (d + 1) :=
      .append (.single (Nat.zero_le d) rfl rfl) (.single (Nat.succ_pos d) rfl rfl)
    exact hnew.append (leads_appendCode content.toList d)
  | .constant word, _ => by
    cases word with
    | yes => exact .append (.single (Nat.zero_le d) rfl rfl) (.single (Nat.succ_pos d) rfl rfl)
    | _ => exact .single (Nat.zero_le d) rfl rfl
  | .var name, h => by
    obtain ⟨s, hs⟩ := h.slot
    exact Context.leads_pushVar hs d
  | .element array index, h => by
    obtain ⟨s, hs⟩ := h.slot
    have hindex := Expression.leads d index h.tail
    have hadd : Leads (d + 2) [.arithmetic .add] (d + 1) := .single (Nat.le_add_left 2 d) rfl rfl
    have hpop : Leads (d + 1) [.pop .pointer 1] d := .single (Nat.succ_pos d) rfl rfl
    have hpush : Leads d [.push .that 0] (d + 1) := .single (Nat.zero_le d) rfl rfl
    have haddress := hindex.append (Context.leads_pushVar hs (d + 1))
    exact haddress.append (hadd.append (hpop.append hpush))
  | .call target, h => Call.leads d target h
  | .group inner, h => Expression.leads d inner h
  | .unary op operand, h => by
    have hoperand := Term.leads d operand h
    cases op <;> exact hoperand.append (.single (Nat.succ_pos d) rfl rfl)

/-- The code of an expression adds one value. -/
theorem Expression.leads {ctx : Context} (d : Nat) : (e : Expression) →
    Demand.Sound ctx e.demands → Leads d (e.code ctx) (d + 1)
  | .chain first ops, h => (Term.leads d first h.left).append (operations_leads d ops h.right)

/-- The code of operations works on the value on top and leaves one there. -/
theorem operations_leads {ctx : Context} (d : Nat) : (ops : List (BinaryOp × Term)) →
    Demand.Sound ctx (operationDemands ops) → Leads (d + 1) (operationCode ctx ops) (d + 1)
  | [], _ => .nil
  | (op, operand) :: rest, h =>
    (Term.leads (d + 1) operand h.left).append
      ((leads_binaryCode op d).append (operations_leads d rest h.right))

/-- The code of a call adds one value, however many arguments it takes. -/
theorem Call.leads {ctx : Context} (d : Nat) : (target : Call) →
    Demand.Sound ctx target.demands → Leads d (target.code ctx) (d + 1)
  | .mk owner name args, h => by
    have hfits := h.fits args.length List.mem_cons_self
    obtain ⟨receivers, hreceiver, hcall⟩ := ctx.leads_call owner name hfits d
    exact (hreceiver.append (arguments_leads (d + receivers) args h.tail)).append hcall

/-- The code of arguments adds a value for each of them. -/
theorem arguments_leads {ctx : Context} (d : Nat) : (args : List Expression) →
    Demand.Sound ctx (argumentDemands args) → Leads d (argumentCode ctx args) (d + args.length)
  | [], _ => .nil
  | arg :: rest, h => by
    have hrest := arguments_leads (d + 1) rest h.right
    rw [Nat.add_assoc, Nat.add_comm 1] at hrest
    exact (Expression.leads d arg h.left).append hrest

end

/-! ## Statements -/

/-- A condition and the jump that it decides. -/
theorem Expression.leads_branch {ctx : Context} {e : Expression} (h : Demand.Sound ctx e.demands)
    (label : String) : Leads 0 (e.code ctx ++ [.arithmetic .not, .ifGoto label]) 0 := by
  have hnot : Leads 1 [.arithmetic .not] 1 := .single (Nat.le_refl 1) rfl rfl
  exact (Expression.leads 0 e h).append (hnot.append (.ifGoto label))

mutual

/-- The code of a statement begins and ends with nothing on the stack. -/
theorem Statement.leads {ctx : Context} (n : Nat) : (s : Statement) →
    Demand.Sound ctx s.demands → Leads 0 (s.code ctx n) 0
  | .assign name value, h => by
    obtain ⟨s, hs⟩ := h.slot
    have hpop : Leads 1 (ctx.popVar name) 0 := by
      rw [Context.popVar, hs]
      exact s.leads_pop 0
    exact (Expression.leads 0 value h.tail).append hpop
  | .assignElement array index value, h => by
    obtain ⟨s, hs⟩ := h.slot
    have hindex := Expression.leads 0 index h.tail.left
    have hadd : Leads 2 [.arithmetic .add] 1 := .single (Nat.le_refl 2) rfl rfl
    have hvalue := Expression.leads 1 value h.tail.right
    have htemp : Leads 2 [.pop .temp 0] 1 := .single (by decide) rfl rfl
    have hpointer : Leads 1 [.pop .pointer 1] 0 := .single (Nat.le_refl 1) rfl rfl
    have hback : Leads 0 [.push .temp 0] 1 := .single (Nat.le_refl 0) rfl rfl
    have hthat : Leads 1 [.pop .that 0] 0 := .single (Nat.le_refl 1) rfl rfl
    have hstore := htemp.append (hpointer.append (hback.append hthat))
    have haddress := (hindex.append (Context.leads_pushVar hs 1)).append hadd
    simpa [Statement.code] using haddress.append (hvalue.append hstore)
  | .ifThen condition block, h => by
    have hbranch := Expression.leads_branch h.left (ctx.label (n + 1))
    have hend := (Leads.goto (ctx.label n)).append
      ((Leads.label (ctx.label (n + 1))).append (.label (ctx.label n)))
    simpa [Statement.code] using hbranch.append ((block_leads (n + 2) block h.right).append hend)
  | .ifElse condition block other, h => by
    have hbranch := Expression.leads_branch h.left.left (ctx.label (n + 1))
    have hmiddle := (Leads.goto (ctx.label n)).append (.label (ctx.label (n + 1)))
    have hblock := block_leads (n + 2) block h.left.right
    have hother := block_leads (n + 2 + blockLabels block) other h.right
    simpa [Statement.code] using
      hbranch.append (hblock.append (hmiddle.append (hother.append (.label (ctx.label n)))))
  | .whileLoop condition block, h => by
    have hbranch := Expression.leads_branch h.left (ctx.label (n + 1))
    have hend := (Leads.goto (ctx.label n)).append (.label (ctx.label (n + 1)))
    have hblock := block_leads (n + 2) block h.right
    simpa [Statement.code] using
      (Leads.label (ctx.label n)).append (hbranch.append (hblock.append hend))
  | .perform target, h => (Call.leads 0 target h).append (.single (Nat.le_refl 1) rfl rfl)
  | .giveBack none, _ => by
    have hzero : Leads 0 [.push .constant 0] 1 := .single (Nat.le_refl 0) rfl rfl
    exact hzero.append .ret
  | .giveBack (some value), h => (Expression.leads 0 value h).append .ret

theorem block_leads {ctx : Context} (n : Nat) : (b : List Statement) →
    Demand.Sound ctx (blockDemands b) → Leads 0 (blockCode ctx n b) 0
  | [], _ => .nil
  | s :: rest, h =>
    (Statement.leads n s h.left).append (block_leads (n + s.labels) rest h.right)

end

/-! ## Functions -/

/-- What stands in front of the statements of a subroutine leaves nothing on the stack. -/
theorem Context.leads_prologue (ctx : Context) : Leads 0 ctx.prologue 0 := by
  have hpop : Leads 1 [.pop .pointer 0] 0 := .single (Nat.le_refl 1) rfl rfl
  unfold Context.prologue
  cases ctx.kind with
  | function => exact .nil
  | method => exact .append (.single (Nat.le_refl 0) rfl rfl) hpop
  | constructor =>
    have hcall : Leads 1 [.call "Memory.alloc" 1] 1 := .single (Nat.le_refl 1) rfl rfl
    exact .append (.single (Nat.le_refl 0) rfl rfl) (hcall.append hpop)

/-- The body of a well-formed subroutine begins and ends with nothing on the stack. -/
theorem Subroutine.leads {c : Class} {s : Subroutine} (hwf : s.WellFormed c) (hfits : s.Fits)
    (n : Nat) : Leads 0 (s.bodyCode c n) 0 :=
  (c.context s).leads_prologue.append (block_leads n s.body ⟨hwf.2, hfits.2⟩)

/-- Code in which no function begins adds no function. -/
theorem functions_append {front : List Instruction} (h : ∀ i ∈ front, i.isFunction = false)
    (back : List Instruction) : functions (front ++ back) = functions back := by
  induction front with
  | nil => rfl
  | cons i front ih =>
    obtain ⟨hi, hfront⟩ := List.forall_mem_cons.mp h
    rw [List.cons_append, functions, hi, if_neg Bool.false_ne_true, ih hfront]

/-- The code of subroutines begins with a function. -/
theorem takeWhile_subroutineCode (c : Class) (n : Nat) (subs : List Subroutine) :
    (subroutineCode c n subs).takeWhile (! ·.isFunction) = [] := by
  cases subs <;> rfl

/-- The first function in the code of subroutines is that of the first one. -/
theorem functions_subroutineCode_cons {c : Class} {s : Subroutine} (hwf : s.WellFormed c)
    (hfits : s.Fits) (n : Nat) (subs : List Subroutine) :
    functions (subroutineCode c n (s :: subs)) =
      s.code c n :: functions (subroutineCode c (n + blockLabels s.body) subs) := by
  have hinner := (s.leads hwf hfits n).isFunction_eq_false
  have htake : (s.bodyCode c n ++ subroutineCode c (n + blockLabels s.body) subs).takeWhile
      (! ·.isFunction) = s.bodyCode c n := by
    rw [List.takeWhile_append_of_pos (fun i hi => by simp [hinner i hi]),
      takeWhile_subroutineCode, List.append_nil]
  have hfirst : ∀ name locals, (Instruction.function name locals).isFunction = true :=
    fun _ _ => rfl
  rw [subroutineCode, Subroutine.code, List.cons_append, functions, if_pos (hfirst _ _), htake,
    functions_append hinner]

/-- The functions in the code of subroutines are those of the subroutines, in their order. -/
theorem functions_subroutineCode {c : Class} {n : Nat} {subs : List Subroutine}
    (hsubs : ∀ s ∈ subs, s.WellFormed c ∧ s.Fits) :
    List.Forall₂ (fun s code => s ∈ subs ∧ ∃ k, code = s.code c k) subs
      (functions (subroutineCode c n subs)) := by
  induction subs generalizing n with
  | nil => exact .nil
  | cons s subs ih =>
    obtain ⟨⟨hwf, hfits⟩, hrest⟩ := List.forall_mem_cons.mp hsubs
    rw [functions_subroutineCode_cons hwf hfits]
    refine .cons ⟨List.mem_cons_self, n, rfl⟩ ((ih hrest).imp ?_)
    rintro s' code ⟨hs', k, rfl⟩
    exact ⟨List.mem_cons_of_mem s hs', k, rfl⟩

/-- Every function in the code of a class is that of a subroutine of the class. -/
theorem Class.functions_code {c : Class} (hwf : c.WellFormed) (hfits : c.Fits) :
    List.Forall₂ (fun s code => s ∈ c.subroutines ∧ ∃ k, code = s.code c k) c.subroutines
      (functions c.code) :=
  functions_subroutineCode fun s hs => ⟨hwf.2 s hs, hfits.2 s hs⟩

/-- Every function of a well-formed class keeps to the stack. -/
theorem Class.disciplined {c : Class} (hwf : c.WellFormed) (hfits : c.Fits)
    {f : List Instruction} (h : f ∈ functions c.code) : Disciplined f.tail := by
  have hall : List.Forall₂ (fun f _ => Disciplined f.tail ∧ True) (functions c.code)
      c.subroutines := by
    refine (Class.functions_code hwf hfits).flip.imp ?_
    rintro f s ⟨hs, k, rfl⟩
    exact ⟨(s.leads (hwf.2 s hs) (hfits.2 s hs) k).disciplined, trivial⟩
  exact ((List.forall₂_and_left _ _).mp hall).1 f h

/-- The code of a class is made of functions from its first line on. -/
theorem Class.head?_code (c : Class) {i : Instruction} (h : c.code.head? = some i) :
    i.isFunction = true := by
  obtain ⟨name, groups, _ | ⟨s, subs⟩⟩ := c
  · cases h
  · cases h
    rfl

end Tree

end JackStack
