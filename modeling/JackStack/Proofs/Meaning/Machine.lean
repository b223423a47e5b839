import JackStack.Proofs.Code.Labels
import JackStack.Proofs.Meaning.Source

/-!
# The stack machine

The machine runs the code of one function. It has a stack of words, cells for the arguments and
the local variables, the two pointers, scratch cells, and the world that it shares with others; no
two of these overlap. Labels belong to the function. A call takes its arguments from the stack and
does what the library says; it leaves the cells of the caller alone, but not the scratch cells,
which everyone may write to.
-/

namespace JackStack

/-- The state of the machine, but for the place in the code. -/
structure Machine where
  /-- The values on the stack, the top first. -/
  stack : List Word
  /-- The arguments. -/
  arguments : Nat → Word
  /-- The local variables. -/
  locals : Nat → Word
  /-- The first pointer. -/
  this : Word
  /-- The second pointer. -/
  that : Word
  /-- The scratch cells. -/
  temp : Nat → Word
  /-- The static variables and the heap. -/
  world : World

/-- What a call makes of the scratch cells. -/
abbrev Scratch := String → List Word → World → (Nat → Word) → Nat → Word

namespace Machine

/-- The value of a cell; there are only two pointers. -/
def read (m : Machine) (segment : Segment) (i : Nat) : Option Word :=
  match segment with
  | .constant => some (.ofNat 16 i)
  | .argument => some (m.arguments i)
  | .local => some (m.locals i)
  | .static => some (m.world.statics i)
  | .this => some (m.world.heap (m.this + .ofNat 16 i))
  | .that => some (m.world.heap (m.that + .ofNat 16 i))
  | .pointer =>
    match i with
    | 0 => some m.this
    | 1 => some m.that
    | _ => none
  | .temp => some (m.temp i)

/-- The machine with a value in a cell; constants cannot be written. -/
def write (m : Machine) (segment : Segment) (i : Nat) (v : Word) : Option Machine :=
  match segment with
  | .constant => none
  | .argument => some { m with arguments := Function.update m.arguments i v }
  | .local => some { m with locals := Function.update m.locals i v }
  | .static => some { m with world.statics := Function.update m.world.statics i v }
  | .this => some { m with
      world.heap := Function.update m.world.heap (m.this + .ofNat 16 i) v }
  | .that => some { m with
      world.heap := Function.update m.world.heap (m.that + .ofNat 16 i) v }
  | .pointer =>
    match i with
    | 0 => some { m with this := v }
    | 1 => some { m with that := v }
    | _ => none
  | .temp => some { m with temp := Function.update m.temp i v }

end Machine

/-- The stack behind a command, if there were values enough. -/
def Command.run : Command → List Word → Option (List Word)
  | add, y :: x :: rest => some ((x + y) :: rest)
  | sub, y :: x :: rest => some ((x - y) :: rest)
  | neg, x :: rest => some (-x :: rest)
  | eq, y :: x :: rest => some (Word.ofBool (x == y) :: rest)
  | gt, y :: x :: rest => some (Word.ofBool (y.slt x) :: rest)
  | lt, y :: x :: rest => some (Word.ofBool (x.slt y) :: rest)
  | and, y :: x :: rest => some ((x &&& y) :: rest)
  | or, y :: x :: rest => some ((x ||| y) :: rest)
  | not, x :: rest => some (~~~x :: rest)
  | _, _ => none

namespace Machine

/-- The machine behind an instruction that passes control to the next one. The line of a function
makes its local variables zero. -/
def apply (lib : Library) (scratch : Scratch) (m : Machine) : Instruction → Option Machine
  | .push segment index =>
    (m.read segment index.toNat).map fun v => { m with stack := v :: m.stack }
  | .pop segment index =>
    match m.stack with
    | [] => none
    | v :: rest => { m with stack := rest }.write segment index.toNat v
  | .arithmetic command => (command.run m.stack).map fun stack => { m with stack }
  | .label _ => some m
  | .call name count =>
    if count.toNat ≤ m.stack.length then
      let args := (m.stack.take count.toNat).reverse
      let (v, w) := lib name args m.world
      some { m with
        stack := v :: m.stack.drop count.toNat
        temp := scratch name args m.world m.temp
        world := w }
    else none
  | .function _ count =>
    some { m with locals := fun i => if i < count.toNat then 0 else m.locals i }
  | .goto _ | .ifGoto _ | .ret => none

/-- The place of a label. -/
def target (code : List Instruction) (name : String) : Option Nat :=
  code.findIdx? (· == .label name)

/-- The next place and the machine there, unless the function ends or there is nothing to do. A
conditional jump is taken when the value is not zero. -/
def step (lib : Library) (scratch : Scratch) (code : List Instruction) (pc : Nat) (m : Machine) :
    Option (Nat × Machine) :=
  match code[pc]? with
  | none => none
  | some (.goto name) => (target code name).map fun pc' => (pc', m)
  | some (.ifGoto name) =>
    match m.stack with
    | [] => none
    | v :: rest =>
      if v = 0 then some (pc + 1, { m with stack := rest })
      else (target code name).map fun pc' => (pc', { m with stack := rest })
  | some i => (m.apply lib scratch i).map fun m' => (pc + 1, m')

/-- How the function ends here, if it does: it returns the value on top of the stack, or there is
no code left. -/
def ending? (code : List Instruction) (pc : Nat) (m : Machine) : Option Ending :=
  match code[pc]? with
  | none => some ⟨none, m.world⟩
  | some .ret => m.stack.head?.map fun v => ⟨some v, m.world⟩
  | some _ => none

/-- The place and the machine after a number of steps. -/
def runFor (lib : Library) (scratch : Scratch) (code : List Instruction) :
    Nat → Nat × Machine → Option (Nat × Machine)
  | 0, here => some here
  | k + 1, (pc, m) => (m.step lib scratch code pc).bind (runFor lib scratch code k)

/-- The function ends this way when it is run from its first line. -/
def Ends (lib : Library) (scratch : Scratch) (code : List Instruction) (m : Machine)
    (e : Ending) : Prop :=
  ∃ k pc m', runFor lib scratch code k (0, m) = some (pc, m') ∧ m'.ending? code pc = some e

/-! ## Steps -/

variable {lib : Library} {scratch : Scratch} {code : List Instruction}

/-- Steps behind steps. -/
theorem runFor_add (j k : Nat) (here : Nat × Machine) :
    runFor lib scratch code (j + k) here =
      (runFor lib scratch code j here).bind (runFor lib scratch code k) := by
  induction j generalizing here with
  | zero => rw [Nat.zero_add, runFor, Option.bind_some]
  | succ j ih =>
    obtain ⟨pc, m⟩ := here
    rw [Nat.succ_add, runFor, runFor]
    cases m.step lib scratch code pc with
    | none => rfl
    | some next => exact ih next

/-- Steps and further steps are steps. -/
theorem runFor_trans {j k : Nat} {here there beyond : Nat × Machine}
    (h : runFor lib scratch code j here = some there)
    (h' : runFor lib scratch code k there = some beyond) :
    runFor lib scratch code (j + k) here = some beyond := by
  rw [runFor_add, h, Option.bind_some, h']

theorem runFor_one {pc : Nat} {m : Machine} {there : Nat × Machine}
    (h : m.step lib scratch code pc = some there) :
    runFor lib scratch code 1 (pc, m) = some there := by
  rw [runFor, h, Option.bind_some, runFor]

/-- Where the function ends there is no next step. -/
theorem step_eq_none_of_ending? {pc : Nat} {m : Machine} {e : Ending}
    (h : m.ending? code pc = some e) : m.step lib scratch code pc = none := by
  unfold ending? at h
  unfold step
  cases hi : code[pc]? with
  | none => rfl
  | some i =>
    rw [hi] at h
    cases i with
    | ret => rfl
    | _ => cases h

/-- The machine can take this many steps. -/
def Proceeds (lib : Library) (scratch : Scratch) (code : List Instruction) (k : Nat)
    (here : Nat × Machine) : Prop :=
  (runFor lib scratch code k here).isSome = true

namespace Proceeds

variable {i j k pc : Nat} {m : Machine} {here there : Nat × Machine} {e : Ending}

/-- A machine that has taken the steps proceeds. -/
theorem of_run (h : runFor lib scratch code k here = some there) :
    Proceeds lib scratch code k here := by
  rw [Proceeds, h]
  rfl

/-- Who can take steps can take fewer. -/
theorem mono (h : Proceeds lib scratch code k here) (hle : j ≤ k) :
    Proceeds lib scratch code j here := by
  obtain ⟨d, rfl⟩ := Nat.exists_eq_add_of_le hle
  rw [Proceeds, runFor_add] at h
  cases hj : runFor lib scratch code j here with
  | none =>
    rw [hj] at h
    cases h
  | some there => exact of_run hj

/-- A machine that proceeds from where it comes to proceeds from the start. -/
theorem after (h : Proceeds lib scratch code k there)
    (hrun : runFor lib scratch code j here = some there) (hle : i ≤ j + k) :
    Proceeds lib scratch code i here := by
  refine mono ?_ hle
  rw [Proceeds, runFor_add, hrun, Option.bind_some]
  exact h

/-- Who can take one more step is not stuck. -/
theorem step_isSome (h : Proceeds lib scratch code (k + 1) here)
    (hrun : runFor lib scratch code k here = some (pc, m)) :
    (m.step lib scratch code pc).isSome = true := by
  rw [Proceeds, runFor_add, hrun, Option.bind_some, runFor] at h
  cases hstep : m.step lib scratch code pc with
  | none =>
    rw [hstep] at h
    cases h
  | some next => rfl

/-- Who can take one more step has not come to an end. -/
theorem not_ending (h : Proceeds lib scratch code (k + 1) here)
    (hrun : runFor lib scratch code k here = some (pc, m)) : m.ending? code pc ≠ some e := by
  intro he
  have hstep := h.step_isSome hrun
  rw [step_eq_none_of_ending? he] at hstep
  cases hstep

end Proceeds

/-- A function ends in one way. -/
theorem Ends.unique {m : Machine} {e e' : Ending} (h : Ends lib scratch code m e)
    (h' : Ends lib scratch code m e') : e = e' := by
  obtain ⟨j, pc, m', hj, he⟩ := h
  obtain ⟨k, pc', m'', hk, he'⟩ := h'
  rcases Nat.lt_trichotomy j k with hlt | rfl | hlt
  · exact absurd he (((Proceeds.of_run hk).mono hlt).not_ending hj)
  · rw [hj] at hk
    cases hk
    exact Option.some.inj (he.symm.trans he')
  · exact absurd he' (((Proceeds.of_run hj).mono hlt).not_ending hk)

/-- A function that ends has a next step up to its end. -/
theorem Ends.step_or_ending {m m' : Machine} {e : Ending} (h : Ends lib scratch code m e)
    {k pc : Nat} (hrun : runFor lib scratch code k (0, m) = some (pc, m')) :
    (m'.step lib scratch code pc).isSome = true ∨ (m'.ending? code pc).isSome = true := by
  obtain ⟨j, pc', m'', hj, he⟩ := h
  rcases Nat.lt_trichotomy k j with hlt | rfl | hlt
  · exact .inl (((Proceeds.of_run hj).mono hlt).step_isSome hrun)
  · rw [hrun] at hj
    cases hj
    rw [he]
    exact .inr rfl
  · exact absurd he (((Proceeds.of_run hrun).mono hlt).not_ending hj)

/-! ## Code in its place -/

/-- The code holds these instructions from a place on. -/
def CodeAt (code : List Instruction) : Nat → List Instruction → Prop
  | _, [] => True
  | pc, i :: rest => code[pc]? = some i ∧ CodeAt code (pc + 1) rest

/-- Two pieces of code stand somewhere if the first does and the second behind it. -/
theorem codeAt_append {pc : Nat} {front back : List Instruction} :
    CodeAt code pc (front ++ back) ↔
      CodeAt code pc front ∧ CodeAt code (pc + front.length) back := by
  induction front generalizing pc with
  | nil => simp [CodeAt]
  | cons i front ih =>
    rw [List.cons_append, CodeAt, CodeAt, ih, and_assoc, List.length_cons, Nat.add_right_comm,
      Nat.add_assoc]

theorem codeAt_self (front code : List Instruction) : CodeAt (front ++ code) front.length code := by
  induction code generalizing front with
  | nil => trivial
  | cons i rest ih =>
    refine ⟨by simp, ?_⟩
    have hrest := ih (front ++ [i])
    rwa [List.append_assoc, List.length_append] at hrest

/-- Where names are not used twice, a label is found in its place. -/
theorem target_eq {name : String} {pc : Nat} (hnodup : (labelNames code).Nodup)
    (h : code[pc]? = some (.label name)) : target code name = some pc := by
  unfold target
  induction code generalizing pc with
  | nil => cases h
  | cons i rest ih =>
    rw [List.findIdx?_cons]
    cases pc with
    | zero =>
      rw [List.getElem?_cons_zero] at h
      cases h
      rw [if_pos (beq_self_eq_true _)]
    | succ pc =>
      rw [List.getElem?_cons_succ] at h
      have hmem : name ∈ labelNames rest :=
        List.mem_filterMap.mpr ⟨_, List.mem_of_getElem? h, rfl⟩
      have hne : i ≠ .label name := by
        rintro rfl
        exact (List.nodup_cons.mp hnodup).1 hmem
      have hrest : (labelNames rest).Nodup :=
        hnodup.sublist ((List.sublist_cons_self i rest).filterMap _)
      rw [if_neg (by simpa using hne), ih hrest h, Option.map_some]

/-! ## Straight code -/

/-- The machine behind instructions that are applied one after the other. -/
def applyAll (lib : Library) (scratch : Scratch) : List Instruction → Machine → Option Machine
  | [], m => some m
  | i :: rest, m => (m.apply lib scratch i).bind (applyAll lib scratch rest)

/-- Two pieces of code are applied one after the other. -/
theorem applyAll_append (front back : List Instruction) (m : Machine) :
    applyAll lib scratch (front ++ back) m =
      (applyAll lib scratch front m).bind (applyAll lib scratch back) := by
  induction front generalizing m with
  | nil => rfl
  | cons i front ih =>
    rw [List.cons_append, applyAll, applyAll]
    cases m.apply lib scratch i with
    | none => rfl
    | some m' => exact ih m'

/-- An instruction that can be applied passes control on. -/
theorem step_of_apply {pc : Nat} {m m' : Machine} {i : Instruction} (hi : code[pc]? = some i)
    (h : m.apply lib scratch i = some m') : m.step lib scratch code pc = some (pc + 1, m') := by
  unfold step
  rw [hi]
  cases i with
  | goto name => cases h
  | ifGoto name => cases h
  | _ => exact congrArg (Option.map fun m' => (pc + 1, m')) h

/-- Instructions that can be applied are run from the first to the last. -/
theorem runFor_of_applyAll {pc : Nat} {line : List Instruction} {m m' : Machine}
    (hcode : CodeAt code pc line) (h : applyAll lib scratch line m = some m') :
    runFor lib scratch code line.length (pc, m) = some (pc + line.length, m') := by
  induction line generalizing pc m with
  | nil => cases h; rfl
  | cons i line ih =>
    rw [applyAll] at h
    cases hi : m.apply lib scratch i with
    | none => rw [hi] at h; cases h
    | some next =>
      rw [hi, Option.bind_some] at h
      rw [List.length_cons, runFor, step_of_apply hcode.1 hi, Option.bind_some, ih hcode.2 h,
        Nat.add_right_comm, Nat.add_assoc]

end Machine

end JackStack
