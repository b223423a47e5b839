import JackStack.Proofs.Meaning.Statements
import JackStack.Proofs.Translation

/-!
# Meaning is preserved

The functions of a compiled class do on the stack machine what the subroutines of the class do:
called with the same arguments in the same world they return the same value and leave the same
world behind, whatever the subroutines that they call do. They end only where the subroutines do,
and up to there the machine always has a next step.
-/

namespace JackStack

open JackStack.Machine JackStack.Tree

/-- The code of a function does what a subroutine does. The machine may hold anything in its cells
when the function is called; only the stack is empty. -/
structure Implements (c : Tree.Class) (s : Subroutine) (code : List Instruction) : Prop where
  /-- The function has the name of the subroutine. -/
  named : ∃ count, code.head? = some (.function (c.name ++ "." ++ s.name) count)
  /-- The function ends the way the subroutine does, and only if that ends. -/
  ends : ∀ lib scratch m, m.stack = [] → ∀ e,
    s.Ends c lib m.arguments m.this m.world e ↔ Machine.Ends lib scratch code m e
  /-- The machine does not get stuck. -/
  proceeds : ∀ lib scratch m, m.stack = [] → ∀ k pc m',
    runFor lib scratch code k (0, m) = some (pc, m') →
      (m'.step lib scratch code pc).isSome = true ∨ (m'.ending? code pc).isSome = true

namespace Tree

variable {lib : Library} {scratch : Scratch} {c : Class} {s : Subroutine} {m : Machine}

/-- What statements come to at the end of a function is how the function ends. -/
theorem Meets.ends {ctx : Context} {code : List Instruction} {o : Completion}
    (h : Meets lib scratch code ctx code.length o (0, m)) :
    Machine.Ends lib scratch code m o.ending := by
  cases o with
  | finished st =>
    obtain ⟨k, m', hrun, hready⟩ := h
    refine ⟨k, _, m', hrun, ?_⟩
    simp only [ending?, List.getElem?_length, hready.world]
    rfl
  | returned v w => exact h

/-- What a function begins with, in front of its statements. -/
def Subroutine.opening (c : Class) (s : Subroutine) : List Instruction :=
  .function (c.name ++ "." ++ s.name) (.ofNat (s.locals.flatMap Group.names).length) ::
    (c.context s).prologue

/-- The code of a subroutine: its opening and then its statements. -/
theorem Subroutine.code_eq (c : Class) (n : Nat) (s : Subroutine) :
    s.code c n = s.opening c ++ blockCode (c.context s) n s.body := rfl

/-- The line of a function and what its kind asks for make the machine ready for the statements of
the subroutine. -/
theorem Subroutine.opening_ready (lib : Library) (scratch : Scratch)
    (hctx : (c.context s).Roomy) (hm : m.stack = []) :
    ∃ m', applyAll lib scratch (s.opening c) m = some m' ∧
      Ready (c.context s) ((c.context s).entry lib m.arguments m.this m.world) m' := by
  let count := UInt32.ofNat (s.locals.flatMap Group.names).length
  let m₀ : Machine := { m with locals := fun i => if i < count.toNat then 0 else m.locals i }
  have hcount : count.toNat = (c.context s).room .local := by
    have hfits := hctx.fits .local
    rw [Context.room, Class.context, s.countKind_local] at hfits ⊢
    exact UInt32.toNat_ofNat_of_lt' hfits
  have hlocals : ∀ i < (c.context s).room .local, m₀.locals i = 0 :=
    fun i hi => if_pos (hcount ▸ hi)
  change ∃ m', applyAll lib scratch (c.context s).prologue m₀ = some m' ∧ _
  unfold Context.prologue Context.entry
  cases (c.context s).kind with
  | function => exact ⟨_, rfl, ⟨rfl, hlocals, rfl⟩, rfl, hm⟩
  | method => exact ⟨_, rfl, ⟨rfl, hlocals, rfl⟩, rfl, hm⟩
  | constructor =>
    let fields := countKind .field (c.context s).shared
    let object := lib "Memory.alloc" [.ofNat 16 fields] m.world
    have halloc : Leaves lib scratch
        [.push .constant (.ofNat fields), .call "Memory.alloc" 1] m₀ (object.1 :: m.stack)
        object.2 :=
      (leaves_constant fields).append fun _ _ => leaves_call rfl rfl (by decide : 1 < operandLimit)
    obtain ⟨that, temp, happly⟩ := halloc
    have hpop : applyAll lib scratch
        ([.push .constant (.ofNat fields), .call "Memory.alloc" 1] ++ [.pop .pointer 0]) m₀ =
          some { m₀ with this := object.1, that, temp, world := object.2 } := by
      rw [applyAll_append, happly]
      rfl
    exact ⟨_, hpop, ⟨rfl, hlocals, rfl⟩, rfl, hm⟩

/-- The machine gets to the statements of a subroutine. -/
theorem Subroutine.reaches_body (lib : Library) (scratch : Scratch)
    (hctx : (c.context s).Roomy) (hm : m.stack = []) (n : Nat) :
    ∃ k pc m', runFor lib scratch (s.code c n) k (0, m) = some (pc, m') ∧
      CodeAt (s.code c n) pc (blockCode (c.context s) n s.body) ∧
      pc + (blockCode (c.context s) n s.body).length = (s.code c n).length ∧
      Ready (c.context s) ((c.context s).entry lib m.arguments m.this m.world) m' := by
  have hcode : CodeAt (s.code c n) 0 (s.opening c ++ blockCode (c.context s) n s.body) :=
    codeAt_self [] (s.code c n)
  obtain ⟨hfront, hback⟩ := codeAt_append.mp hcode
  obtain ⟨m', happly, hready⟩ := Subroutine.opening_ready lib scratch hctx hm
  exact ⟨_, _, m', runFor_of_applyAll hfront happly, hback, by simp [s.code_eq], hready⟩

/-- A subroutine that ends is a function that ends the same way. -/
theorem Subroutine.Ends.on_machine (hctx : (c.context s).Roomy)
    (hd : Demand.Sound (c.context s) (blockDemands s.body)) (hm : m.stack = []) {e : Ending}
    (h : s.Ends c lib m.arguments m.this m.world e) (n : Nat) :
    Machine.Ends lib scratch (s.code c n) m e := by
  obtain ⟨o, hruns, rfl⟩ := h
  obtain ⟨k, pc, m', hrun, hcode, hlength, hready⟩ :=
    Subroutine.reaches_body lib scratch hctx hm n
  have hmeets : Meets lib scratch (s.code c n) (c.context s) (s.code c n).length o (pc, m') :=
    hlength ▸ BlockRuns.meets hctx (s.nodup_labelNames c n) hruns hd hcode hready
  exact (hmeets.after hrun).ends

/-- With a subroutine that does not end the machine takes as many steps as one likes. -/
theorem Subroutine.ends_or_proceeds (hctx : (c.context s).Roomy)
    (hd : Demand.Sound (c.context s) (blockDemands s.body)) (hm : m.stack = []) (n k : Nat) :
    (∃ e, s.Ends c lib m.arguments m.this m.world e) ∨
      Proceeds lib scratch (s.code c n) k (0, m) := by
  obtain ⟨j, pc, m', hrun, hcode, -, hready⟩ :=
    Subroutine.reaches_body lib scratch hctx hm n
  rcases block_runs_or_proceeds hctx (s.nodup_labelNames c n) k s.body hd hcode hready with
    ⟨o, hruns⟩ | hproceeds
  · exact .inl ⟨_, o, hruns, rfl⟩
  · exact .inr (hproceeds.after hrun (Nat.le_add_left _ _))

/-- The code of a well-formed subroutine does what the subroutine does. -/
theorem Subroutine.implements (hc : c.declarations.length < operandLimit) (hwf : s.WellFormed c)
    (hfits : s.Fits) (n : Nat) : Implements c s (s.code c n) := by
  have hctx := Class.roomy hc hfits.1
  have hd : Demand.Sound (c.context s) (blockDemands s.body) := ⟨hwf.2, hfits.2⟩
  refine ⟨⟨_, rfl⟩, ?_, ?_⟩
  · intro lib scratch m hm e
    refine ⟨fun h => h.on_machine hctx hd hm n, ?_⟩
    rintro ⟨k, pc, m', hrun, he⟩
    rcases Subroutine.ends_or_proceeds hctx hd hm n (k + 1) with ⟨e', he'⟩ | hproceeds
    · have hends : Machine.Ends lib scratch (s.code c n) m e' := he'.on_machine hctx hd hm n
      rwa [Machine.Ends.unique ⟨k, pc, m', hrun, he⟩ hends]
    · exact absurd he (hproceeds.not_ending hrun)
  · intro lib scratch m hm k pc m' hrun
    rcases Subroutine.ends_or_proceeds hctx hd hm n (k + 1) with ⟨e, he⟩ | hproceeds
    · exact (he.on_machine hctx hd hm n).step_or_ending hrun
    · exact .inl (hproceeds.step_isSome hrun)

end Tree

/-- The functions that a compilation writes do what the subroutines of the source do, one by
one. -/
theorem compiled_functions_implement {bytes : ByteArray} (hsize : bytes.size < UInt32.size)
    {sink : Sink} {options : Options}
    (h : (compile (Reading.ofBytes bytes.toList) sink options).verdict = .ok ()) :
    let code := Event.instructions (Run.ofReadings (Reading.ofBytes bytes.toList)).events
    (compile (Reading.ofBytes bytes.toList) sink options).output =
        (codeText options.indent code).toUTF8 ∧
      ∃ c : Tree.Class, ScansTo bytes c.tokens ∧
        List.Forall₂ (Implements c) c.subroutines (functions code) := by
  intro code
  obtain ⟨c, hscans, hwf, hfits, (hcode : code = c.code)⟩ :=
    Run.exists_class_of_verdict hsize (Run.verdict_of_deliverFrom h)
  refine ⟨compile_output h, c, hscans, ?_⟩
  rw [hcode]
  refine (Class.functions_code hwf hfits).imp ?_
  rintro s f ⟨hs, k, rfl⟩
  exact Subroutine.implements hfits.1 (hwf.2 s hs) (hfits.2 s hs) k

/-- The one method of `counter`, called with nothing to count, asks the class to stop and returns
its receiver. -/
theorem counter_next_ends (lib : Library) (arguments : Nat → Word) (this : Word) (w : World)
    (h : arguments 1 = 0) : ∀ s ∈ counter.subroutines, s.Ends counter lib arguments this w
      ⟨some (arguments 0), (lib "Counter.stop" [arguments 0] w).2⟩ := by
  intro s hs
  cases List.mem_singleton.mp hs
  have hless : Word.ofBool ((0 : Word).slt (arguments 1)) ≠ Word.yes := by
    rw [h]
    decide
  exact ⟨_, .cons (.whileDone rfl hless) (.cons (.ifElse rfl (.cons (.perform rfl) .nil))
    (.returned (.giveBack rfl))), rfl⟩

/-- So does the function that is written for it. -/
theorem counterText_next_ends :
    counterText.toUTF8.size < UInt32.size ∧
    (compile (Reading.ofBytes counterText.toUTF8.toList) {} {}).verdict = .ok () ∧
    ∃ f ∈ functions (Event.instructions
        (Run.ofReadings (Reading.ofBytes counterText.toUTF8.toList)).events),
      ∀ lib scratch m, m.stack = [] → m.arguments 1 = 0 → Machine.Ends lib scratch f m
        ⟨some (m.arguments 0), (lib "Counter.stop" [m.arguments 0] m.world).2⟩ := by
  refine ⟨counterText_size, counterText_compiled, ?_⟩
  obtain ⟨-, c, hscans, hall⟩ :=
    compiled_functions_implement counterText_size counterText_compiled
  cases Class.tokens_injective (hscans.unique counterText_scans)
  obtain ⟨f, fs, hf, -, hfs⟩ := List.forall₂_cons_left_iff.mp hall
  refine ⟨f, hfs ▸ List.mem_cons_self, ?_⟩
  intro lib scratch m hm hzero
  exact (hf.ends lib scratch m hm _).mp
    (counter_next_ends lib m.arguments m.this m.world hzero _ List.mem_cons_self)

end JackStack
