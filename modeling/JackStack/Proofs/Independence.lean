import JackStack.Proofs.Code.Raising
import JackStack.Proofs.Translation

/-!
# Subroutines are compiled independently

A class whose subroutines are split in two is compiled exactly when both parts are, each as a class
of the same name with the same class variables. The code is that of the first part and, behind it,
that of the second part with higher numbers on its labels.
-/

namespace JackStack

open JackStack.Tree

/-- The instructions that are emitted while bytes are compiled. -/
def emitted (bytes : ByteArray) : List Instruction :=
  Event.instructions (Run.ofReadings (Reading.ofBytes bytes.toList)).events

/-- Without failures of reading and writing a class is compiled exactly when it is carried out. -/
theorem compileBytes_verdict_iff {bytes : ByteArray} {c : Tree.Class} (h : ScansTo bytes c.tokens)
    (options : Options) :
    (compileBytes bytes options).verdict = .ok () ↔ c.Emits (emitted bytes) := by
  rw [← Run.ofReadings_emits h]
  constructor
  · intro hverdict
    exact ⟨Run.verdict_of_deliverFrom hverdict, rfl⟩
  · rintro ⟨hverdict, -⟩
    obtain ⟨notes, hdeliver⟩ := Run.deliver_of_accepts hverdict (Sink.accepts_default _)
    rw [compileBytes, compile, hdeliver]

/-- What is emitted for a class is all that it can emit. -/
theorem emitted_eq {bytes : ByteArray} {c : Tree.Class} (h : ScansTo bytes c.tokens)
    {code : List Instruction} (hcode : c.Emits code) : emitted bytes = code :=
  ((Run.ofReadings_emits h).mpr hcode).2

/-- The text of two pieces of code is that of the first and then that of the second. -/
theorem codeText_append (indent : Nat) (front back : List Instruction) :
    codeText indent (front ++ back) = codeText indent front ++ codeText indent back := by
  rw [codeText, List.map_append, String.join_append]
  rfl

/-- Subroutines are compiled independently of those in front of them: a class is compiled exactly
when it is with the first subroutines only and with the others only. Its output is then the one for
the first and behind it the one for the others, in which every label has a number that is higher by
twice the number of `if` and `while` statements in the first. -/
theorem subroutines_compiled_independently {name : String} {groups : List ClassGroup}
    {first others : List Subroutine} {whole front back : ByteArray}
    (hwhole : ScansTo whole (Class.mk name groups (first ++ others)).tokens)
    (hfront : ScansTo front (Class.mk name groups first).tokens)
    (hback : ScansTo back (Class.mk name groups others).tokens) (options : Options) :
    ((compileBytes whole options).verdict = .ok () ↔
      (compileBytes front options).verdict = .ok () ∧
        (compileBytes back options).verdict = .ok ()) ∧
    ((compileBytes whole options).verdict = .ok () →
      (compileBytes back options).output = (codeText options.indent (emitted back)).toUTF8 ∧
      (compileBytes whole options).output = (compileBytes front options).output ++
        (codeText options.indent ((emitted back).map
          (Instruction.raise name (2 * subroutineBranches first)))).toUTF8) := by
  have hsplit : (compileBytes whole options).verdict = .ok () ↔
      (compileBytes front options).verdict = .ok () ∧
        (compileBytes back options).verdict = .ok () := by
    rw [compileBytes_verdict_iff hwhole, compileBytes_verdict_iff hfront,
      compileBytes_verdict_iff hback]
    constructor
    · intro h
      obtain ⟨code₁, code₂, h₁, h₂, -⟩ := emits_append.mp h
      rw [emitted_eq hfront h₁, emitted_eq hback h₂]
      exact ⟨h₁, h₂⟩
    · rintro ⟨h₁, h₂⟩
      have h := emits_append.mpr ⟨_, _, h₁, h₂, rfl⟩
      rwa [emitted_eq hwhole h]
  refine ⟨hsplit, fun h => ?_⟩
  obtain ⟨hfront', hback'⟩ := hsplit.mp h
  have h₁ := (compileBytes_verdict_iff hfront options).mp hfront'
  have h₂ := (compileBytes_verdict_iff hback options).mp hback'
  have hcode := emitted_eq hwhole (emits_append.mpr ⟨_, _, h₁, h₂, rfl⟩)
  have hout : ∀ {bytes : ByteArray}, (compileBytes bytes options).verdict = .ok () →
      (compileBytes bytes options).output = (codeText options.indent (emitted bytes)).toUTF8 :=
    fun hok => compile_output hok
  refine ⟨hout hback', ?_⟩
  rw [hout h, hout hfront', hcode, codeText_append]
  exact String.toByteArray_append

/-- The class variables that the subroutines below have in common. -/
def pairGroups : List ClassGroup := [⟨.static, ⟨.int, "all", []⟩⟩]

/-- A method with a branch. -/
def pairGet : Subroutine :=
  ⟨.method, some .int, "get", [⟨.int, "k"⟩], [⟨.int, "i", []⟩],
    [.ifThen (.chain (.var "k") []) [.assign "i" (.chain (.var "all") [])],
    .giveBack (some (.chain (.var "i") []))]⟩

/-- A function with a branch, and with a name of the method. -/
def pairRun : Subroutine :=
  ⟨.function, none, "run", [⟨.int, "i"⟩], [],
    [.whileLoop (.chain (.var "i") []) [.perform (.mk none "stop" [])], .giveBack none]⟩

/-- A class with the method only. -/
def pairGetText : String :=
  "class Pair \x7b static int all;
    method int get(int k) \x7b var int i; if (k) \x7b let i = all; \x7d return i; \x7d
  \x7d"

/-- A class with the function only. -/
def pairRunText : String :=
  "class Pair \x7b static int all;
    function void run(int i) \x7b while (i) \x7b do stop(); \x7d return; \x7d
  \x7d"

/-- A class with both. -/
def pairText : String :=
  "class Pair \x7b
    static int all; // for both
    method int get(int k) \x7b
      var int i;
      if (k) \x7b let i = all; \x7d
      return i;
    \x7d
    function void run(int i) \x7b while (i) \x7b do stop(); \x7d return; \x7d
  \x7d"

theorem pairGetText_scans :
    ScansTo pairGetText.toUTF8 (Class.mk "Pair" pairGroups [pairGet]).tokens :=
  .of_outcomes (by decide +kernel)

theorem pairRunText_scans :
    ScansTo pairRunText.toUTF8 (Class.mk "Pair" pairGroups [pairRun]).tokens :=
  .of_outcomes (by decide +kernel)

theorem pairText_scans :
    ScansTo pairText.toUTF8 (Class.mk "Pair" pairGroups ([pairGet] ++ [pairRun])).tokens :=
  .of_outcomes (by decide +kernel)

theorem pairText_compiled : (compileBytes pairText.toUTF8 {}).verdict = .ok () := by
  have hwf : (Class.mk "Pair" pairGroups ([pairGet] ++ [pairRun])).WellFormed := by decide +kernel
  have hsize : pairText.toUTF8.size < UInt32.size := by decide +kernel
  obtain ⟨hverdict, -⟩ := (Run.ofReadings_of_scansTo pairText_scans hsize).mpr ⟨hwf, rfl⟩
  obtain ⟨notes, hdeliver⟩ := Run.deliver_of_accepts hverdict (Sink.accepts_default _)
  rw [compileBytes, compile, hdeliver]

/-- The labels of the function follow the two of the method. -/
theorem pairText_split :
    ScansTo pairText.toUTF8 (Class.mk "Pair" pairGroups ([pairGet] ++ [pairRun])).tokens ∧
    ScansTo pairGetText.toUTF8 (Class.mk "Pair" pairGroups [pairGet]).tokens ∧
    ScansTo pairRunText.toUTF8 (Class.mk "Pair" pairGroups [pairRun]).tokens ∧
    (compileBytes pairGetText.toUTF8 {}).verdict = .ok () ∧
    (compileBytes pairRunText.toUTF8 {}).verdict = .ok () ∧
    (compileBytes pairText.toUTF8 {}).output = (compileBytes pairGetText.toUTF8 {}).output ++
      (codeText 4 ((emitted pairRunText.toUTF8).map (Instruction.raise "Pair" 2))).toUTF8 := by
  obtain ⟨hsplit, houtput⟩ :=
    subroutines_compiled_independently pairText_scans pairGetText_scans pairRunText_scans {}
  obtain ⟨hget, hrun⟩ := hsplit.mp pairText_compiled
  exact ⟨pairText_scans, pairGetText_scans, pairRunText_scans, hget, hrun,
    (houtput pairText_compiled).2⟩

end JackStack
