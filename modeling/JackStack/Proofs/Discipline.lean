import JackStack.Proofs.Code.Depth
import JackStack.Proofs.Translation

/-!
# Stack discipline

The functions of a compiled class keep to the operand stack. The text that is written holds one
line for each instruction emitted, so what holds of these instructions holds of the text.
-/

namespace JackStack

open JackStack.Tree

/-- What is written by a compilation that succeeds is made of functions, and each of them keeps to
the stack. -/
theorem compiled_functions_disciplined {bytes : ByteArray} (hsize : bytes.size < UInt32.size)
    {sink : Sink} {options : Options}
    (h : (compile (Reading.ofBytes bytes.toList) sink options).verdict = .ok ()) :
    let code := Event.instructions (Run.ofReadings (Reading.ofBytes bytes.toList)).events
    (compile (Reading.ofBytes bytes.toList) sink options).output =
        (codeText options.indent code).toUTF8 ∧
      (∀ i ∈ code.head?, i.isFunction = true) ∧ ∀ f ∈ functions code, Disciplined f.tail := by
  intro code
  obtain ⟨c, -, hwf, hfits, (hcode : code = c.code)⟩ :=
    Run.exists_class_of_verdict hsize (Run.verdict_of_deliverFrom h)
  refine ⟨compile_output h, ?_, ?_⟩
  · intro i hi
    rw [hcode] at hi
    exact c.head?_code hi
  · intro f hf
    rw [hcode] at hf
    exact Class.disciplined hwf hfits hf

/-- The one function of the text of `counter`, with loops, branches and an array store. -/
theorem counterText_disciplined :
    counterText.toUTF8.size < UInt32.size ∧
    (compile (Reading.ofBytes counterText.toUTF8.toList) {} {}).verdict = .ok () ∧
    let code := Event.instructions
      (Run.ofReadings (Reading.ofBytes counterText.toUTF8.toList)).events
    (compile (Reading.ofBytes counterText.toUTF8.toList) {} {}).output =
        (codeText 4 code).toUTF8 ∧
      (∀ i ∈ code.head?, i.isFunction = true) ∧ ∀ f ∈ functions code, Disciplined f.tail :=
  ⟨counterText_size, counterText_compiled,
    compiled_functions_disciplined counterText_size counterText_compiled⟩

end JackStack
