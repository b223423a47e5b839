import JackStack.Code.Instruction
import JackStack.Error

/-!
# Writing instructions to a sink

A sink takes bytes up to its capacity. The write that would exceed it leaves exactly the bytes
that still fit and fails. Flushing is a separate step with a failure of its own.
-/

namespace JackStack

/-- Where output goes. -/
structure Sink where
  /-- The number of bytes it takes; without it there is no bound. -/
  capacity : Option Nat := none
  /-- How a write beyond the capacity fails. -/
  writeFault : IoError := ⟨.other, "write failure"⟩
  /-- How flushing fails, if it does. -/
  flushFault : Option IoError := none
  deriving DecidableEq, Repr

namespace Sink

/-- Takes bytes behind those already written: all bytes written then, and the failure if some did
not fit. -/
def take (sink : Sink) (written bytes : ByteArray) : ByteArray × Option IoError :=
  match sink.capacity with
  | none => (written ++ bytes, none)
  | some n =>
    if written.size + bytes.size ≤ n then (written ++ bytes, none)
    else (written ++ bytes.extract 0 (n - written.size), some sink.writeFault)

/-- Without a failure everything is taken. -/
theorem take_of_none {sink : Sink} {written bytes all : ByteArray}
    (h : sink.take written bytes = (all, none)) : all = written ++ bytes := by
  unfold take at h
  split at h
  · exact (congrArg Prod.fst h).symm
  · split at h
    · exact (congrArg Prod.fst h).symm
    · exact absurd (congrArg Prod.snd h) (Option.some_ne_none _)

end Sink

/-- A sink, what has been written to it, and the indentation of the lines to come. -/
structure Writer where
  /-- Where the lines go. -/
  sink : Sink := {}
  /-- Spaces in front of every line but labels. -/
  indent : Nat := 0
  /-- The bytes the sink has taken. -/
  written : ByteArray := .empty

namespace Writer

/-- Writes a text. -/
def put (w : Writer) (text : String) : Writer × Option IoError :=
  let (written, failure) := w.sink.take w.written text.toUTF8
  ({ w with written }, failure)

/-- Writes an instruction on a line of its own. -/
def instruction (w : Writer) (i : Instruction) : Writer × Option IoError :=
  w.put (i.line w.indent)

/-- Changes the indentation. -/
def setIndent (w : Writer) (indent : Nat) : Writer := { w with indent }

/-- Flushes the sink. -/
def flush (w : Writer) : Option IoError := w.sink.flushFault

end Writer

end JackStack
