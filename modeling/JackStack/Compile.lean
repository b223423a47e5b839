import JackStack.Code.Generator
import JackStack.Code.Writer
import JackStack.Syntax.Class
import JackStack.Text.Decoding

/-!
# Compiling a class

`compile` reads one class from a source and writes its instructions to a sink while it reads:
what was written when a failure strikes stays written. `compileString` is the same on a text, and
answers with the whole code or the failure.
-/

namespace JackStack

/-- How a class is compiled. -/
structure Options where
  /-- Spaces in front of every instruction inside a function, labels apart. -/
  indent : Nat := 4
  deriving DecidableEq, Repr

/-- The run of a compilation, before anything is written: its events in order and how it ends. -/
structure Run where
  /-- Notes and instructions in order. -/
  events : List Event
  /-- Why it failed, if it did. -/
  verdict : Except Error Unit

/-- Reads a class and carries out what the grammar reports. A failure of an action comes before
the failure of the grammar behind it. -/
def Run.ofReadings (readings : List Reading) : Run :=
  let unread := Unread.ofReadings readings
  let parsed := Syntax.parse unread.outcomes unread.finish
  let (events, carried) := generate parsed.actions
  ⟨events, carried.bind fun _ => parsed.outcome.map fun _ => ()⟩

/-- What a compilation leaves behind. -/
structure Report where
  /-- The bytes that the sink has taken. -/
  output : ByteArray
  /-- The notes made, in order. -/
  notes : List Note
  /-- Why it failed, if it did. -/
  verdict : Except Error Unit

namespace Run

/-- Writes the instructions among the events, up to the first failing write; `notes` holds the
notes before, last one first. -/
def deliverFrom (indent : Nat) (verdict : Except Error Unit) (w : Writer) (notes : List Note) :
    List Event → Report
  | [] =>
    match verdict with
    | .error e => ⟨w.written, notes.reverse, .error e⟩
    | .ok () =>
      match w.flush with
      | some e => ⟨w.written, notes.reverse, .error (.io e)⟩
      | none => ⟨w.written, notes.reverse, .ok ()⟩
  | .note n :: rest => deliverFrom indent verdict w (n :: notes) rest
  | .emit i :: rest =>
    match w.put (i.bodyLine indent) with
    | (w', none) => deliverFrom indent verdict w' notes rest
    | (w', some e) => ⟨w'.written, notes.reverse, .error (.io e)⟩

/-- Writes the run to a sink. -/
def deliver (r : Run) (sink : Sink) (options : Options) : Report :=
  deliverFrom options.indent r.verdict { sink } [] r.events

end Run

/-- Compiles the class that a source holds and writes it to a sink. -/
def compile (readings : List Reading) (sink : Sink) (options : Options) : Report :=
  (Run.ofReadings readings).deliver sink options

/-- Compiles the class that the bytes hold, where reading and writing do not fail. -/
def compileBytes (bytes : ByteArray) (options : Options) : Report :=
  compile (Reading.ofBytes bytes.toList) {} options

/-- The code of the class that a text holds. -/
def compileString (source : String) (options : Options) : Except Error String :=
  let report := compileBytes source.toUTF8 options
  report.verdict.map fun _ => Text.decode report.output

end JackStack
