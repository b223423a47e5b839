import JackStack.Error

/-!
# Reading a source byte by byte

An attempt to read gives a byte or a failure, and reading goes on behind a failure as if it had
not happened. A source is the list of what its reading attempts give; behind the list stands the
end of the input.
-/

namespace JackStack

/-- What one attempt to read gives. -/
inductive Reading where
  | byte (value : UInt8)
  | fault (cause : IoError)
  deriving DecidableEq, Repr

namespace Reading

/-- A source whose reading never fails. -/
def ofBytes (bytes : List UInt8) : List Reading := bytes.map byte

/-- A source whose first attempt to read the byte at an offset fails; at the offset that equals
the length it is the attempt to see the end, and beyond that nothing fails. -/
def ofBytesFailingAt (offset : Nat) (cause : IoError) (bytes : List UInt8) : List Reading :=
  if offset ≤ bytes.length then
    ofBytes (bytes.take offset) ++ fault cause :: ofBytes (bytes.drop offset)
  else ofBytes bytes

/-- The bytes among the readings. -/
def bytes (readings : List Reading) : List UInt8 :=
  readings.filterMap fun
    | byte b => some b
    | fault _ => none

/-- Readings without a failure have the bytes that they were made of. -/
@[simp] theorem bytes_ofBytes (bs : List UInt8) : bytes (ofBytes bs) = bs := by
  induction bs with
  | nil => rfl
  | cons b rest ih =>
    change b :: bytes (ofBytes rest) = b :: rest
    rw [ih]

theorem bytes_append (front back : List Reading) :
    bytes (front ++ back) = bytes front ++ bytes back := by
  simp only [bytes, List.filterMap_append]

end Reading

end JackStack
