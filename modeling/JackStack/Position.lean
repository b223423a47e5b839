/-!
# Positions in a source text

A position is a line and a column, both counted from one. Columns count bytes, and only a line
feed starts a new line.
-/

namespace JackStack

/-- A place in a source text. -/
structure Position where
  /-- Line, counted from one. -/
  line : Nat
  /-- Column in bytes, counted from one. -/
  column : Nat
  deriving DecidableEq, Repr

namespace Position

/-- The place of the first byte. -/
def start : Position := ⟨1, 1⟩

/-- The place behind a byte that stands here. -/
def step (p : Position) (b : UInt8) : Position :=
  if b = 10 then ⟨p.line + 1, 1⟩ else ⟨p.line, p.column + 1⟩

/-- The place behind a run of bytes that starts here. -/
def after (p : Position) (bytes : List UInt8) : Position := bytes.foldl step p

@[simp] theorem after_nil (p : Position) : p.after [] = p := rfl

@[simp] theorem after_cons (p : Position) (b : UInt8) (bytes : List UInt8) :
    p.after (b :: bytes) = (p.step b).after bytes := rfl

/-- The position behind two pieces is the one behind the second, from where the first ended. -/
theorem after_append (p : Position) (front back : List UInt8) :
    p.after (front ++ back) = (p.after front).after back := by
  simp only [after, List.foldl_append]

/-- Line and column, as messages show them. -/
def text (p : Position) : String := toString p.line ++ ":" ++ toString p.column

end Position

end JackStack
