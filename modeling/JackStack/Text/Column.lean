/-!
# Columns of text

Padding to a least width, counted in characters. A text that is already wide enough is kept as it
is: nothing is ever cut.
-/

namespace JackStack.Text

/-- The given number of spaces. -/
def spaces (n : Nat) : String := "".pushn ' ' n

/-- Spaces in front, up to the width. -/
def alignRight (width : Nat) (s : String) : String := spaces (width - s.length) ++ s

/-- Spaces behind, up to the width. -/
def alignLeft (width : Nat) (s : String) : String := s ++ spaces (width - s.length)

end JackStack.Text
