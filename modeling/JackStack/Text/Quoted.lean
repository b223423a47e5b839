import JackStack.Text.Escapes

/-!
# Characters in messages

A message names a character between single quotes. Five characters and the quote itself have a
short escape, a character without a readable form is named by its code point in hexadecimal, and every other
character stands for itself.
-/

namespace JackStack.Text

/-- Digits of a number in base sixteen, in lower case and without leading zeros. -/
def hex (n : Nat) : String := String.ofList (Nat.toDigits 16 n)

/-- The form of a character between the quotes. -/
def escaped (c : Char) : String :=
  if c = '\x00' then "\\0"
  else if c = '\t' then "\\t"
  else if c = '\n' then "\\n"
  else if c = '\r' then "\\r"
  else if c = '\'' then "\\'"
  else if c = '\\' then "\\\\"
  else if needsCode c then "\\u\x7b" ++ hex c.toNat ++ "\x7d"
  else String.singleton c

/-- A character between single quotes, as messages show it. -/
def quoted (c : Char) : String := "'" ++ escaped c ++ "'"

end JackStack.Text
