/-!
# Decoding bytes that may not be text

Bytes are read as UTF-8. A well-formed text decodes to itself. In any other byte sequence every
longest beginning of a character that cannot be completed, and every byte that begins none,
becomes one replacement character.
-/

namespace JackStack.Text

/-- The character that stands for undecodable bytes. -/
def replacement : Char := Char.ofNat 0xFFFD

/-- A character that has begun and still needs continuation bytes. -/
structure Begun where
  /-- Number of continuation bytes still needed. -/
  needed : Nat
  /-- Bits of the code point read so far. -/
  code : Nat
  /-- Least byte that may come next. -/
  low : UInt8
  /-- Greatest byte that may come next. -/
  high : UInt8
  deriving DecidableEq, Repr

/-- The text decoded so far and the character that is under way. -/
structure Decoder where
  /-- Characters decoded so far. -/
  text : String := ""
  /-- The character under way, if any. -/
  begun : Option Begun := none

namespace Decoder

/-- Takes the first byte of a character. -/
def lead (text : String) (b : UInt8) : Decoder :=
  if b < 0x80 then ⟨text.push (Char.ofNat b.toNat), none⟩
  else if b < 0xC2 then ⟨text.push replacement, none⟩
  else if b < 0xE0 then ⟨text, some ⟨1, b.toNat - 0xC0, 0x80, 0xBF⟩⟩
  else if b < 0xF0 then
    ⟨text, some ⟨2, b.toNat - 0xE0, if b = 0xE0 then 0xA0 else 0x80, if b = 0xED then 0x9F else 0xBF⟩⟩
  else if b < 0xF5 then
    ⟨text, some ⟨3, b.toNat - 0xF0, if b = 0xF0 then 0x90 else 0x80, if b = 0xF4 then 0x8F else 0xBF⟩⟩
  else ⟨text.push replacement, none⟩

/-- Takes one byte. A byte that cannot continue the character under way replaces it and begins
anew. -/
def step (d : Decoder) (b : UInt8) : Decoder :=
  match d.begun with
  | none => lead d.text b
  | some c =>
    if c.low ≤ b && b ≤ c.high then
      let code := c.code * 64 + (b.toNat - 0x80)
      if c.needed = 1 then ⟨d.text.push (Char.ofNat code), none⟩
      else ⟨d.text, some ⟨c.needed - 1, code, 0x80, 0xBF⟩⟩
    else lead (d.text.push replacement) b

/-- The text at the end of the bytes, where a character under way is replaced. -/
def finish (d : Decoder) : String :=
  match d.begun with
  | none => d.text
  | some _ => d.text.push replacement

end Decoder

/-- Decodes the bytes, with replacement characters where they are not text. -/
def decode (bytes : ByteArray) : String :=
  match String.fromUTF8? bytes with
  | some s => s
  | none => (bytes.toList.foldl Decoder.step {}).finish

end JackStack.Text
