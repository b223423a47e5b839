import JackStack.Source.Progress
import Mathlib.Data.List.Infix
import Mathlib.Data.Nat.Digits.Defs
import Mathlib.Data.UInt

/-!
# The lexical structure of a source

A source is cut into tiles: blanks, comments, tokens and pieces that are no token. Which tile
stands at the front is said by `Tile.Fits`, in terms of the tile and of what follows it, and not by
a way to find it. Every source has exactly one tiling, and scanning gives the outcomes of its tiles
in order: blanks and comments give none, every other tile gives one, at the position of its first
byte.
-/

namespace JackStack

/-! ## Tiles -/

/-- The bytes of a text. -/
def utf8 (s : String) : List UInt8 := s.toUTF8.data.toList

/-- A byte that goes on with a word. -/
def inWord (b : UInt8) : Bool := b.isASCIIAlphanum || b = 95

/-- A run of bytes that pass a test does not go on here. -/
def Stops (test : UInt8 → Bool) (rest : List UInt8) : Prop := ∀ b ∈ rest.head?, test b = false

/-- The bytes are a letter and what goes on with a word, and the word ends behind them. -/
def IsWord (word rest : List UInt8) : Prop :=
  (∃ b tail, word = b :: tail ∧ b.isASCIIAlpha ∧ ∀ c ∈ tail, inWord c) ∧ Stops inWord rest

/-- A slice of a source. -/
inductive Tile where
  | blank (b : UInt8)
  /-- The body begins behind the two slashes and ends with the line feed, if there is one. -/
  | lineComment (body : List UInt8)
  /-- The body stands between the two marks. -/
  | blockComment (body : List UInt8)
  | symbol (b : UInt8)
  | integer (digits : List UInt8)
  | keyword (word : Keyword)
  | identifier (name : String)
  | text (content : String)
  /-- A byte that begins nothing. -/
  | stray (b : UInt8)
  /-- Bytes between quotes that are not the bytes of a text. -/
  | garbled (content : List UInt8)
  /-- A quote that is not closed, and what follows it. -/
  | openText (content : List UInt8)
  /-- A block comment that is not closed. -/
  | openComment (body : List UInt8)

namespace Tile

/-- The bytes of the slice. -/
def bytes : Tile → List UInt8
  | blank b => [b]
  | lineComment body => 47 :: 47 :: body
  | blockComment body => 47 :: 42 :: (body ++ [42, 47])
  | symbol b => [b]
  | integer digits => digits
  | keyword word => utf8 word.text
  | identifier name => utf8 name
  | text content => 34 :: (utf8 content ++ [34])
  | stray b => [b]
  | garbled content => 34 :: (content ++ [34])
  | openText content => 34 :: content
  | openComment body => 47 :: 42 :: body

/-- The tile is what the source begins with, where `rest` follows it. No closing mark begins inside
a block comment: `*/` is no part of the body and the star behind it. -/
def Fits : Tile → List UInt8 → Prop
  | blank b, _ => b ∈ [32, 9, 10, 12, 13]
  | lineComment body, rest =>
    (∃ line, body = line ++ [10] ∧ 10 ∉ line) ∨ 10 ∉ body ∧ rest = []
  | blockComment body, _ => ¬[42, 47] <:+: body ++ [42]
  | symbol b, rest => byteChar b ∈ symbols.toList ∧ (b = 47 → ∀ c ∈ rest.head?, c ≠ 47 ∧ c ≠ 42)
  | integer digits, rest =>
    digits ≠ [] ∧ (∀ d ∈ digits, d.isASCIIDigit) ∧ Stops UInt8.isASCIIDigit rest
  | keyword word, rest => IsWord (utf8 word.text) rest
  | identifier name, rest => IsWord (utf8 name) rest ∧ ∀ k : Keyword, k.text ≠ name
  | text content, _ => 34 ∉ utf8 content
  | stray b, _ => b ∉ [32, 9, 10, 12, 13] ∧ byteChar b ∉ symbols.toList ∧ b ≠ 34 ∧
    b.isASCIIDigit = false ∧ b.isASCIIAlpha = false
  | garbled content, _ => 34 ∉ content ∧ ∀ s, utf8 s ≠ content
  | openText content, rest => 34 ∉ content ∧ rest = []
  | openComment body, rest => ¬[42, 47] <:+: body ∧ rest = []

/-- The number that decimal digits write. -/
def decimal (digits : List UInt8) : Nat :=
  Nat.ofDigits 10 (digits.reverse.map fun d => d.toNat - 48)

/-- What scanning gives for the tile, which begins at a position. -/
def outcome (pos : Position) : Tile → Option Outcome
  | blank _ | lineComment _ | blockComment _ => none
  | symbol b => some (.lexeme ⟨.symbol (byteChar b), pos⟩)
  | integer digits =>
    some (.lexeme ⟨.integer (UInt32.ofNat (min (decimal digits) integerCap)), pos⟩)
  | keyword word => some (.lexeme ⟨.keyword word, pos⟩)
  | identifier name => some (.lexeme ⟨.identifier name, pos⟩)
  | text content => some (.lexeme ⟨.string content, pos⟩)
  | stray b => some (.failure (.unexpectedChar pos (byteChar b)))
  | garbled _ => some (.failure (.invalidString pos))
  | openText _ => some (.failure (.unterminatedString pos))
  | openComment _ => some (.failure (.unterminatedComment pos))

/-- The token of a tile. -/
def token? : Tile → Option Token
  | symbol b => some (.symbol (byteChar b))
  | integer digits => some (.integer (UInt32.ofNat (min (decimal digits) integerCap)))
  | keyword word => some (.keyword word)
  | identifier name => some (.identifier name)
  | text content => some (.string content)
  | _ => none

/-- The tile is neither a token nor skipped. -/
def isFlaw : Tile → Bool
  | stray _ | garbled _ | openText _ | openComment _ => true
  | _ => false

/-- What scanning gives for tiles one after the other, the first at a position. -/
def outcomes : Position → List Tile → List Outcome
  | _, [] => []
  | pos, t :: tiles => (t.outcome pos).toList ++ outcomes (pos.after t.bytes) tiles

end Tile

/-- The tiles cut the bytes into slices, each of which fits in its place. -/
inductive Tiling : List Tile → List UInt8 → Prop
  | nil : Tiling [] []
  | cons {t : Tile} {tiles : List Tile} {rest : List UInt8} (fits : t.Fits rest)
      (tail : Tiling tiles rest) : Tiling (t :: tiles) (t.bytes ++ rest)

/-! ## Bytes -/

/-- What holds of the 256 bytes holds of every byte. -/
theorem forall_byte {P : UInt8 → Prop} (h : ∀ n < 256, P (UInt8.ofNat n)) (b : UInt8) : P b := by
  have hb := h b.toNat b.toNat_lt
  rwa [UInt8.ofNat_toNat] at hb

/-! ## Texts and words -/

/-- Different texts have different bytes. -/
theorem utf8_injective {s t : String} (h : utf8 s = utf8 t) : s = t :=
  String.toByteArray_inj.mp (ByteArray.ext (Array.toList_inj.mp h))

/-- The name that a word is read as has the word's bytes. -/
theorem utf8_ofList_byteChar {word : List UInt8} (h : ∀ b ∈ word, inWord b) :
    utf8 (String.ofList (word.map byteChar)) = word := by
  have hbyte : ∀ b : UInt8, inWord b → String.utf8EncodeChar (byteChar b) = [b] :=
    forall_byte (by decide +kernel)
  have hflat : (word.map byteChar).flatMap String.utf8EncodeChar = word := by
    rw [List.flatMap_map]
    calc word.flatMap (fun b => String.utf8EncodeChar (byteChar b))
        = word.flatMap (fun b => [b]) := List.flatMap_congr fun b hb => hbyte b (h b hb)
      _ = word := List.flatMap_singleton' word
  have harray : (String.ofList (word.map byteChar)).toUTF8 = word.toByteArray := by
    change (String.ofList (word.map byteChar)).toByteArray = word.toByteArray
    rw [String.toByteArray_ofList, List.utf8Encode, hflat]
  rw [utf8, harray, List.data_toByteArray]

/-- All bytes of a word may stand in words. -/
theorem IsWord.inWord {word rest : List UInt8} (h : IsWord word rest) : ∀ b ∈ word, inWord b := by
  have hletter : ∀ b : UInt8, b.isASCIIAlpha → JackStack.inWord b :=
    forall_byte (by decide +kernel)
  obtain ⟨⟨b, tail, rfl, hb, htail⟩, -⟩ := h
  intro c hc
  rcases List.mem_cons.mp hc with rfl | hc
  · exact hletter c hb
  · exact htail c hc

/-! ## The byte that a tile begins with -/

/-- What the first bytes of a source say about its first tile. -/
inductive Lead where
  | blank | line | block | symbol | quote | digit | letter | other
  deriving DecidableEq

/-- The lead of a byte, the next byte at hand. -/
def Lead.of (b : UInt8) (next : Option UInt8) : Lead :=
  if b ∈ [32, 9, 10, 12, 13] then .blank
  else if b = 47 ∧ next = some 47 then .line
  else if b = 47 ∧ next = some 42 then .block
  else if byteChar b ∈ symbols.toList then .symbol
  else if b = 34 then .quote
  else if b.isASCIIDigit then .digit
  else if b.isASCIIAlpha then .letter
  else .other

namespace Tile

/-- The lead that a tile has. -/
def lead : Tile → Lead
  | blank _ => .blank
  | lineComment _ => .line
  | blockComment _ | openComment _ => .block
  | symbol _ => .symbol
  | integer _ => .digit
  | keyword _ | identifier _ => .letter
  | text _ | garbled _ | openText _ => .quote
  | stray _ => .other

/-- No symbol is a blank. -/
theorem symbol_not_blank {b : UInt8} : byteChar b ∈ symbols.toList → b ∉ [32, 9, 10, 12, 13] :=
  forall_byte (P := fun b => byteChar b ∈ symbols.toList → b ∉ [32, 9, 10, 12, 13])
    (by decide +kernel) b

/-- The slash is a symbol, so a byte that is none is no slash. -/
theorem ne_slash {b : UInt8} (h : byteChar b ∉ symbols.toList) : b ≠ 47 := by
  rintro rfl
  exact h (by decide)

/-- A symbol that begins no comment leads as a symbol. -/
theorem lead_symbol {b : UInt8} {next : Option UInt8} (hb : byteChar b ∈ symbols.toList)
    (hnext : b = 47 → ∀ c ∈ next, c ≠ 47 ∧ c ≠ 42) : Lead.of b next = .symbol := by
  have hline : ¬(b = 47 ∧ next = some 47) := fun h => (hnext h.1 47 h.2).1 rfl
  have hblock : ¬(b = 47 ∧ next = some 42) := fun h => (hnext h.1 42 h.2).2 rfl
  rw [Lead.of, if_neg (symbol_not_blank hb), if_neg hline, if_neg hblock, if_pos hb]

/-- A digit leads an integer. -/
theorem lead_digit {b : UInt8} (next : Option UInt8) (h : b.isASCIIDigit) :
    Lead.of b next = .digit := by
  have hother : ∀ b : UInt8, b.isASCIIDigit → b ∉ [32, 9, 10, 12, 13] ∧ b ≠ 47 ∧
      byteChar b ∉ symbols.toList ∧ b ≠ 34 := forall_byte (by decide +kernel)
  obtain ⟨hblank, hslash, hsymbol, hquote⟩ := hother b h
  simp [Lead.of, hblank, hslash, hsymbol, hquote, h]

/-- A letter leads a word. -/
theorem lead_letter {b : UInt8} (next : Option UInt8) (h : b.isASCIIAlpha) :
    Lead.of b next = .letter := by
  have hother : ∀ b : UInt8, b.isASCIIAlpha → b ∉ [32, 9, 10, 12, 13] ∧ b ≠ 47 ∧
      byteChar b ∉ symbols.toList ∧ b ≠ 34 ∧ b.isASCIIDigit = false :=
    forall_byte (by decide +kernel)
  obtain ⟨hblank, hslash, hsymbol, hquote, hdigit⟩ := hother b h
  simp [Lead.of, hblank, hslash, hsymbol, hquote, hdigit, h]

/-- A quote leads a string. -/
theorem lead_quote (next : Option UInt8) : Lead.of 34 next = .quote := by
  have hsymbol : byteChar 34 ∉ symbols.toList := by decide
  simp [Lead.of, hsymbol]

/-- A tile that fits begins with a byte of its lead. -/
theorem Fits.lead {t : Tile} {rest : List UInt8} (h : t.Fits rest) :
    ∃ b tail, t.bytes = b :: tail ∧ Lead.of b (tail ++ rest).head? = t.lead := by
  have word : ∀ w, IsWord w rest →
      ∃ b tail, w = b :: tail ∧ Lead.of b (tail ++ rest).head? = .letter := by
    rintro w ⟨⟨b, tail, rfl, hb, -⟩, -⟩
    exact ⟨b, tail, rfl, lead_letter _ hb⟩
  cases t with
  | blank b => exact ⟨b, [], rfl, if_pos h⟩
  | lineComment body => exact ⟨47, 47 :: body, rfl, rfl⟩
  | blockComment body => exact ⟨47, 42 :: (body ++ [42, 47]), rfl, rfl⟩
  | symbol b => exact ⟨b, [], rfl, lead_symbol h.1 h.2⟩
  | integer digits =>
    obtain ⟨hne, hdigits, -⟩ := h
    obtain ⟨d, tail, rfl⟩ := List.exists_cons_of_ne_nil hne
    exact ⟨d, tail, rfl, lead_digit _ (hdigits d List.mem_cons_self)⟩
  | keyword k => exact word _ h
  | identifier name => exact word _ h.1
  | text content => exact ⟨34, utf8 content ++ [34], rfl, lead_quote _⟩
  | stray b =>
    obtain ⟨hblank, hsymbol, hquote, hdigit, hletter⟩ := h
    refine ⟨b, [], rfl, ?_⟩
    simp [Lead.of, hblank, ne_slash hsymbol, hsymbol, hquote, hdigit, hletter, Tile.lead]
  | garbled content => exact ⟨34, content ++ [34], rfl, lead_quote _⟩
  | openText content => exact ⟨34, content, rfl, lead_quote _⟩
  | openComment body => exact ⟨47, 42 :: body, rfl, rfl⟩

end Tile

/-! ## At most one tiling -/

/-- Where a run of bytes ends is determined. -/
theorem run_unique {test : UInt8 → Bool} {run run' rest rest' : List UInt8}
    (hrun : ∀ b ∈ run, test b) (hrun' : ∀ b ∈ run', test b) (hstop : Stops test rest)
    (hstop' : Stops test rest') (h : run ++ rest = run' ++ rest') : run = run' := by
  have hnone : ∀ {rest}, Stops test rest → rest.takeWhile test = [] := by
    intro rest hrest
    cases rest with
    | nil => rfl
    | cons b rest => rw [List.takeWhile_cons, hrest b rfl, if_neg Bool.false_ne_true]
  have htake := congrArg (List.takeWhile test) h
  rwa [List.takeWhile_append_of_pos hrun, List.takeWhile_append_of_pos hrun', hnone hstop,
    hnone hstop', List.append_nil, List.append_nil] at htake

/-- Where a byte occurs first is determined. -/
theorem until_unique {b : UInt8} {front front' rest rest' : List UInt8} (hfront : b ∉ front)
    (hfront' : b ∉ front') (h : front ++ b :: rest = front' ++ b :: rest') : front = front' := by
  have hother : ∀ {front : List UInt8}, b ∉ front → ∀ c ∈ front, decide (c ≠ b) = true := by
    intro front hfront c hc
    rw [decide_eq_true_iff]
    rintro rfl
    exact hfront hc
  have hstop : ∀ rest, Stops (fun c => decide (c ≠ b)) (b :: rest) := by
    rintro rest c ⟨⟩
    exact decide_eq_false (fun h => h rfl)
  exact run_unique (hother hfront) (hother hfront') (hstop rest) (hstop rest') h

/-- A comment that is closed earlier holds the closing mark of the other one. -/
theorem block_longer (body : List UInt8) {extra rest rest' : List UInt8}
    (h : 42 :: 47 :: rest = extra ++ 42 :: 47 :: rest') :
    extra = [] ∨ [42, 47] <:+: body ++ extra ++ [42] := by
  match extra, h with
  | [], _ => exact .inl rfl
  | [c], h =>
    have hc := (List.cons.inj (List.cons.inj h).2).1
    exact absurd hc (by decide)
  | c :: d :: extra, h =>
    have hc := (List.cons.inj h).1
    have hd := (List.cons.inj (List.cons.inj h).2).1
    exact .inr ⟨body, extra ++ [42], by simp [hc, hd]⟩

/-- Where a comment is closed is determined. -/
theorem block_unique {body body' rest rest' : List UInt8} (hbody : ¬[42, 47] <:+: body ++ [42])
    (hbody' : ¬[42, 47] <:+: body' ++ [42])
    (h : body ++ 42 :: 47 :: rest = body' ++ 42 :: 47 :: rest') : body = body' := by
  rcases List.append_eq_append_iff.mp h with ⟨extra, rfl, hextra⟩ | ⟨extra, rfl, hextra⟩
  · rcases block_longer body hextra with rfl | hin
    · rw [List.append_nil]
    · exact absurd hin hbody'
  · rcases block_longer body' hextra with rfl | hin
    · rw [List.append_nil]
    · exact absurd hin hbody

/-- Where a quote is closed is determined. -/
theorem quoted_unique {content content' rest rest' : List UInt8} (h : 34 ∉ content)
    (h' : 34 ∉ content')
    (heq : 34 :: (content ++ [34]) ++ rest = 34 :: (content' ++ [34]) ++ rest') :
    content = content' := by
  simp only [List.cons_append, List.append_assoc, List.cons.injEq, true_and] at heq
  exact until_unique h h' heq

/-- A quote that is closed is not one that is not closed. -/
theorem quoted_ne_open {content content' rest : List UInt8} (h : 34 ∉ content') :
    34 :: (content ++ [34]) ++ rest ≠ 34 :: content' ++ [] := by
  intro heq
  simp only [List.cons_append, List.cons.injEq, true_and, List.append_nil] at heq
  exact absurd (heq ▸ by simp) h

/-- A comment that is closed is not one that is not closed. -/
theorem block_ne_open {body body' rest : List UInt8} (h : ¬[42, 47] <:+: body') :
    47 :: 42 :: (body ++ [42, 47]) ++ rest ≠ 47 :: 42 :: body' ++ [] := by
  intro heq
  simp only [List.cons_append, List.cons.injEq, true_and, List.append_nil] at heq
  exact h ⟨body, rest, heq⟩

namespace Tile

/-- What two tiles of a line comment share. -/
theorem line_unique {body body' rest rest' : List UInt8} (h : (lineComment body).Fits rest)
    (h' : (lineComment body').Fits rest') (heq : body ++ rest = body' ++ rest') : body = body' := by
  rcases h with ⟨line, rfl, hline⟩ | ⟨hbody, rfl⟩ <;>
    rcases h' with ⟨line', rfl, hline'⟩ | ⟨hbody', rfl⟩
  · rw [List.append_assoc, List.append_assoc] at heq
    rw [until_unique hline hline' heq]
  · rw [List.append_nil] at heq
    exact absurd (heq ▸ by simp) hbody'
  · rw [List.append_nil] at heq
    exact absurd (heq ▸ by simp) hbody
  · rwa [List.append_nil, List.append_nil] at heq

/-- Two words at the front of the same bytes are the same. -/
theorem word_unique {s s' : String} {rest rest' : List UInt8} (h : IsWord (utf8 s) rest)
    (h' : IsWord (utf8 s') rest') (heq : utf8 s ++ rest = utf8 s' ++ rest') : s = s' :=
  utf8_injective (run_unique h.inWord h'.inWord h.2 h'.2 heq)

/-- Two tiles that fit at the front of the same bytes are the same. Tiles of different leads are
told apart; what is left are the tiles of each lead. -/
theorem Fits.unique {t t' : Tile} {rest rest' : List UInt8} (h : t.Fits rest) (h' : t'.Fits rest')
    (heq : t.bytes ++ rest = t'.bytes ++ rest') : t = t' := by
  have hlead : t.lead = t'.lead := by
    obtain ⟨b, tail, hbytes, hb⟩ := h.lead
    obtain ⟨b', tail', hbytes', hb'⟩ := h'.lead
    rw [hbytes, hbytes', List.cons_append, List.cons_append] at heq
    obtain ⟨rfl, htail⟩ := List.cons.inj heq
    rw [← hb, ← hb', htail]
  cases t <;> cases t' <;> try cases hlead
  case blank.blank => exact congrArg blank (List.cons.inj heq).1
  case lineComment.lineComment =>
    exact congrArg lineComment (line_unique h h' (List.cons.inj (List.cons.inj heq).2).2)
  case blockComment.blockComment =>
    simp only [bytes, List.cons_append, List.append_assoc, List.cons.injEq, true_and] at heq
    exact congrArg blockComment (block_unique h h' heq)
  case blockComment.openComment =>
    obtain ⟨hbody, rfl⟩ := h'
    exact absurd heq (block_ne_open hbody)
  case openComment.blockComment =>
    obtain ⟨hbody, rfl⟩ := h
    exact absurd heq.symm (block_ne_open hbody)
  case openComment.openComment =>
    obtain ⟨-, rfl⟩ := h
    obtain ⟨-, rfl⟩ := h'
    exact congrArg openComment (by simpa [bytes] using heq)
  case symbol.symbol => exact congrArg symbol (List.cons.inj heq).1
  case stray.stray => exact congrArg stray (List.cons.inj heq).1
  case integer.integer =>
    exact congrArg integer (run_unique h.2.1 h'.2.1 h.2.2 h'.2.2 heq)
  case keyword.keyword =>
    exact congrArg keyword (Keyword.text_injective (word_unique h h' heq))
  case keyword.identifier => exact absurd (word_unique h h'.1 heq) (h'.2 _)
  case identifier.keyword => exact absurd (word_unique h' h.1 heq.symm) (h.2 _)
  case identifier.identifier => exact congrArg identifier (word_unique h.1 h'.1 heq)
  case text.text => exact congrArg text (utf8_injective (quoted_unique h h' heq))
  case text.garbled => exact absurd (quoted_unique h h'.1 heq) (h'.2 _)
  case garbled.text => exact absurd (quoted_unique h' h.1 heq.symm) (h.2 _)
  case garbled.garbled => exact congrArg garbled (quoted_unique h.1 h'.1 heq)
  case openText.openText =>
    obtain ⟨-, rfl⟩ := h
    obtain ⟨-, rfl⟩ := h'
    exact congrArg openText (by simpa [bytes] using heq)
  case text.openText | garbled.openText =>
    obtain ⟨hcontent, rfl⟩ := h'
    exact absurd heq (quoted_ne_open hcontent)
  case openText.text | openText.garbled =>
    obtain ⟨hcontent, rfl⟩ := h
    exact absurd heq.symm (quoted_ne_open hcontent)

/-- No tile that fits is empty. -/
theorem Fits.bytes_ne_nil {t : Tile} {rest : List UInt8} (h : t.Fits rest) : t.bytes ≠ [] := by
  obtain ⟨b, tail, hbytes, -⟩ := h.lead
  rw [hbytes]
  exact List.cons_ne_nil b tail

end Tile

namespace Tiling

/-- The slices together are the whole source. -/
theorem flatMap_bytes {tiles : List Tile} {bytes : List UInt8} (h : Tiling tiles bytes) :
    tiles.flatMap Tile.bytes = bytes := by
  induction h with
  | nil => rfl
  | cons _ _ ih => rw [List.flatMap_cons, ih]

/-- No tile of a tiling is empty. -/
theorem bytes_ne_nil {tiles : List Tile} {bytes : List UInt8} (h : Tiling tiles bytes) :
    ∀ t ∈ tiles, t.bytes ≠ [] := by
  induction h with
  | nil => exact nofun
  | cons fits _ ih => exact List.forall_mem_cons.mpr ⟨fits.bytes_ne_nil, ih⟩

/-- A source has at most one tiling. -/
theorem unique {tiles tiles' : List Tile} {bytes : List UInt8} (h : Tiling tiles bytes)
    (h' : Tiling tiles' bytes) : tiles = tiles' := by
  induction h generalizing tiles' with
  | nil =>
    generalize hbytes : ([] : List UInt8) = bytes at h'
    cases h' with
    | nil => rfl
    | cons fits tail => exact absurd (List.append_eq_nil_iff.mp hbytes.symm).1 fits.bytes_ne_nil
  | @cons t tiles rest fits tail ih =>
    generalize hbytes : t.bytes ++ rest = bytes at h'
    cases h' with
    | nil => exact absurd (List.append_eq_nil_iff.mp hbytes).1 fits.bytes_ne_nil
    | cons fits' tail' =>
      obtain rfl := fits.unique fits' hbytes
      obtain rfl := List.append_cancel_left hbytes
      rw [ih tail']

end Tiling

/-! ## At least one tiling -/

/-- A run of bytes that pass a test, as long as possible. -/
theorem exists_run (test : UInt8 → Bool) (bytes : List UInt8) :
    ∃ run rest, bytes = run ++ rest ∧ (∀ b ∈ run, test b) ∧ Stops test rest := by
  refine ⟨bytes.takeWhile test, bytes.dropWhile test, List.takeWhile_append_dropWhile.symm,
    List.all_eq_true.mp List.all_takeWhile, ?_⟩
  intro b hb
  have hhead := List.head?_dropWhile_not test bytes
  rw [Option.mem_def.mp hb] at hhead
  exact hhead

/-- A byte occurs first somewhere, or nowhere. -/
theorem exists_until (b : UInt8) (bytes : List UInt8) :
    (∃ front rest, bytes = front ++ b :: rest ∧ b ∉ front) ∨ b ∉ bytes := by
  by_cases h : b ∈ bytes
  · obtain ⟨front, rest, hbytes, hfront⟩ := List.eq_append_cons_of_mem h
    exact .inl ⟨front, rest, hbytes, hfront⟩
  · exact .inr h

/-- A comment is closed by a first mark, or not at all. -/
theorem exists_close (bytes : List UInt8) :
    (∃ body rest, bytes = body ++ 42 :: 47 :: rest ∧ ¬[42, 47] <:+: body ++ [42]) ∨
      ¬[42, 47] <:+: bytes := by
  induction bytes with
  | nil => exact .inr (by decide)
  | cons b bytes ih =>
    by_cases hmark : [42, 47] <+: b :: bytes
    · obtain ⟨rest, hrest⟩ := hmark
      exact .inl ⟨[], rest, hrest.symm, by decide⟩
    · rcases ih with ⟨body, rest, rfl, hbody⟩ | hnone
      · refine .inl ⟨b :: body, rest, rfl, fun hin => ?_⟩
        rcases List.infix_cons_iff.mp hin with hfront | hin
        · refine hmark (hfront.trans ?_)
          exact ⟨47 :: rest, by simp⟩
        · exact hbody hin
      · refine .inr fun hin => ?_
        exact (List.infix_cons_iff.mp hin).elim hmark hnone

namespace Tile

/-- A tile fits where a quote stands: a string, a garbled one, or one that is not closed. -/
theorem exists_quoted (rest : List UInt8) :
    ∃ (t : Tile) (left : List UInt8), 34 :: rest = t.bytes ++ left ∧ t.Fits left := by
  rcases exists_until 34 rest with ⟨content, left, rfl, hcontent⟩ | hnone
  · by_cases htext : ∃ s, utf8 s = content
    · obtain ⟨s, rfl⟩ := htext
      exact ⟨text s, left, by simp [bytes], hcontent⟩
    · exact ⟨garbled content, left, by simp [bytes], hcontent, not_exists.mp htext⟩
  · exact ⟨openText rest, [], by simp [bytes], hnone, rfl⟩

/-- A tile fits where a letter stands: a reserved word or an identifier. -/
theorem exists_word {b : UInt8} (hb : b.isASCIIAlpha) (rest : List UInt8) :
    ∃ (t : Tile) (left : List UInt8), b :: rest = t.bytes ++ left ∧ t.Fits left := by
  obtain ⟨run, left, rfl, hrun, hstop⟩ := exists_run inWord rest
  have hword : IsWord (b :: run) left := ⟨⟨b, run, rfl, hb, hrun⟩, hstop⟩
  have hname := utf8_ofList_byteChar hword.inWord
  generalize String.ofList ((b :: run).map byteChar) = name at hname
  rw [← List.cons_append, ← hname]
  rw [← hname] at hword
  by_cases hk : ∃ k : Keyword, k.text = name
  · obtain ⟨k, rfl⟩ := hk
    exact ⟨keyword k, left, rfl, hword⟩
  · exact ⟨identifier name, left, rfl, hword, not_exists.mp hk⟩

/-- A tile fits where a slash stands: a symbol, or a comment of either kind. -/
theorem exists_slash (rest : List UInt8) :
    ∃ (t : Tile) (left : List UInt8), 47 :: rest = t.bytes ++ left ∧ t.Fits left := by
  by_cases hline : ∃ tail, rest = 47 :: tail
  · obtain ⟨tail, rfl⟩ := hline
    rcases exists_until 10 tail with ⟨line, left, rfl, hnone⟩ | hnone
    · exact ⟨lineComment (line ++ [10]), left, by simp [bytes], .inl ⟨line, rfl, hnone⟩⟩
    · exact ⟨lineComment tail, [], by simp [bytes], .inr ⟨hnone, rfl⟩⟩
  by_cases hblock : ∃ tail, rest = 42 :: tail
  · obtain ⟨tail, rfl⟩ := hblock
    rcases exists_close tail with ⟨body, left, rfl, hbody⟩ | hnone
    · exact ⟨blockComment body, left, by simp [bytes], hbody⟩
    · exact ⟨openComment tail, [], by simp [bytes], hnone, rfl⟩
  refine ⟨symbol 47, rest, rfl, by decide, fun _ c hc => ?_⟩
  obtain ⟨tail, rfl⟩ := List.head?_eq_some_iff.mp hc
  exact ⟨fun h => hline ⟨tail, h ▸ rfl⟩, fun h => hblock ⟨tail, h ▸ rfl⟩⟩

/-- Whatever a source begins with, a tile fits there. -/
theorem exists_fits (b : UInt8) (rest : List UInt8) :
    ∃ (t : Tile) (left : List UInt8), b :: rest = t.bytes ++ left ∧ t.Fits left := by
  by_cases hblank : b ∈ [32, 9, 10, 12, 13]
  · exact ⟨blank b, rest, rfl, hblank⟩
  by_cases hslash : b = 47
  · rw [hslash]
    exact exists_slash rest
  by_cases hsymbol : byteChar b ∈ symbols.toList
  · exact ⟨symbol b, rest, rfl, hsymbol, fun h => absurd h hslash⟩
  by_cases hquote : b = 34
  · rw [hquote]
    exact exists_quoted rest
  by_cases hdigit : b.isASCIIDigit
  · obtain ⟨run, left, rfl, hrun, hstop⟩ := exists_run UInt8.isASCIIDigit rest
    exact ⟨integer (b :: run), left, rfl, List.cons_ne_nil b run,
      List.forall_mem_cons.mpr ⟨hdigit, hrun⟩, hstop⟩
  by_cases hletter : b.isASCIIAlpha
  · exact exists_word hletter rest
  · refine ⟨stray b, rest, rfl, hblank, hsymbol, hquote, ?_, ?_⟩
    · simpa using hdigit
    · simpa using hletter

end Tile

/-- All bytes can be tiled. -/
theorem exists_tiling (bytes : List UInt8) : ∃ tiles, Tiling tiles bytes := by
  generalize hn : bytes.length = n
  induction n using Nat.strongRecOn generalizing bytes with
  | ind n ih =>
    cases bytes with
    | nil => exact ⟨[], .nil⟩
    | cons b rest =>
      obtain ⟨t, left, hbytes, hfits⟩ := Tile.exists_fits b rest
      have hpos := List.length_pos_of_ne_nil hfits.bytes_ne_nil
      have hlength := congrArg List.length hbytes
      rw [List.length_append, hn] at hlength
      obtain ⟨tiles, htiles⟩ := ih left.length (by omega) left rfl
      exact ⟨t :: tiles, hbytes ▸ .cons hfits htiles⟩

end JackStack
