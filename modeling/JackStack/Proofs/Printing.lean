import JackStack.Proofs.Files.ByteOrder

/-!
# Scanning what is printed

Tokens are printed with separators between them: a blank, and behind it blanks and comments in any
number and order. A blank ends every token, so a printed token is one tile wherever it stands, and
a separator is a row of tiles without outcomes. Scanning therefore gives back the printed tokens.
-/

namespace JackStack

/-! ## Separators -/

/-- A piece of what stands between tokens. -/
inductive Filler where
  | blank (b : UInt8) (isBlank : b ∈ blanks)
  /-- The text stands between the two slashes and the line feed. -/
  | line (text : List UInt8) (isLine : 10 ∉ text)
  /-- The body stands between the two marks, the second of which is the first closing one. -/
  | block (body : List UInt8) (isOpen : ¬[42, 47] <:+: body ++ [42])

/-- The bytes of a piece. -/
def Filler.bytes : Filler → List UInt8
  | blank b _ => [b]
  | line text _ => [47, 47] ++ text ++ [10]
  | block body _ => [47, 42] ++ body ++ [42, 47]

/-- A blank and what follows it up to the next token. -/
structure Separator where
  /-- The blank. -/
  first : UInt8
  isBlank : first ∈ blanks
  /-- What follows it. -/
  more : List Filler

/-- The bytes of a separator. -/
def Separator.bytes (s : Separator) : List UInt8 := s.first :: s.more.flatMap Filler.bytes

/-- What may stand behind the last token. -/
inductive Trailer where
  | nothing
  | separator (s : Separator)
  /-- A separator whose last line comment is not ended. -/
  | unended (s : Separator) (text : List UInt8) (isLine : 10 ∉ text)

/-- The bytes of a trailer. -/
def Trailer.bytes : Trailer → List UInt8
  | nothing => []
  | separator s => s.bytes
  | unended s text _ => s.bytes ++ [47, 47] ++ text

/-! ## Printing -/

/-- Printed tokens, the `n`-th one followed by the `n`-th gap up to the last one. -/
def printTokens (gap : Nat → Separator) : List Token → List UInt8
  | [] => []
  | [t] => t.printed
  | t :: u :: rest =>
    t.printed ++ (gap 0).bytes ++ printTokens (fun n => gap (n + 1)) (u :: rest)

/-- A letter, a digit or an underscore. -/
def IsWordChar (c : Char) : Prop := c.isAlphanum ∨ c = '_'

instance (c : Char) : Decidable (IsWordChar c) := inferInstanceAs (Decidable (_ ∨ _))

/-- The tokens that can be scanned. -/
def Token.Scannable : Token → Prop
  | .keyword _ => True
  | .symbol c => c ∈ symbols.toList
  | .identifier name =>
    (∃ c tail, name.toList = c :: tail ∧ c.isAlpha ∧ ∀ d ∈ tail, IsWordChar d) ∧
      ∀ k : Keyword, k.text ≠ name
  | .integer _ => True
  | .string content => '"' ∉ content.toList

/-! ## Printed tokens are tiles -/

/-- Every class of word characters ends with an ASCII one. -/
theorem IsWordChar.toNat_lt {c : Char} (h : IsWordChar c) : c.toNat < 128 := by
  have hbound : ∀ {d : Char}, d.toNat < 128 → c.val ≤ d.val → c.toNat < 128 := by
    intro d hd hle
    exact Nat.lt_of_le_of_lt (UInt32.le_iff_toNat_le.mp hle) hd
  rcases h with h | rfl
  · rcases (Bool.or_eq_true_iff.mp h : c.isAlpha = true ∨ c.isDigit = true) with h | h
    · rcases (Bool.or_eq_true_iff.mp h : c.isUpper = true ∨ c.isLower = true) with h | h
      · exact hbound (d := 'Z') (by decide) (of_decide_eq_true h).2
      · exact hbound (d := 'z') (by decide) (of_decide_eq_true (Bool.and_eq_true_iff.mp h).2)
    · exact hbound (d := '9') (by decide) (of_decide_eq_true (Bool.and_eq_true_iff.mp h).2)
  · decide

theorem IsWordChar.inWord {c : Char} (h : IsWordChar c) : inWord (UInt8.ofNat c.toNat) :=
  forall_ascii (P := fun c => IsWordChar c → JackStack.inWord (UInt8.ofNat c.toNat))
    (by decide +kernel) h.toNat_lt h

/-- The bytes of a name are those of a word. -/
theorem exists_word_of_isAlpha {name : String} {c : Char} {tail : List Char}
    (hname : name.toList = c :: tail) (hc : c.isAlpha) (htail : ∀ d ∈ tail, IsWordChar d) :
    ∃ b rest, utf8 name = b :: rest ∧ b.isASCIIAlpha ∧ ∀ d ∈ rest, inWord d := by
  have hfirst : IsWordChar c := Or.inl (by rw [Char.isAlphanum, hc, Bool.true_or])
  have hletter : (UInt8.ofNat c.toNat).isASCIIAlpha :=
    forall_ascii (P := fun c => c.isAlpha → (UInt8.ofNat c.toNat).isASCIIAlpha)
      (by decide +kernel) hfirst.toNat_lt hc
  have hall : ∀ d ∈ name.toList, d.toNat < 128 := by
    intro d hd
    rw [hname] at hd
    rcases List.mem_cons.mp hd with rfl | hd
    · exact hfirst.toNat_lt
    · exact (htail d hd).toNat_lt
  rw [utf8_of_ascii hall, hname, List.map_cons]
  refine ⟨_, _, rfl, hletter, ?_⟩
  intro b hb
  obtain ⟨d, hd, rfl⟩ := List.mem_map.mp hb
  exact (htail d hd).inWord

/-- Beyond ASCII every byte of a code point has its highest bit set. -/
theorem le_of_mem_scalarBytes {v b : Nat} (hv : 128 ≤ v) (hb : b ∈ scalarBytes v) : 128 ≤ b := by
  unfold scalarBytes at hb
  split at hb
  · omega
  split at hb
  · simp only [List.mem_cons, List.not_mem_nil, or_false] at hb
    omega
  split at hb
  · simp only [List.mem_cons, List.not_mem_nil, or_false] at hb
    omega
  · simp only [List.mem_cons, List.not_mem_nil, or_false] at hb
    omega

/-- Only a quote is written with the byte of the quote. -/
theorem quote_not_mem_utf8 {s : String} (h : '"' ∉ s.toList) : 34 ∉ utf8 s := by
  rw [utf8_eq_flatMap, List.mem_flatMap]
  rintro ⟨c, hc, hbyte⟩
  by_cases hascii : c.toNat < 128
  · have hquote : c = '"' := forall_ascii (P := fun c => 34 ∈ String.utf8EncodeChar c → c = '"')
      (by decide +kernel) hascii hbyte
    exact h (hquote ▸ hc)
  · rw [utf8EncodeChar_eq, List.mem_map] at hbyte
    obtain ⟨b, hb, heq⟩ := hbyte
    have hlt := scalarBytes_lt c.toNat b hb
    have hle := le_of_mem_scalarBytes (Nat.not_lt.mp hascii) hb
    have hnat := congrArg UInt8.toNat heq
    rw [UInt8.toNat_ofNat_of_lt' hlt] at hnat
    have hbyte : (34 : UInt8).toNat = 34 := rfl
    omega

/-- The digits of a number are ASCII bytes. -/
theorem utf8_toString (n : Nat) :
    utf8 (toString n) = (Nat.toDigits 10 n).map fun c => UInt8.ofNat c.toNat := by
  have hdigits : (toString n).toList = Nat.toDigits 10 n := Nat.toList_repr
  rw [utf8_of_ascii, hdigits]
  intro c hc
  rw [hdigits] at hc
  have hdigit := Nat.isDigit_of_mem_toDigits (by omega) (Nat.le_refl 10) hc
  exact IsWordChar.toNat_lt (Or.inl (by rw [Char.isAlphanum, hdigit, Bool.or_true]))

/-- A digit is a byte of the same value. -/
theorem isASCIIDigit_of_isDigit {c : Char} (h : c.isDigit) :
    (UInt8.ofNat c.toNat).isASCIIDigit ∧ (UInt8.ofNat c.toNat).toNat = c.toNat := by
  have hascii := IsWordChar.toNat_lt (Or.inl (by rw [Char.isAlphanum, h, Bool.or_true]))
  exact forall_ascii (P := fun c => c.isDigit → (UInt8.ofNat c.toNat).isASCIIDigit ∧
    (UInt8.ofNat c.toNat).toNat = c.toNat) (by decide +kernel) hascii h

/-- Digits as bytes write the number that they write as characters. -/
theorem decimal_map_digits {digits : List Char} (h : ∀ c ∈ digits, c.isDigit) :
    Tile.decimal (digits.map fun c => UInt8.ofNat c.toNat) = Nat.ofDigitChars 10 digits 0 := by
  induction digits using List.reverseRecOn with
  | nil => rfl
  | append_singleton digits c ih =>
    have hc := isASCIIDigit_of_isDigit (h c (by simp))
    have hdigits := ih fun d hd => h d (List.mem_append_left _ hd)
    rw [List.map_append, List.map_singleton, Tile.decimal_append_singleton, hdigits, hc.2,
      Nat.ofDigitChars_append, Nat.ofDigitChars_cons, Nat.ofDigitChars_nil, Nat.mul_comm]
    rfl

/-- The digits of a number write it. -/
theorem decimal_toString (n : Nat) : Tile.decimal (utf8 (toString n)) = n := by
  rw [utf8_toString, decimal_map_digits, Nat.ofDigitChars_ten_toDigits]
  intro c hc
  exact Nat.isDigit_of_mem_toDigits (by omega) (Nat.le_refl 10) hc

/-- An integer of 32 bits prints itself: a value of this width is below the cap, so it is not cut
off. -/
theorem integer_prints (value : UInt32) :
    (Tile.integer (utf8 (toString value.toNat))).Prints (.integer value) := by
  constructor
  case bytes => rfl
  case fits =>
    intro rest hrest
    refine ⟨?_, ?_, hrest.stops (forall_mem_blanks (by decide))⟩
    · rw [utf8_toString]
      simp
    · rw [utf8_toString]
      intro b hb
      obtain ⟨c, hc, rfl⟩ := List.mem_map.mp hb
      have hdigit := Nat.isDigit_of_mem_toDigits (by omega) (Nat.le_refl 10) hc
      exact (isASCIIDigit_of_isDigit hdigit).1
  case outcome =>
    intro pos
    have hle : value.toNat ≤ integerCap := Nat.le_of_lt_succ value.toNat_lt
    rw [Tile.outcome, decimal_toString, Nat.min_eq_left hle, UInt32.ofNat_toNat]

/-- Every scannable token is printed by a tile. -/
theorem Token.Scannable.exists_prints {t : Token} (h : t.Scannable) :
    ∃ tile : Tile, tile.Prints t := by
  cases t with
  | keyword word => exact Bare.exists_prints h
  | symbol c => exact Bare.exists_prints h
  | identifier name =>
    obtain ⟨⟨c, tail, hname, hc, htail⟩, hkeyword⟩ := h
    have hword : IsWord (utf8 name) [] := ⟨exists_word_of_isAlpha hname hc htail, nofun⟩
    exact Bare.exists_prints ⟨hword, hkeyword⟩
  | integer value => exact ⟨_, integer_prints value⟩
  | string content =>
    exact ⟨.text content, rfl, fun _ _ => quote_not_mem_utf8 h, fun _ => rfl⟩

/-! ## What is printed is cut into what was printed -/

namespace CutsInto

variable {rest : List UInt8} {tokens : List Token}

/-- A filler in front is cut off. -/
theorem filler (f : Filler) (h : CutsInto rest tokens) : CutsInto (f.bytes ++ rest) tokens := by
  cases f with
  | blank b hb => exact skip (.blank b) hb (fun _ => rfl) h
  | line text htext =>
    exact skip (.lineComment (text ++ [10])) (Or.inl ⟨text, rfl, htext⟩) (fun _ => rfl) h
  | block body hbody => exact skip (.blockComment body) hbody (fun _ => rfl) h

/-- Fillers in front are cut off one by one. -/
theorem fillers (fs : List Filler) (h : CutsInto rest tokens) :
    CutsInto (fs.flatMap Filler.bytes ++ rest) tokens := by
  induction fs with
  | nil => exact h
  | cons f fs ih =>
    rw [List.flatMap_cons, List.append_assoc]
    exact filler f ih

/-- A separator in front is cut off. -/
theorem separator (s : Separator) (h : CutsInto rest tokens) :
    CutsInto (s.bytes ++ rest) tokens :=
  skip (.blank s.first) s.isBlank (fun _ => rfl) (fillers s.more h)

/-- A trailer is cut into nothing. -/
theorem trailer (e : Trailer) : CutsInto e.bytes [] := by
  cases e with
  | nothing => exact nil
  | separator s => simpa [Trailer.bytes] using separator s nil
  | unended s text htext =>
    have hline : CutsInto ((Tile.lineComment text).bytes ++ []) [] :=
      skip (.lineComment text) (Or.inr ⟨htext, rfl⟩) (fun _ => rfl) nil
    rw [List.append_nil] at hline
    rw [Trailer.bytes, List.append_assoc]
    exact separator s hline

end CutsInto

/-- What begins with a separator is detached from the token in front of it. -/
theorem Separator.detached (s : Separator) (rest : List UInt8) : Detached (s.bytes ++ rest) := by
  rintro b ⟨⟩
  exact s.isBlank

/-- A trailer is detached from the token in front of it. -/
theorem Trailer.detached (e : Trailer) : Detached e.bytes := by
  cases e with
  | nothing => exact nofun
  | separator s => simpa [bytes] using s.detached []
  | unended s text _ =>
    rw [bytes, List.append_assoc]
    exact s.detached _

/-- By induction on the tokens: behind each of them stands a gap or what follows the last one. -/
theorem cutsInto_printTokens {tokens : List Token} (h : ∀ t ∈ tokens, t.Scannable)
    (gap : Nat → Separator) {rest : List UInt8} (hdetached : Detached rest)
    (hrest : CutsInto rest []) : CutsInto (printTokens gap tokens ++ rest) tokens := by
  induction tokens generalizing gap with
  | nil => exact hrest
  | cons t tokens ih =>
    obtain ⟨ht, htokens⟩ := List.forall_mem_cons.mp h
    obtain ⟨tile, htile⟩ := ht.exists_prints
    cases tokens with
    | nil => exact .token htile hdetached hrest
    | cons u tokens =>
      rw [printTokens, List.append_assoc, List.append_assoc]
      exact .token htile ((gap 0).detached _) (.separator (gap 0) (ih htokens fun n => gap (n + 1)))

/-- The text of printed tokens with fillers before them and a trailer behind them. -/
def printed (lead : List Filler) (gap : Nat → Separator) (tokens : List Token) (trailer : Trailer) :
    ByteArray :=
  (lead.flatMap Filler.bytes ++ printTokens gap tokens ++ trailer.bytes).toByteArray

/-- Scanning what tokens are printed as gives the tokens, whatever blanks and comments stand
between them, before them and behind them, and then the end of the input. -/
theorem scansTo_printed {tokens : List Token} (h : ∀ t ∈ tokens, t.Scannable)
    (lead : List Filler) (gap : Nat → Separator) (trailer : Trailer) :
    ScansTo (printed lead gap tokens trailer) tokens := by
  apply CutsInto.scansTo
  rw [printed, List.data_toByteArray, List.append_assoc]
  exact .fillers lead (cutsInto_printTokens h gap trailer.detached (.trailer trailer))

/-- Comment marks inside a string are no comment, a quote inside a comment opens no string, and a
slash in front of a blank opens no comment. -/
theorem scansTo_printed_markers :
    ScansTo (printed [.block (utf8 " \" ") (by decide)]
      (fun _ => ⟨9, by decide, [.line (utf8 "/* \"") (by decide), .block (utf8 "**") (by decide)]⟩)
      [.keyword .letKw, .identifier "x_1", .symbol '/', .integer 4294967295,
        .string "é // /* ", .symbol '/'] (.unended ⟨10, by decide, []⟩ (utf8 "*/") (by decide)))
      [.keyword .letKw, .identifier "x_1", .symbol '/', .integer 4294967295,
        .string "é // /* ", .symbol '/'] := by
  apply scansTo_printed
  have hword : ∀ d ∈ ['_', '1'], IsWordChar d := by
    simp only [List.forall_mem_cons]
    exact ⟨by decide, by decide, nofun⟩
  have hname : (Token.identifier "x_1").Scannable :=
    ⟨⟨'x', ['_', '1'], rfl, rfl, hword⟩, by intro k; cases k <;> decide⟩
  have hslash : '/' ∈ symbols.toList := by decide
  have hquote : '"' ∉ "é // /* ".toList := by decide
  simp only [List.forall_mem_cons]
  exact ⟨trivial, hname, hslash, trivial, hquote, hslash, nofun⟩

end JackStack
