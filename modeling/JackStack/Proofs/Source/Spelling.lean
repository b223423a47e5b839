import JackStack.Proofs.Source.Scanning
import JackStack.Proofs.Source.Tokens

/-!
# Writing tokens

A blank ends every token, so a printed token is one tile wherever a blank follows it. In particular
words and symbols are scanned from the text in which each of them stands in front of a blank.
-/

namespace JackStack

/-! ## Texts of ASCII characters -/

/-- What holds of the 128 ASCII characters holds of every one of them. -/
theorem forall_ascii {P : Char → Prop} (h : ∀ n < 128, P (Char.ofNat n)) {c : Char}
    (hc : c.toNat < 128) : P c := by
  have hn := h c.toNat hc
  rwa [Char.ofNat_toNat] at hn

/-- The bytes of a text are those of its characters. -/
theorem utf8_eq_flatMap (s : String) : utf8 s = s.toList.flatMap String.utf8EncodeChar := by
  have hbytes : s.toUTF8 = (s.toList.flatMap String.utf8EncodeChar).toByteArray := by
    rw [← List.utf8Encode, ← String.toByteArray_ofList, String.ofList_toList]
    rfl
  rw [utf8, hbytes, List.data_toByteArray]

/-- The bytes of ASCII characters are their code points. -/
theorem utf8_of_ascii {s : String} (h : ∀ c ∈ s.toList, c.toNat < 128) :
    utf8 s = s.toList.map fun c => UInt8.ofNat c.toNat := by
  have hchar : ∀ c ∈ s.toList, String.utf8EncodeChar c = [UInt8.ofNat c.toNat] := fun c hc =>
    forall_ascii (P := fun c => String.utf8EncodeChar c = [UInt8.ofNat c.toNat])
      (by decide +kernel) (h c hc)
  rw [utf8_eq_flatMap, List.flatMap_congr hchar, List.map_eq_flatMap]

/-! ## Printed tokens -/

/-- The bytes of white space. -/
def blanks : List UInt8 := [32, 9, 10, 12, 13]

/-- No token goes on here: the source ends or a blank follows. -/
def Detached (rest : List UInt8) : Prop := ∀ b ∈ rest.head?, b ∈ blanks

/-- What holds of the five blanks holds of every blank. -/
theorem forall_mem_blanks {P : UInt8 → Prop} (h : P 32 ∧ P 9 ∧ P 10 ∧ P 12 ∧ P 13) :
    ∀ b ∈ blanks, P b := by
  simpa [blanks] using h

/-- What is detached from a token stops every run that blanks stop. -/
theorem Detached.stops {test : UInt8 → Bool} (h : ∀ b ∈ blanks, test b = false)
    {rest : List UInt8} (hrest : Detached rest) : Stops test rest :=
  fun b hb => h b (hrest b hb)

/-- The bytes of a printed token: its text, which for a string stands between quotes. -/
def Token.printed : Token → List UInt8
  | .string content => [34] ++ utf8 content ++ [34]
  | t => utf8 t.text

/-- The tile is what a token is printed as, wherever no token goes on behind it. -/
structure Tile.Prints (tile : Tile) (t : Token) : Prop where
  bytes : tile.bytes = t.printed
  fits : ∀ rest, Detached rest → tile.Fits rest
  outcome : ∀ pos, tile.outcome pos = some (.lexeme ⟨t, pos⟩)

/-- The bytes are cut into tiles whose outcomes are these tokens, wherever they stand. -/
def CutsInto (bytes : List UInt8) (tokens : List Token) : Prop :=
  ∃ tiles, Tiling tiles bytes ∧ ∀ pos, ∃ lexemes : List Lexeme,
    lexemes.map (·.token) = tokens ∧ Tile.outcomes pos tiles = lexemes.map .lexeme

namespace CutsInto

variable {rest : List UInt8} {tokens : List Token}

theorem nil : CutsInto [] [] := ⟨[], .nil, fun _ => ⟨[], rfl, rfl⟩⟩

/-- A tile without an outcome is passed over. -/
theorem skip (tile : Tile) (hfits : tile.Fits rest) (hnone : ∀ pos, tile.outcome pos = none)
    (h : CutsInto rest tokens) : CutsInto (tile.bytes ++ rest) tokens := by
  obtain ⟨tiles, htiles, houtcomes⟩ := h
  refine ⟨tile :: tiles, .cons hfits htiles, fun pos => ?_⟩
  obtain ⟨lexemes, hlexemes, hrest⟩ := houtcomes (pos.after tile.bytes)
  refine ⟨lexemes, hlexemes, ?_⟩
  rw [Tile.outcomes, hnone, Option.toList_none, List.nil_append, hrest]

/-- A printed token is one tile, unless it goes on behind its end. -/
theorem token {tile : Tile} {t : Token} (htile : tile.Prints t) (hdetached : Detached rest)
    (h : CutsInto rest tokens) : CutsInto (t.printed ++ rest) (t :: tokens) := by
  obtain ⟨tiles, htiles, houtcomes⟩ := h
  refine ⟨tile :: tiles, htile.bytes ▸ .cons (htile.fits rest hdetached) htiles, fun pos => ?_⟩
  obtain ⟨lexemes, hlexemes, hrest⟩ := houtcomes (pos.after tile.bytes)
  refine ⟨⟨t, pos⟩ :: lexemes, congrArg (t :: ·) hlexemes, ?_⟩
  rw [Tile.outcomes, htile.outcome, Option.toList_some, hrest]
  rfl

/-- Bytes that are cut into tokens scan to them. -/
theorem scansTo {bytes : ByteArray} (h : CutsInto bytes.data.toList tokens) :
    ScansTo bytes tokens := by
  obtain ⟨tiles, htiles, houtcomes⟩ := h
  obtain ⟨lexemes, hlexemes, hscanned⟩ := houtcomes .start
  refine ⟨lexemes, hlexemes, ?_⟩
  rw [ScansTo.toList_eq_data, ← hscanned]
  exact htiles.outcomes_eq .start

end CutsInto

/-! ## Words and symbols -/

/-- A token that is written as it is: a word or a symbol. -/
def Token.Bare : Token → Prop
  | .keyword _ => True
  | .symbol c => c ∈ symbols.toList
  | .identifier name => IsWord (utf8 name) [] ∧ ∀ k : Keyword, k.text ≠ name
  | _ => False

/-- Tokens as a text, each in front of a blank. -/
def spell (tokens : List Token) : String := String.join (tokens.map (·.text ++ " "))

/-- The bytes of two pieces of text are those of the first and then those of the second. -/
theorem utf8_append (s t : String) : utf8 (s ++ t) = utf8 s ++ utf8 t := by
  have happend : (s ++ t).toUTF8 = s.toUTF8 ++ t.toUTF8 := String.toByteArray_append
  rw [utf8, happend, ByteArray.data_append, Array.toList_append]
  rfl

/-- The spelling of tokens: the first one, a blank, and the others. -/
theorem utf8_spell_cons (t : Token) (tokens : List Token) :
    utf8 (spell (t :: tokens)) = utf8 t.text ++ ([32] ++ utf8 (spell tokens)) := by
  rw [spell, List.map_cons, String.join_cons, utf8_append, utf8_append, List.append_assoc]
  rfl

/-- A token without quotes is printed as its text. -/
theorem Token.Bare.printed_eq {t : Token} (h : t.Bare) : t.printed = utf8 t.text := by
  cases t with
  | string content => exact h.elim
  | _ => rfl

/-- Every token without quotes is printed by a tile; behind a slash a blank makes no comment of it.
-/
theorem Token.Bare.exists_prints {t : Token} (h : t.Bare) : ∃ tile : Tile, tile.Prints t := by
  have hblank : ∀ b ∈ blanks, inWord b = false ∧ b ≠ 47 ∧ b ≠ 42 :=
    forall_mem_blanks (by decide)
  have hstops : ∀ {rest}, Detached rest → Stops inWord rest := fun hrest =>
    hrest.stops fun b hb => (hblank b hb).1
  cases t with
  | keyword word =>
    have hword : ∃ b tail, utf8 word.text = b :: tail ∧ b.isASCIIAlpha ∧ ∀ c ∈ tail, inWord c := by
      cases word <;> exact ⟨_, _, rfl, by decide, List.all_eq_true.mp (by decide)⟩
    exact ⟨.keyword word, rfl, fun rest hrest => ⟨hword, hstops hrest⟩, fun _ => rfl⟩
  | symbol c =>
    have hbyte : (symbols.toList.all fun c => [UInt8.ofNat c.toNat] = utf8 (String.singleton c) ∧
        byteChar (UInt8.ofNat c.toNat) = c) = true := by decide +kernel
    obtain ⟨hbytes, hchar⟩ := of_decide_eq_true (List.all_eq_true.mp hbyte c h)
    refine ⟨.symbol (UInt8.ofNat c.toNat), hbytes, fun rest hrest => ⟨by rwa [hchar], ?_⟩, ?_⟩
    · exact fun _ b hb => (hblank b (hrest b hb)).2
    · intro pos
      rw [Tile.outcome, hchar]
  | identifier name =>
    exact ⟨.identifier name, rfl, fun rest hrest => ⟨⟨h.1.1, hstops hrest⟩, h.2⟩, fun _ => rfl⟩
  | integer value => exact h.elim
  | string content => exact h.elim

/-- Words and symbols are cut apart by the blanks between them. -/
theorem cutsInto_spell {tokens : List Token} (h : ∀ t ∈ tokens, t.Bare) :
    CutsInto (utf8 (spell tokens)) tokens := by
  induction tokens with
  | nil => exact .nil
  | cons t tokens ih =>
    obtain ⟨ht, htokens⟩ := List.forall_mem_cons.mp h
    obtain ⟨tile, htile⟩ := ht.exists_prints
    have hrest : CutsInto ([32] ++ utf8 (spell tokens)) tokens :=
      .skip (.blank 32) List.mem_cons_self (fun _ => rfl) (ih htokens)
    have hdetached : Detached ([32] ++ utf8 (spell tokens)) := by
      rintro b ⟨⟩
      exact List.mem_cons_self
    rw [utf8_spell_cons, ← ht.printed_eq]
    exact .token htile hdetached hrest

/-- Words and symbols are scanned from what they are written as. -/
theorem scansTo_spell {tokens : List Token} (h : ∀ t ∈ tokens, t.Bare) :
    ScansTo (spell tokens).toUTF8 tokens :=
  (cutsInto_spell h).scansTo

end JackStack
