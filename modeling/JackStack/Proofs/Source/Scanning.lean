import JackStack.Proofs.Source.Tiling

/-!
# Scanning follows the tiling

At the front of a source stands a tile, and scanning takes exactly that tile: a blank or a comment
is skipped, any other tile is the next outcome, and what is left unread is what follows the tile. So
the outcomes of a source are those of its only tiling.
-/

namespace JackStack

/-! ## Bytes, words and numbers -/

/-- The blanks that scanning skips are those of the tiles. -/
theorem isBlank_iff (b : UInt8) : isBlank b = true ↔ b ∈ [32, 9, 10, 12, 13] := by
  simp [isBlank, or_assoc]

/-- The bytes that scan as symbols are those of the tiles. -/
theorem isSymbolByte_iff (b : UInt8) : isSymbolByte b = true ↔ byteChar b ∈ symbols.toList := by
  rw [isSymbolByte, List.contains_iff_mem]

/-- The digits of scanning are the ASCII digits. -/
theorem isDigit_eq : isDigit = UInt8.isASCIIDigit :=
  funext (forall_byte (by decide +kernel))

/-- The letters of scanning are the ASCII letters. -/
theorem isLetter_eq : isLetter = UInt8.isASCIIAlpha :=
  funext (forall_byte (by decide +kernel))

/-- The bytes inside words are the same for scanning and for tiles. -/
theorem isWordByte_eq : isWordByte = inWord :=
  funext (forall_byte (by decide +kernel))

/-- No reserved word is written like this exactly when looking for one finds none. -/
theorem ofText?_eq_none_iff (name : String) :
    Keyword.ofText? name = none ↔ ∀ k : Keyword, k.text ≠ name := by
  rw [Keyword.ofText?, List.find?_eq_none]
  constructor
  · intro h k
    have hk := h k k.mem_all
    rwa [beq_iff_eq] at hk
  · intro h k _
    rw [beq_iff_eq]
    exact h k

/-- A word is read as a reserved word, or as an identifier where there is none like it. -/
theorem wordToken_utf8 {name : String} {rest : List UInt8} (h : IsWord (utf8 name) rest) :
    wordToken (utf8 name) =
      ((Keyword.ofText? name).map Token.keyword).getD (.identifier name) := by
  have hname : String.ofList ((utf8 name).map byteChar) = name :=
    utf8_injective (utf8_ofList_byteChar h.inWord)
  simp only [wordToken, hname]
  cases Keyword.ofText? name <;> rfl

/-- Bytes are those of a text exactly when they decode to it. -/
theorem fromUTF8?_eq_some_iff (content : List UInt8) (s : String) :
    String.fromUTF8? content.toByteArray = some s ↔ utf8 s = content := by
  have hdata : content.toByteArray.data.toList = content := by rw [List.data_toByteArray]
  unfold String.fromUTF8?
  split
  · next hvalid =>
    rw [Option.some.injEq]
    constructor
    · rintro rfl
      exact hdata
    · intro h
      exact utf8_injective (hdata.trans h.symm)
  · next hinvalid =>
    refine ⟨nofun, fun h => absurd ?_ hinvalid⟩
    have hs : content.toByteArray = s.toByteArray :=
      ByteArray.ext (Array.toList_inj.mp (hdata.trans h.symm))
    rw [hs]
    exact s.isValidUTF8

/-- A further digit adds its value to ten times the number before it. -/
theorem Tile.decimal_append_singleton (digits : List UInt8) (d : UInt8) :
    decimal (digits ++ [d]) = decimal digits * 10 + (d.toNat - 48) := by
  rw [decimal, List.reverse_append, List.reverse_singleton, List.singleton_append, List.map_cons,
    Nat.ofDigits_cons, decimal, Nat.add_comm, Nat.mul_comm]

/-- A capped number is the smaller one of itself and the cap. -/
theorem toNat_capped (n : Nat) : (capped n).toNat = min n integerCap := by
  have hlt : min n integerCap < UInt32.size :=
    Nat.lt_of_le_of_lt (Nat.min_le_right _ _) (by decide)
  rw [capped, UInt32.toNat_ofNat_of_lt' hlt]

/-- Capping the product and the sum is capping the number with the digit. -/
theorem toNat_appendDigit (n : UInt32) (d : UInt8) :
    (appendDigit n d).toNat = min (n.toNat * 10 + (d.toNat - 48)) integerCap := by
  simp only [appendDigit, toNat_capped]
  omega

/-- The value of digits is their number, or the cap: a number that was capped stays capped,
whatever digits follow. -/
theorem toNat_digitsValue (digits : List UInt8) :
    (digitsValue digits).toNat = min (Tile.decimal digits) integerCap := by
  induction digits using List.reverseRecOn with
  | nil => rfl
  | append_singleton digits d ih =>
    have hvalue : digitsValue (digits ++ [d]) = appendDigit (digitsValue digits) d := by
      rw [digitsValue, List.foldl_append]
      rfl
    rw [hvalue, toNat_appendDigit, ih, Tile.decimal_append_singleton]
    omega

/-- The value of digits is their number, capped. -/
theorem digitsValue_eq (digits : List UInt8) :
    digitsValue digits = capped (Tile.decimal digits) := by
  rw [← UInt32.toNat_inj, toNat_digitsValue, toNat_capped]

/-! ## What scanning does with a tile -/

namespace Unread

theorem ofBytes_cons (b : UInt8) (bytes : List UInt8) :
    Reading.ofBytes (b :: bytes) = .byte b :: Reading.ofBytes bytes := rfl

/-- A run of bytes that pass a test does not go on here, and reading does not fail here. -/
def CutOff (test : UInt8 → Bool) (rest : List Reading) : Prop :=
  ∀ r ∈ rest.head?, ∃ b, r = .byte b ∧ test b = false

/-- Bytes that stop a run cut it off. -/
theorem cutOff_ofBytes {test : UInt8 → Bool} {rest : List UInt8} (h : Stops test rest) :
    CutOff test (Reading.ofBytes rest) := by
  intro r hr
  rw [Reading.ofBytes, List.head?_map, Option.mem_def, Option.map_eq_some_iff] at hr
  obtain ⟨b, hb, rfl⟩ := hr
  exact ⟨b, rfl, h b hb⟩

/-- Taking bytes stops behind a run that is cut off, whatever the readings are behind it. -/
theorem takeWhile_cutOff {test : UInt8 → Bool} {run : List UInt8} {rest : List Reading}
    (hrun : ∀ b ∈ run, test b) (hstop : CutOff test rest) (taken : List UInt8) (pos : Position) :
    takeWhile test taken pos (Reading.ofBytes run ++ rest) =
      (.ok (taken.reverse ++ run), ⟨pos.after run, rest⟩) := by
  induction run generalizing taken pos with
  | nil =>
    cases rest with
    | nil => simp [takeWhile, Reading.ofBytes]
    | cons r rest =>
      obtain ⟨b, rfl, hb⟩ := hstop r rfl
      simp [takeWhile, Reading.ofBytes, hb]
  | cons b run ih =>
    obtain ⟨hb, hrun⟩ := List.forall_mem_cons.mp hrun
    rw [ofBytes_cons, List.cons_append, takeWhile, if_pos hb, ih hrun]
    simp

/-- A run of bytes that pass the test is taken as far as it goes. -/
theorem takeWhile_run {test : UInt8 → Bool} {run rest : List UInt8} (hrun : ∀ b ∈ run, test b)
    (hstop : Stops test rest) (taken : List UInt8) (pos : Position) :
    takeWhile test taken pos (Reading.ofBytes (run ++ rest)) =
      (.ok (taken.reverse ++ run), ⟨pos.after run, Reading.ofBytes rest⟩) := by
  have happend : Reading.ofBytes (run ++ rest) = Reading.ofBytes run ++ Reading.ofBytes rest :=
    List.map_append
  rw [happend, takeWhile_cutOff hrun (cutOff_ofBytes hstop)]

/-- The content of a string is taken up to its closing quote. -/
theorem takeQuoted_closed {content : List UInt8} (h : 34 ∉ content) (rest : List UInt8)
    (start : Position) (taken : List UInt8) (pos : Position) :
    takeQuoted start taken pos (Reading.ofBytes (content ++ 34 :: rest)) =
      (.ok (taken.reverse ++ content), ⟨pos.after (content ++ [34]), Reading.ofBytes rest⟩) := by
  induction content generalizing taken pos with
  | nil => simp [takeQuoted, ofBytes_cons]
  | cons b content ih =>
    have hb := List.ne_of_not_mem_cons h
    have hcontent := List.not_mem_of_not_mem_cons h
    rw [List.cons_append, ofBytes_cons, takeQuoted, if_neg (Ne.symm hb), ih hcontent]
    simp

/-- Without a closing quote the string is not terminated, and everything was taken. -/
theorem takeQuoted_open {content : List UInt8} (h : 34 ∉ content) (start : Position)
    (taken : List UInt8) (pos : Position) :
    takeQuoted start taken pos (Reading.ofBytes content) =
      (.error (.unterminatedString start), ⟨pos.after content, []⟩) := by
  induction content generalizing taken pos with
  | nil => rfl
  | cons b content ih =>
    have hb := List.ne_of_not_mem_cons h
    have hcontent := List.not_mem_of_not_mem_cons h
    rw [ofBytes_cons, takeQuoted, if_neg (Ne.symm hb), ih hcontent, Position.after_cons]

/-- A line comment is skipped with its line break. -/
theorem nextFrom_line_closed {line : List UInt8} (h : 10 ∉ line) (rest : List UInt8)
    (pos : Position) : nextFrom .line pos (Reading.ofBytes (line ++ 10 :: rest)) =
      nextFrom .blank (pos.after (line ++ [10])) (Reading.ofBytes rest) := by
  induction line generalizing pos with
  | nil => rfl
  | cons b line ih =>
    have hb := List.ne_of_not_mem_cons h
    have hline := List.not_mem_of_not_mem_cons h
    rw [List.cons_append, ofBytes_cons, nextFrom, if_neg (Ne.symm hb), ih hline]
    rfl

/-- A line comment at the end is skipped, and nothing follows. -/
theorem nextFrom_line_open {line : List UInt8} (h : 10 ∉ line) (pos : Position) :
    nextFrom .line pos (Reading.ofBytes line) = (none, ⟨pos.after line, []⟩) := by
  induction line generalizing pos with
  | nil => rfl
  | cons b line ih =>
    have hb := List.ne_of_not_mem_cons h
    have hline := List.not_mem_of_not_mem_cons h
    rw [ofBytes_cons, nextFrom, if_neg (Ne.symm hb), ih hline]
    rfl

/-- The star that stands before, if there is one. -/
def starBefore (star : Bool) : List UInt8 := if star then [42] else []

/-- A byte inside a comment does not close it, and leaves behind whether it is a star. -/
theorem nextFrom_block_byte {b : UInt8} {star : Bool} {tail : List UInt8}
    (h : ¬[42, 47] <:+: starBefore star ++ b :: tail) (start pos : Position) (rs : List Reading) :
    nextFrom (.block start star) pos (.byte b :: rs) =
        nextFrom (.block start (b = 42)) (pos.step b) rs ∧
      ¬[42, 47] <:+: starBefore (b = 42) ++ tail := by
  have hopen : (b = 47 && star) = false := by
    rw [Bool.and_eq_false_iff, decide_eq_false_iff_not, or_iff_not_imp_right]
    rintro hstar rfl
    rw [Bool.not_eq_false] at hstar
    subst hstar
    exact h ⟨[], tail, rfl⟩
  refine ⟨by rw [nextFrom, if_neg (by rw [hopen]; exact Bool.false_ne_true)], fun hin => h ?_⟩
  by_cases hb : b = 42
  · subst hb
    exact hin.trans (List.suffix_append (starBefore star) (42 :: tail)).isInfix
  · rw [starBefore, decide_eq_false hb] at hin
    exact hin.trans ((List.suffix_cons b tail).trans
      (List.suffix_append (starBefore star) (b :: tail))).isInfix

/-- A comment is skipped up to the first closing mark. -/
theorem nextFrom_block_closed {body : List UInt8} (star : Bool)
    (h : ¬[42, 47] <:+: starBefore star ++ (body ++ [42])) (rest : List UInt8)
    (start pos : Position) :
    nextFrom (.block start star) pos (Reading.ofBytes (body ++ 42 :: 47 :: rest)) =
      nextFrom .blank (pos.after (body ++ [42, 47])) (Reading.ofBytes rest) := by
  induction body generalizing star pos with
  | nil =>
    rw [List.nil_append, ofBytes_cons, (nextFrom_block_byte h start pos _).1]
    rfl
  | cons b body ih =>
    have hstep := nextFrom_block_byte h start pos (Reading.ofBytes (body ++ 42 :: 47 :: rest))
    rw [List.cons_append, ofBytes_cons, hstep.1, ih _ hstep.2]
    rfl

/-- A block comment without its closing mark is not terminated. -/
theorem nextFrom_block_open {body : List UInt8} (star : Bool)
    (h : ¬[42, 47] <:+: starBefore star ++ body) (start pos : Position) :
    nextFrom (.block start star) pos (Reading.ofBytes body) =
      (some (.failure (.unterminatedComment start)), ⟨pos.after body, []⟩) := by
  induction body generalizing star pos with
  | nil => rfl
  | cons b body ih =>
    have hstep := nextFrom_block_byte h start pos (Reading.ofBytes body)
    rw [ofBytes_cons, hstep.1, ih _ hstep.2]
    rfl

end Unread

/-! ## Scanning follows the tiling -/

namespace Unread

/-- What scanning does in front of bytes that it has no outcome for, or the outcome it has. -/
def proceed (pos : Position) (rest : List UInt8) : Option Outcome → Option Outcome × Unread
  | none => nextFrom .blank pos (Reading.ofBytes rest)
  | some o => (some o, ⟨pos, Reading.ofBytes rest⟩)

/-- Behind a byte that is neither blank nor a slash a token is taken. -/
theorem nextFrom_token {b : UInt8} (hblank : b ∉ [32, 9, 10, 12, 13]) (hslash : b ≠ 47)
    (pos : Position) (rs : List Reading) : nextFrom .blank pos (.byte b :: rs) =
      (some (.ofToken pos (token pos b (pos.step b) rs).1), (token pos b (pos.step b) rs).2) := by
  rw [← isBlank_iff] at hblank
  rw [nextFrom, if_neg hblank, if_neg hslash]

/-- Behind a quote the content of a string is scanned. -/
theorem token_quote (start pos : Position) (rs : List Reading) :
    token start 34 pos rs = ((takeQuoted start [] pos rs).1.bind (stringToken start),
      (takeQuoted start [] pos rs).2) := by
  have hsymbol : ¬isSymbolByte 34 = true := by decide
  rw [token, if_neg hsymbol, if_pos rfl]

/-- A string stands where its opening quote does. -/
theorem next_quoted (pos : Position) (rs : List Reading) :
    nextFrom .blank pos (.byte 34 :: rs) =
      (some (.ofToken pos ((takeQuoted pos [] (pos.step 34) rs).1.bind (stringToken pos))),
        (takeQuoted pos [] (pos.step 34) rs).2) := by
  rw [nextFrom_token (by decide) (by decide), token_quote]

end Unread

namespace Tile

/-- The outcome of a quoted piece whose quote is closed. -/
theorem next_closed {content : List UInt8} (h : 34 ∉ content) (rest : List UInt8)
    (pos : Position) :
    Unread.nextFrom .blank pos (Reading.ofBytes (34 :: (content ++ [34]) ++ rest)) =
      (some (.ofToken pos (Unread.stringToken pos content)),
        ⟨pos.after (34 :: (content ++ [34])), Reading.ofBytes rest⟩) := by
  rw [List.cons_append, List.append_assoc, Unread.ofBytes_cons, Unread.next_quoted]
  rw [List.singleton_append, Unread.takeQuoted_closed h]
  rfl

/-- Scanning a word gives its token. -/
theorem next_word {word rest : List UInt8} (h : IsWord word rest) (pos : Position) :
    Unread.nextFrom .blank pos (Reading.ofBytes (word ++ rest)) =
      (some (.lexeme ⟨wordToken word, pos⟩), ⟨pos.after word, Reading.ofBytes rest⟩) := by
  have hother : ∀ b : UInt8, b.isASCIIAlpha → b ∉ [32, 9, 10, 12, 13] ∧ b ≠ 47 ∧
      isSymbolByte b = false ∧ b ≠ 34 ∧ isDigit b = false ∧ isLetter b = true :=
    forall_byte (by decide +kernel)
  obtain ⟨⟨b, tail, rfl, hb, htail⟩, hstop⟩ := h
  obtain ⟨hblank, hslash, hsymbol, hquote, hdigit, hletter⟩ := hother b hb
  rw [List.cons_append, Unread.ofBytes_cons, Unread.nextFrom_token hblank hslash]
  simp [Unread.token, hsymbol, hquote, hdigit, hletter, isWordByte_eq,
    Unread.takeWhile_run htail hstop, Except.map, Outcome.ofToken]

/-- Scanning a run of digits that is cut off gives its value, whatever the readings are behind
it. -/
theorem next_digits {digits : List UInt8} {rest : List Reading} (hne : digits ≠ [])
    (hdigits : ∀ d ∈ digits, d.isASCIIDigit) (hstop : Unread.CutOff UInt8.isASCIIDigit rest)
    (pos : Position) :
    Unread.nextFrom .blank pos (Reading.ofBytes digits ++ rest) =
      (some (.lexeme ⟨.integer (digitsValue digits), pos⟩), ⟨pos.after digits, rest⟩) := by
  have hother : ∀ b : UInt8, b.isASCIIDigit → b ∉ [32, 9, 10, 12, 13] ∧ b ≠ 47 ∧
      isSymbolByte b = false ∧ b ≠ 34 := forall_byte (by decide +kernel)
  obtain ⟨d, tail, rfl⟩ := List.exists_cons_of_ne_nil hne
  obtain ⟨hd, htail⟩ := List.forall_mem_cons.mp hdigits
  obtain ⟨hblank, hslash, hsymbol, hquote⟩ := hother d hd
  rw [Unread.ofBytes_cons, List.cons_append, Unread.nextFrom_token hblank hslash]
  simp [Unread.token, hsymbol, hquote, isDigit_eq, hd, Unread.takeWhile_cutOff htail hstop,
    Except.map, Outcome.ofToken]

/-- Digits scan to an integer. -/
theorem next_integer {digits rest : List UInt8} (h : (integer digits).Fits rest) (pos : Position) :
    Unread.nextFrom .blank pos (Reading.ofBytes (digits ++ rest)) =
      (some (.lexeme ⟨.integer (digitsValue digits), pos⟩),
        ⟨pos.after digits, Reading.ofBytes rest⟩) := by
  have happend : Reading.ofBytes (digits ++ rest) =
    Reading.ofBytes digits ++ Reading.ofBytes rest := List.map_append
  obtain ⟨hne, hdigits, hstop⟩ := h
  rw [happend, next_digits hne hdigits (Unread.cutOff_ofBytes hstop)]

/-- Scanning takes the tile at the front: its outcome, or else nothing but the way behind it. -/
theorem Fits.next {t : Tile} {rest : List UInt8} (h : t.Fits rest) (pos : Position) :
    Unread.nextFrom .blank pos (Reading.ofBytes (t.bytes ++ rest)) =
      Unread.proceed (pos.after t.bytes) rest (t.outcome pos) := by
  cases t with
  | blank b =>
    have hb := (isBlank_iff b).mpr h
    change Unread.nextFrom .blank pos (.byte b :: Reading.ofBytes rest) = _
    rw [Unread.nextFrom, if_pos hb]
    rfl
  | lineComment body =>
    rcases h with ⟨line, rfl, hline⟩ | ⟨hbody, rfl⟩
    · have hskip := Unread.nextFrom_line_closed hline rest ((pos.step 47).step 47)
      rw [bytes, List.cons_append, List.cons_append, List.append_assoc]
      exact hskip
    · have hskip := Unread.nextFrom_line_open hbody ((pos.step 47).step 47)
      rw [bytes, List.append_nil]
      exact hskip
  | blockComment body =>
    have hskip := Unread.nextFrom_block_closed false h rest pos ((pos.step 47).step 42)
    rw [bytes, List.cons_append, List.cons_append, List.append_assoc]
    exact hskip
  | openComment body =>
    obtain ⟨hbody, rfl⟩ := h
    have hskip := Unread.nextFrom_block_open false hbody pos ((pos.step 47).step 42)
    rw [bytes, List.append_nil]
    exact hskip
  | symbol b =>
    obtain ⟨hsymbol, hslash⟩ := h
    by_cases hb : b = 47
    · subst hb
      cases rest with
      | nil => rfl
      | cons c rest =>
        obtain ⟨hline, hblock⟩ := hslash rfl c rfl
        change Unread.nextFrom (.slash pos) (pos.step 47) (.byte c :: Reading.ofBytes rest) = _
        rw [Unread.nextFrom, if_neg hline, if_neg hblock]
        rfl
    · change Unread.nextFrom .blank pos (.byte b :: Reading.ofBytes rest) = _
      rw [Unread.nextFrom_token (symbol_not_blank hsymbol) hb, Unread.token,
        if_pos ((isSymbolByte_iff b).mpr hsymbol)]
      rfl
  | integer digits =>
    rw [bytes, next_integer h, digitsValue_eq]
    rfl
  | keyword k =>
    rw [bytes, next_word h, wordToken_utf8 h, Keyword.ofText?_text]
    rfl
  | identifier name =>
    rw [bytes, next_word h.1, wordToken_utf8 h.1, (ofText?_eq_none_iff name).mpr h.2]
    rfl
  | text content =>
    have hdecode := (fromUTF8?_eq_some_iff (utf8 content) content).mpr rfl
    rw [bytes, next_closed h, Unread.stringToken, hdecode]
    rfl
  | garbled content =>
    have hdecode : String.fromUTF8? content.toByteArray = none :=
      Option.eq_none_iff_forall_ne_some.mpr fun s hs =>
        h.2 s ((fromUTF8?_eq_some_iff content s).mp hs)
    rw [bytes, next_closed h.1, Unread.stringToken, hdecode]
    rfl
  | openText content =>
    obtain ⟨hcontent, rfl⟩ := h
    rw [bytes, List.append_nil, Unread.ofBytes_cons, Unread.next_quoted,
      Unread.takeQuoted_open hcontent]
    rfl
  | stray b =>
    obtain ⟨hblank, hsymbol, hquote, hdigit, hletter⟩ := h
    have hslash := ne_slash hsymbol
    rw [← isSymbolByte_iff] at hsymbol
    change Unread.nextFrom .blank pos (.byte b :: Reading.ofBytes rest) = _
    rw [Unread.nextFrom_token hblank hslash]
    simp [Unread.token, hsymbol, hquote, isDigit_eq, hdigit, isLetter_eq, hletter, Outcome.ofToken,
      Unread.proceed, outcome, bytes]

end Tile

/-- Sources whose next outcome is the same have the same outcomes. -/
theorem Unread.outcomes_congr {u v : Unread} (h : u.next = v.next) : u.outcomes = v.outcomes := by
  rcases hv : v.next with ⟨_ | o, v'⟩
  · rw [outcomes_of_next_none (h.trans hv), outcomes_of_next_none hv]
  · rw [outcomes_of_next_some (h.trans hv), outcomes_of_next_some hv]

/-- A tile that fits gives its outcome in front of those of the rest. -/
theorem Tile.Fits.outcomes {t : Tile} {rest : List UInt8} (h : t.Fits rest) (pos : Position) :
    Unread.outcomes ⟨pos, Reading.ofBytes (t.bytes ++ rest)⟩ =
      (t.outcome pos).toList ++ Unread.outcomes ⟨pos.after t.bytes, Reading.ofBytes rest⟩ := by
  have hnext := h.next pos
  cases ho : t.outcome pos with
  | none =>
    rw [ho] at hnext
    exact Unread.outcomes_congr hnext
  | some o =>
    rw [ho] at hnext
    exact Unread.outcomes_of_next_some hnext

/-- Scanning gives the outcomes of the tiles. -/
theorem Tiling.outcomes_eq {tiles : List Tile} {bytes : List UInt8} (h : Tiling tiles bytes)
    (pos : Position) :
    Unread.outcomes ⟨pos, Reading.ofBytes bytes⟩ = Tile.outcomes pos tiles := by
  induction h generalizing pos with
  | nil => exact Unread.outcomes_of_next_none rfl
  | cons fits _ ih => rw [fits.outcomes, ih, Tile.outcomes]

/-- Every source is cut into tiles in exactly one way, the tiles are not empty and make up the whole
source, and what scanning to the end gives are the outcomes of the tiles in order. -/
theorem scan_follows_unique_tiling (bytes : List UInt8) :
    ∃ tiles, Tiling tiles bytes ∧ (∀ others, Tiling others bytes → others = tiles) ∧
      tiles.flatMap Tile.bytes = bytes ∧ (∀ t ∈ tiles, t.bytes ≠ []) ∧
      (Unread.ofReadings (Reading.ofBytes bytes)).outcomes = Tile.outcomes .start tiles := by
  obtain ⟨tiles, htiles⟩ := exists_tiling bytes
  exact ⟨tiles, htiles, fun others h => h.unique htiles, htiles.flatMap_bytes,
    htiles.bytes_ne_nil, htiles.outcomes_eq .start⟩

end JackStack
