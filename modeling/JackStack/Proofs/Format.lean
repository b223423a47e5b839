import JackStack.Proofs.Code.Lines
import JackStack.Proofs.Sinks

/-!
# The format of compiled code

What a compilation writes, also one that fails, are the lines of instructions that depend on the
source alone: the indentation puts spaces in front of some lines and does nothing else. The lines
are ASCII, and the instructions can be read back from them.
-/

namespace JackStack

/-! ## The identifiers of a source -/

/-- A word of a source is a name. -/
theorem IsWord.isName {name : String} {rest : List UInt8} (h : IsWord (utf8 name) rest) :
    IsName name := by
  have hbyte : ∀ b : UInt8, JackStack.inWord b → isNameChar (byteChar b) :=
    forall_byte (by decide +kernel)
  have hname : name = String.ofList ((utf8 name).map byteChar) :=
    utf8_injective (utf8_ofList_byteChar h.inWord).symm
  constructor
  · rintro rfl
    obtain ⟨⟨b, tail, hbytes, -⟩, -⟩ := h
    cases hbytes
  · intro c hc
    rw [hname, String.toList_ofList] at hc
    obtain ⟨b, hb, rfl⟩ := List.mem_map.mp hc
    exact hbyte b (h.inWord b hb)

/-- The identifiers that scanning gives are names. -/
theorem Tile.Fits.named {t : Tile} {rest : List UInt8} (h : t.Fits rest) {pos : Position}
    {lx : Lexeme} (hlx : t.outcome pos = some (.lexeme lx)) : lx.token.Named := by
  cases t with
  | identifier name =>
    cases hlx
    exact h.1.isName
  | symbol b | integer digits | keyword word | text content =>
    cases hlx
    trivial
  | _ => cases hlx

/-- The identifiers of a source are names. -/
theorem Tiling.named {tiles : List Tile} {bytes : List UInt8} (h : Tiling tiles bytes)
    {pos : Position} {lx : Lexeme} (hlx : .lexeme lx ∈ Tile.outcomes pos tiles) :
    lx.token.Named := by
  induction h generalizing pos with
  | nil => cases hlx
  | cons fits _ ih =>
    rcases List.mem_append.mp hlx with hfirst | hrest
    · exact fits.named (Option.mem_toList.mp hfirst)
    · exact ih hrest

/-- The names in what is emitted for a source are names in the code. -/
theorem Run.spelled (bytes : List UInt8) :
    ∀ i ∈ Event.instructions (Run.ofReadings (Reading.ofBytes bytes)).events, i.Spelled := by
  obtain ⟨tiles, htiles⟩ := exists_tiling bytes
  have houtcomes : (Unread.ofReadings (Reading.ofBytes bytes)).outcomes = _ :=
    htiles.outcomes_eq .start
  apply Generator.run_spelled _ Generator.named_start
  apply Syntax.parse_names
  intro lx hlx
  rw [houtcomes] at hlx
  exact htiles.named hlx

/-! ## Bytes and text -/

/-- Code is written in ASCII. -/
theorem ascii_codeText {code : List Instruction} (h : ∀ i ∈ code, i.Spelled) (indent : Nat) :
    ∀ c ∈ (codeText indent code).toList, c.toNat < 128 := by
  intro c hc
  rw [toList_codeText] at hc
  obtain ⟨_, hline, hc⟩ := List.mem_flatMap.mp hc
  obtain ⟨i, hi, rfl⟩ := List.mem_map.mp hline
  simp only [List.mem_append, List.mem_singleton] at hc
  rcases hc with (hspace | htext) | rfl
  · rw [List.eq_of_mem_replicate hspace]
    decide
  · rcases (h i hi).chars c htext with rfl | hvisible
    · decide
    · omega
  · decide

/-- ASCII text has one byte below 128 for each character. -/
theorem bytes_lt_of_ascii {s : String} (h : ∀ c ∈ s.toList, c.toNat < 128) :
    ∀ b ∈ s.toUTF8.data.toList, b < 128 := by
  intro b hb
  rw [← utf8, utf8_of_ascii h] at hb
  obtain ⟨c, hc, rfl⟩ := List.mem_map.mp hb
  exact forall_ascii (P := fun c => UInt8.ofNat c.toNat < 128) (by decide) (h c hc)

/-- The bytes of a text are decoded to it. -/
theorem decode_toUTF8 (s : String) : Text.decode s.toUTF8 = s := by
  have hvalid : String.fromUTF8? s.toUTF8 = some s := dif_pos s.isValidUTF8
  rw [Text.decode, hvalid]

/-- Whatever a source holds, its compilation ends in the same way under every indentation and
writes the same instructions, complete or not: one line for each, with the spaces of the indentation
in front of all but functions and labels. The text is ASCII, decoding it loses nothing, and reading
its lines recovers the instructions. -/
theorem code_format (bytes : ByteArray) :
    ∃ (code : List Instruction) (verdict : Except Error Unit), ∀ options : Options,
      let text := String.join (code.map fun i =>
        Text.spaces (if i.isFunction ∨ i.isLabel then 0 else options.indent) ++ i.text ++ "\n")
      (compileBytes bytes options).verdict = verdict ∧
      (compileBytes bytes options).output = text.toUTF8 ∧
      (∀ b ∈ text.toUTF8.data.toList, b < 128) ∧
      Text.decode text.toUTF8 = text ∧
      (∀ source : String, source.toUTF8 = bytes →
        compileString source options = verdict.map fun _ => text) ∧
      decode? text = some code := by
  let run := Run.ofReadings (Reading.ofBytes bytes.toList)
  refine ⟨Event.instructions run.events, run.verdict, fun options => ?_⟩
  have hspelled := Run.spelled bytes.toList
  obtain ⟨houtput, hverdict⟩ := compile_default (Reading.ofBytes bytes.toList) options
  intro text
  have htext : codeText options.indent (Event.instructions run.events) = text :=
    congrArg String.join (List.map_congr_left fun i _ => i.bodyLine_eq options.indent)
  rw [htext] at houtput
  refine ⟨hverdict, houtput, ?_, decode_toUTF8 text, ?_, ?_⟩
  · rw [← htext]
    exact bytes_lt_of_ascii (ascii_codeText hspelled options.indent)
  · rintro source rfl
    have hdecoded : Text.decode (compileBytes source.toUTF8 options).output = text :=
      (congrArg Text.decode houtput).trans (decode_toUTF8 text)
    rw [compileString, hdecoded]
    exact congrArg (Except.map fun _ => text) hverdict
  · rw [← htext]
    exact decode?_codeText hspelled options.indent

end JackStack
