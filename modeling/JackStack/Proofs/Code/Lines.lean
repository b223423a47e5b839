import JackStack.Proofs.Code.Names
import JackStack.Proofs.Source.Spelling
import JackStack.Proofs.Translation

/-!
# Reading code back

A line of code is a few words with spaces between them and, under an indentation, in front of
them. `decode?` reads lines back: it skips the spaces in front of a line and looks at its words. It
recovers the instructions from their lines, since no word that gets into the code is empty or holds
a space or a line feed.
-/

namespace JackStack

/-! ## The grammar of lines -/

/-- The memory segments. -/
def Segment.all : List Segment :=
  [.constant, .argument, .local, .static, .this, .that, .pointer, .temp]

/-- The segment of a name. -/
def Segment.ofText? (word : String) : Option Segment := all.find? (·.text == word)

/-- The commands. -/
def Command.all : List Command := [.add, .sub, .neg, .eq, .gt, .lt, .and, .or, .not]

/-- The command of a name. -/
def Command.ofText? (word : String) : Option Command := all.find? (·.text == word)

/-- The number that decimal digits write, if it fits an operand. -/
def operand? (word : String) : Option UInt32 :=
  let value := Nat.ofDigitChars 10 word.toList 0
  if word ≠ "" ∧ word.toList.all Char.isDigit ∧ value < UInt32.size then some (.ofNat value)
  else none

/-- The instruction that the words of a line are. -/
def Instruction.ofWords? : List String → Option Instruction
  | ["push", segment, index] => do return .push (← Segment.ofText? segment) (← operand? index)
  | ["pop", segment, index] => do return .pop (← Segment.ofText? segment) (← operand? index)
  | ["label", name] => some (.label name)
  | ["goto", name] => some (.goto name)
  | ["if-goto", name] => some (.ifGoto name)
  | ["call", name, args] => do return .call name (← operand? args)
  | ["function", name, locals] => do return .function name (← operand? locals)
  | ["return"] => some .ret
  | [command] => (Command.ofText? command).map .arithmetic
  | _ => none

/-- The words of a line, behind the spaces that it begins with. -/
def lineWords (line : List Char) : List String :=
  ((line.dropWhile (· = ' ')).splitOn ' ').map String.ofList

/-- The instructions of a text of lines, each of which ends with a line feed. -/
def decode? (text : String) : Option (List Instruction) :=
  let lines := text.toList.splitOn '\n'
  if lines.getLast? = some [] then
    lines.dropLast.mapM fun line => Instruction.ofWords? (lineWords line)
  else none

/-! ## Words -/

/-- A segment is told by its text. -/
theorem Segment.ofText?_text (segment : Segment) : ofText? segment.text = some segment := by
  cases segment <;> decide

/-- No number is written with nothing. -/
theorem repr_ne_empty (n : Nat) : n.repr ≠ "" := by
  intro hempty
  have hlist : n.repr.toList = Nat.toDigits 10 n := Nat.toList_repr
  rw [hempty] at hlist
  exact Nat.toDigits_ne_nil hlist.symm

/-- An operand is told by its digits. -/
@[simp] theorem operand?_repr (n : UInt32) : operand? n.toNat.repr = some n := by
  have hdigits : n.toNat.repr.toList.all Char.isDigit = true :=
    List.all_eq_true.mpr fun c hc => isDigit_of_mem_repr hc
  have hvalue : Nat.ofDigitChars 10 n.toNat.repr.toList 0 = n.toNat := by
    rw [Nat.toList_repr, Nat.ofDigitChars_ten_toDigits]
  simp only [operand?, hvalue]
  rw [if_pos ⟨repr_ne_empty _, hdigits, n.toNat_lt⟩, UInt32.ofNat_toNat]

namespace Instruction

/-- The words of an instruction. -/
def words : Instruction → List String
  | push segment index => ["push", segment.text, toString index.toNat]
  | pop segment index => ["pop", segment.text, toString index.toNat]
  | arithmetic command => [command.text]
  | label name => ["label", name]
  | goto name => ["goto", name]
  | ifGoto name => ["if-goto", name]
  | call name args => ["call", name, toString args.toNat]
  | function name locals => ["function", name, toString locals.toNat]
  | ret => ["return"]

/-- An instruction is told by its words. -/
theorem ofWords?_words (i : Instruction) : ofWords? i.words = some i := by
  cases i with
  | push segment index => simp [words, ofWords?, Segment.ofText?_text]
  | pop segment index => simp [words, ofWords?, Segment.ofText?_text]
  | arithmetic command => cases command <;> decide
  | call name args => simp [words, ofWords?]
  | function name locals => simp [words, ofWords?]
  | label name | goto name | ifGoto name | ret => rfl

/-- The text of an instruction is its words with blanks between them. -/
theorem toList_text (i : Instruction) :
    i.text.toList = [' '].intercalate (i.words.map String.toList) := by
  cases i <;> simp [text, words, String.toList_append, List.intercalate]

end Instruction

/-- A word in the code: visible ASCII characters, at least one. -/
structure CodeWord (s : String) : Prop where
  ne_empty : s ≠ ""
  visible : ∀ c ∈ s.toList, 32 < c.toNat ∧ c.toNat < 127

instance (s : String) : Decidable (CodeWord s) :=
  decidable_of_iff (s ≠ "" ∧ (s.toList.all fun c => 32 < c.toNat ∧ c.toNat < 127) = true)
    ⟨fun h => ⟨h.1, by simpa using h.2⟩, fun h => ⟨h.1, by simpa using h.visible⟩⟩

/-- The characters of names are visible. -/
theorem visible_of_isCodeChar {c : Char} (h : isCodeChar c) : 32 < c.toNat ∧ c.toNat < 127 := by
  simp only [isCodeChar, isNameChar, Bool.or_eq_true, decide_eq_true_eq] at h
  rcases h with (h | rfl) | rfl
  · rcases Bool.or_eq_true_iff.mp h with h | h
    · rcases Bool.or_eq_true_iff.mp h with h | h
      · have hupper : 65 ≤ c.toNat ∧ c.toNat ≤ 90 := of_decide_eq_true h
        omega
      · obtain ⟨hlow, hhigh⟩ := Bool.and_eq_true_iff.mp h
        have hlower : 97 ≤ c.toNat ∧ c.toNat ≤ 122 :=
          ⟨of_decide_eq_true hlow, of_decide_eq_true hhigh⟩
        omega
    · have hdigit : 48 ≤ c.toNat ∧ c.toNat ≤ 57 := Char.isDigit_iff_toNat.mp h
      omega
  · decide
  · decide

namespace CodeWord

/-- A word of code has no blank and no line break. -/
theorem notMem {s : String} (h : CodeWord s) {c : Char} (hc : c.toNat ≤ 32) : c ∉ s.toList := by
  intro hmem
  have hvisible := (h.visible c hmem).1
  omega

/-- Every name in code is a word of code. -/
theorem of_codeName {s : String} (h : CodeName s) : CodeWord s := by
  refine ⟨h.ne_empty, fun c hc => ?_⟩
  exact visible_of_isCodeChar (h.chars c hc)

/-- Every number is a word of code. -/
theorem repr (n : Nat) : CodeWord n.repr := by
  refine ⟨repr_ne_empty n, fun c hc => ?_⟩
  obtain ⟨hlow, hhigh⟩ := Char.isDigit_iff_toNat.mp (isDigit_of_mem_repr hc)
  exact ⟨Nat.lt_of_lt_of_le (by decide) hlow, Nat.lt_of_le_of_lt hhigh (by decide)⟩

end CodeWord

/-- The words of a spelled instruction are words of code. -/
theorem Instruction.Spelled.codeWord {i : Instruction} (h : i.Spelled) :
    ∀ w ∈ i.words, CodeWord w := by
  have hsegment : ∀ segment : Segment, CodeWord segment.text := by
    intro segment
    cases segment <;> decide
  have hwords : ∀ w ∈ ["push", "pop", "label", "goto", "if-goto", "call", "function", "return"],
      CodeWord w := by decide
  simp only [List.forall_mem_cons] at hwords
  cases i with
  | push segment index => simp [words, hwords, hsegment, CodeWord.repr]
  | pop segment index => simp [words, hwords, hsegment, CodeWord.repr]
  | arithmetic command => cases command <;> decide
  | label name | goto name | ifGoto name =>
    simp [words, hwords, CodeWord.of_codeName h]
  | call name args => simp [words, hwords, CodeWord.of_codeName h, CodeWord.repr]
  | function name locals => simp [words, hwords, CodeWord.of_codeName h, CodeWord.repr]
  | ret => simp [words, hwords]

/-! ## Lines -/

/-- Neither the spaces in front of a line nor those between its words get lost. -/
theorem lineWords_text {i : Instruction} (h : i.Spelled) (n : Nat) :
    lineWords (List.replicate n ' ' ++ i.text.toList) = i.words := by
  have hspaces : ∀ c ∈ List.replicate n ' ', decide (c = ' ') = true := fun c hc =>
    decide_eq_true (List.eq_of_mem_replicate hc)
  have hfirst : i.text.toList.dropWhile (· = ' ') = i.text.toList := by
    cases i with
    | arithmetic command => cases command <;> decide
    | _ => simp [Instruction.text, String.toList_append]
  rw [lineWords, List.dropWhile_append_of_pos hspaces, hfirst, i.toList_text,
    List.splitOn_intercalate]
  · rw [List.map_map]
    exact List.map_id'' (fun w => String.ofList_toList) _
  · intro l hl
    obtain ⟨w, hw, rfl⟩ := List.mem_map.mp hl
    exact (h.codeWord w hw).notMem (by decide)
  · cases i <;> simp [Instruction.words]

/-- Text is cut into lines at the line feeds. -/
theorem splitOn_lines {lines : List (List Char)} (h : ∀ l ∈ lines, '\n' ∉ l) :
    (lines.flatMap (· ++ ['\n'])).splitOn '\n' = lines ++ [[]] := by
  induction lines with
  | nil => rfl
  | cons l lines ih =>
    obtain ⟨hl, hlines⟩ := List.forall_mem_cons.mp h
    rw [List.flatMap_cons, List.append_assoc, List.singleton_append,
      List.splitOn_append_cons_self_of_not_mem hl, ih hlines, List.cons_append]

/-- The number of spaces in front of an instruction. -/
def Instruction.margin (indent : Nat) (i : Instruction) : Nat :=
  if i.isFunction ∨ i.isLabel then 0 else indent

theorem Text.toList_spaces (n : Nat) : (Text.spaces n).toList = List.replicate n ' ' := by
  induction n with
  | zero => rfl
  | succ n ih =>
    change ((Text.spaces n).push ' ').toList = _
    rw [String.toList_push, ih, List.replicate_succ']

/-- A line is its margin, the text of its instruction and a line break. -/
theorem Instruction.bodyLine_eq (indent : Nat) (i : Instruction) :
    i.bodyLine indent = Text.spaces (i.margin indent) ++ i.text ++ "\n" := by
  have hmargin : (if i.isLabel then 0 else if i.isFunction then 0 else indent) =
      i.margin indent := by
    cases i <;> rfl
  rw [bodyLine, line, hmargin]

/-- The text of code is its lines in a row. -/
theorem toList_codeText (indent : Nat) (code : List Instruction) :
    (codeText indent code).toList = (code.map fun i =>
      List.replicate (i.margin indent) ' ' ++ i.text.toList).flatMap (· ++ ['\n']) := by
  induction code with
  | nil => rfl
  | cons i code ih =>
    rw [codeText_cons, i.bodyLine_eq, String.toList_append, String.toList_append,
      String.toList_append, Text.toList_spaces, ih, List.map_cons, List.flatMap_cons]
    rfl

/-- Between words there are blanks only. -/
theorem mem_intercalate {words : List (List Char)} {c : Char}
    (h : c ∈ [' '].intercalate words) : c = ' ' ∨ ∃ w ∈ words, c ∈ w := by
  induction words with
  | nil => cases h
  | cons w words ih =>
    cases words with
    | nil =>
      rw [List.intercalate_singleton] at h
      exact .inr ⟨w, List.mem_cons_self, h⟩
    | cons v words =>
      rw [List.intercalate_cons_cons, List.mem_append, List.mem_append] at h
      rcases h with (hw | hspace) | hrest
      · exact .inr ⟨w, List.mem_cons_self, hw⟩
      · exact .inl (List.mem_singleton.mp hspace)
      · rcases ih hrest with hspace | ⟨u, hu, hc⟩
        · exact .inl hspace
        · exact .inr ⟨u, List.mem_cons_of_mem w hu, hc⟩

/-- The characters of an instruction are visible, or spaces. -/
theorem Instruction.Spelled.chars {i : Instruction} (h : i.Spelled) :
    ∀ c ∈ i.text.toList, c = ' ' ∨ 32 < c.toNat ∧ c.toNat < 127 := by
  intro c hc
  rw [i.toList_text] at hc
  rcases mem_intercalate hc with hspace | ⟨_, hmem, hc⟩
  · exact .inl hspace
  · obtain ⟨w, hw, rfl⟩ := List.mem_map.mp hmem
    exact .inr ((h.codeWord w hw).visible c hc)

/-- Reading the lines of code back recovers the code. -/
theorem decode?_codeText {code : List Instruction} (h : ∀ i ∈ code, i.Spelled) (indent : Nat) :
    decode? (codeText indent code) = some code := by
  have hlines : ∀ l ∈ code.map fun i =>
      List.replicate (i.margin indent) ' ' ++ i.text.toList, '\n' ∉ l := by
    intro l hl hfeed
    obtain ⟨i, hi, rfl⟩ := List.mem_map.mp hl
    rcases List.mem_append.mp hfeed with hspace | htext
    · exact absurd (List.eq_of_mem_replicate hspace) (by decide)
    · exact absurd ((h i hi).chars _ htext) (by decide)
  have hread : ∀ {part : List Instruction}, (∀ i ∈ part, i.Spelled) →
      (part.map fun i => List.replicate (i.margin indent) ' ' ++ i.text.toList).mapM
        (fun line => Instruction.ofWords? (lineWords line)) = some part := by
    intro part hpart
    induction part with
    | nil => rfl
    | cons i part ih =>
      obtain ⟨hi, hpart⟩ := List.forall_mem_cons.mp hpart
      simp [lineWords_text hi, Instruction.ofWords?_words, ih hpart]
  simp only [decode?, toList_codeText, splitOn_lines hlines]
  rw [List.getLast?_concat, if_pos rfl, List.dropLast_concat, hread h]

end JackStack
