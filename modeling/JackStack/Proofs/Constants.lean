import JackStack.Proofs.Code.Constants
import JackStack.Proofs.Code.Names
import JackStack.Proofs.Grammar.Recognition
import JackStack.Proofs.Sinks
import JackStack.Proofs.Source.Spelling

/-!
# The constants of a compiled class

Every constant of the source is checked before it is pushed, but the room that a constructor asks
for is not: a class with many fields is compiled all the same. So the constants in what was written
are small exactly when the fields are few or no constructor is reached.
-/

namespace JackStack

open JackStack.Tree

/-- What a run emits is modest, whatever the source. -/
theorem Run.pushesRoom (readings : List Reading) :
    let unread := Unread.ofReadings readings
    let actions := (Syntax.parse unread.outcomes unread.finish).actions
    PushesRoom (.ofNat (Action.fieldCount actions)) (({} : Generator).Constructs actions)
      (Event.instructions (Run.ofReadings readings).events) := by
  intro unread actions
  obtain ⟨c, hc⟩ := Syntax.parse_actions_begin unread.outcomes unread.finish
  have hrun : Event.instructions (generate (Action.unplaced actions)).1 =
      Event.instructions (Run.ofReadings readings).events :=
    (Generator.run_alike (Action.listAlike_unplaced actions) {}).instructions.symm
  have hroom := c.pushesRoom hc
  rwa [Action.fieldCount_unplaced, Generator.constructs_unplaced, hrun] at hroom

/-- The constants in what was written are small exactly when the number of fields is, or no
constructor is reached. A constant that is not small is that number, in the place where a
constructor makes room for a new object. -/
theorem constants_small_iff (readings : List Reading) (options : Options) :
    let unread := Unread.ofReadings readings
    let actions := (Syntax.parse unread.outcomes unread.finish).actions
    let fields := Action.fieldCount actions
    let code := Event.instructions (Run.ofReadings readings).events
    (compile readings {} options).output = (codeText options.indent code).toUTF8 ∧
    (AllSmall code ↔ (({} : Generator).Constructs actions → .ofNat fields ≤ maxConstant)) ∧
    ∀ front n back, code = front ++ .push .constant n :: back → n ≤ maxConstant ∨
      n = .ofNat fields ∧ (∃ name locals, front.getLast? = some (.function name locals)) ∧
        back.head? = some (.call "Memory.alloc" 1) := by
  intro unread actions fields code
  obtain ⟨hmodest, hpushed⟩ := Run.pushesRoom readings
  refine ⟨(compile_default readings options).1, ⟨?_, hmodest.allSmall⟩, ?_⟩
  · intro hsmall hconstructs
    exact hsmall _ (hpushed hconstructs)
  · intro front n back hcode
    exact hmodest.of_split hcode

/-! ## A class with many fields -/

/-- A class with a field more than the number, and a constructor. -/
def wide (n : Nat) : Tree.Class where
  name := "A"
  groups := [⟨.field, ⟨.int, labelText "f" 0, (List.range' 1 n).map (labelText "f")⟩⟩]
  subroutines :=
    [⟨.constructor, some (.named "A"), "new", [], [],
      [.giveBack (some (.chain (.constant .this) []))]⟩]

theorem wide_names (n : Nat) :
    (wide n).declarations.map (·.name) = (List.range (n + 1)).map (labelText "f") := by
  rw [List.range_eq_range', List.range'_succ, List.map_cons]
  simp [wide, Class.declarations, ClassGroup.declarations, Group.declarations, Group.names]

/-- A class of any number of fields is well-formed. -/
theorem wide_wellFormed (n : Nat) : (wide n).WellFormed := by
  constructor
  · rw [wide_names]
    apply List.Nodup.map _ List.nodup_range
    intro i j h
    exact (labelText_inj.mp h).2
  · intro s hs
    obtain rfl := List.mem_singleton.mp hs
    exact ⟨List.nodup_nil, nofun⟩

/-- The bytes of digits go on with a word. -/
theorem ascii_of_isDigit {c : Char} (h : c.isDigit) :
    c.toNat < 128 ∧ inWord (UInt8.ofNat c.toNat) := by
  have hword : ∀ n ≤ '9'.toNat, '0'.toNat ≤ n → inWord (UInt8.ofNat n) := by decide
  obtain ⟨hlow, hhigh⟩ := Char.isDigit_iff_toNat.mp h
  exact ⟨Nat.lt_of_le_of_lt hhigh (by decide), hword c.toNat hhigh hlow⟩

/-- The name of a field is a word and no reserved word. -/
theorem bare_field (i : Nat) : (Token.identifier (labelText "f" i)).Bare := by
  have hname : (labelText "f" i).toList = 'f' :: '_' :: (toString i).toList := by
    simp [labelText, String.toList_append]
  have hdigit : ∀ c ∈ (toString i).toList, c.isDigit := fun c hc => isDigit_of_mem_repr hc
  have hbytes := utf8_of_ascii (s := labelText "f" i) (by
    rw [hname]
    refine List.forall_mem_cons.mpr ⟨by decide, List.forall_mem_cons.mpr ⟨by decide, ?_⟩⟩
    exact fun c hc => (ascii_of_isDigit (hdigit c hc)).1)
  rw [hname] at hbytes
  refine ⟨⟨⟨_, _, hbytes, by decide, ?_⟩, by simp [Stops]⟩, ?_⟩
  · intro b hb
    obtain ⟨c, hc, rfl⟩ := List.mem_map.mp hb
    rcases List.mem_cons.mp hc with rfl | hc
    · rfl
    · exact (ascii_of_isDigit (hdigit c hc)).2
  · intro k hk
    have hmark : '_' ∈ k.text.toList := by
      rw [hk, hname]
      exact List.mem_cons_of_mem _ List.mem_cons_self
    revert hmark
    cases k <;> decide

theorem wide_tokens (n : Nat) : (wide n).tokens =
    [.keyword .classKw, .identifier "A", .symbol '{', .keyword .fieldKw, .keyword .intKw,
      .identifier (labelText "f" 0)] ++ nameTokens ((List.range' 1 n).map (labelText "f")) ++
    [.symbol ';', .keyword .constructorKw, .identifier "A", .identifier "new", .symbol '(',
      .symbol ')', .symbol '{', .keyword .returnKw, .keyword .thisKw, .symbol ';',
      .symbol '}', .symbol '}'] := by
  simp [wide, Class.tokens, ClassGroup.tokens, Group.tokens, Subroutine.tokens, blockTokens,
    Statement.tokens, Expression.tokens, Term.tokens, operationTokens, Sharing.keyword,
    TypeName.token, subKeyword, returnToken, parameterTokens, localTokens, Constant.keyword]

/-- A class of fields has no strings, so it is spelled with blanks between its tokens. -/
theorem wide_bare (n : Nat) : ∀ t ∈ (wide n).tokens, t.Bare := by
  have hclass : (Token.identifier "A").Bare :=
    ⟨⟨⟨_, _, rfl, by decide, List.all_eq_true.mp (by decide)⟩, by simp [Stops]⟩,
      (ofText?_eq_none_iff _).mp (by decide)⟩
  have hnew : (Token.identifier "new").Bare :=
    ⟨⟨⟨_, _, rfl, by decide, List.all_eq_true.mp (by decide)⟩, by simp [Stops]⟩,
      (ofText?_eq_none_iff _).mp (by decide)⟩
  have hfields : ∀ t ∈ nameTokens ((List.range' 1 n).map (labelText "f")), t.Bare := by
    intro t ht
    obtain ⟨name, hname, ht⟩ := List.mem_flatMap.mp ht
    obtain ⟨i, -, rfl⟩ := List.mem_map.mp hname
    rcases List.mem_cons.mp ht with rfl | ht
    · exact (by decide : ',' ∈ symbols.toList)
    · obtain rfl := List.mem_singleton.mp ht
      exact bare_field i
  have hsymbols : (['{', '}', '(', ')', ';'].all fun c => c ∈ symbols.toList) = true := by decide
  have hmarks : ∀ c ∈ ['{', '}', '(', ')', ';'], (Token.symbol c).Bare := fun c hc => by
    have hc := List.all_eq_true.mp hsymbols c hc
    exact of_decide_eq_true (p := c ∈ symbols.toList) hc
  have hkeyword : ∀ k : Keyword, (Token.keyword k).Bare := fun _ => trivial
  rw [wide_tokens]
  simp only [List.forall_mem_append, List.forall_mem_cons] at hmarks ⊢
  simpa [hclass, hnew, hkeyword, hmarks, bare_field] using hfields

/-- The class is compiled, and its constructor asks for all the room. -/
theorem wide_pushes (n : Nat) :
    let readings := Reading.ofBytes (spell (wide n).tokens).toUTF8.toList
    (Run.ofReadings readings).verdict = .ok () ∧
      .push .constant (.ofNat (n + 1)) ∈ Event.instructions (Run.ofReadings readings).events := by
  intro readings
  have hplain : AllPlain 0 (wide n).tokens := by
    intro t ht
    have hbare := wide_bare n t ht
    cases t with
    | identifier name => exact (ofText?_eq_none_iff name).mpr hbare.2
    | string content => exact hbare.elim
    | _ => trivial
  have hemits : (wide n).Emits (wide n).code :=
    (Class.carries (by decide : 0 < UInt32.size) hplain).mpr ⟨wide_wellFormed n, rfl⟩
  obtain ⟨hverdict, hcode⟩ := (Run.ofReadings_emits (scansTo_spell (wide_bare n))).mpr hemits
  have hcount : countKind .field (wide n).declarations = n + 1 := by
    have hfields : ∀ d ∈ (wide n).declarations, decide (d.kind = .field) = true := by
      intro d hd
      obtain ⟨g, hg, hd⟩ := List.mem_flatMap.mp hd
      obtain rfl := List.mem_singleton.mp hg
      obtain ⟨name, -, rfl⟩ := List.mem_map.mp hd
      rfl
    have hlength := congrArg List.length (wide_names n)
    rw [List.length_map, List.length_map, List.length_range] at hlength
    rw [countKind, List.countP_eq_length.mpr hfields, hlength]
  refine ⟨hverdict, ?_⟩
  rw [hcode, ← hcount]
  apply List.mem_append_left
  apply List.mem_cons_of_mem
  exact List.mem_append_left _ List.mem_cons_self

/-- A class with one field more than the largest constant, as a text. -/
def manyFields : String := spell (wide 32767).tokens

/-- The text is compiled, and to code that pushes the number of its fields. -/
theorem manyFields_exceed :
    (compile (Reading.ofBytes manyFields.toUTF8.toList) {} {}).verdict = .ok () ∧
      .push .constant 32768 ∈
        Event.instructions (Run.ofReadings (Reading.ofBytes manyFields.toUTF8.toList)).events ∧
      ¬AllSmall (Event.instructions
        (Run.ofReadings (Reading.ofBytes manyFields.toUTF8.toList)).events) := by
  obtain ⟨hverdict, hpushed⟩ := wide_pushes 32767
  refine ⟨(compile_default _ {}).2.trans hverdict, hpushed, fun hsmall => ?_⟩
  exact absurd (hsmall _ hpushed) (by decide : ¬(32768 : UInt32) ≤ maxConstant)

end JackStack
