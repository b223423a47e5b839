import JackStack.Source.Progress

/-!
# The tokens of a source

A scanned identifier is never a reserved word, and a string constant holds no more characters than
the source has bytes. A source scans to tokens when all its outcomes are lexemes and these are
their tokens; there are then no more of them than there are bytes.
-/

namespace JackStack

/-- What every token of a source of this size satisfies. -/
def Token.Plain (size : Nat) : Token → Prop
  | .identifier name => Keyword.ofText? name = none
  | .string content => content.length ≤ size
  | _ => True

/-- A token that is plain for a size is so for a larger one. -/
theorem Token.Plain.mono {m n : Nat} {t : Token} (h : t.Plain m) (hmn : m ≤ n) : t.Plain n := by
  cases t with
  | string content => exact Nat.le_trans h hmn
  | _ => exact h

/-- Words are plain. -/
theorem wordToken_plain (word : List UInt8) (size : Nat) : (wordToken word).Plain size := by
  simp only [wordToken]
  split
  · trivial
  · next h => exact h

/-- A text has at most as many characters as bytes. -/
theorem length_le_size_toByteArray (s : String) : s.length ≤ s.toByteArray.size := by
  have h : ∀ cs : List Char, cs.length ≤ (String.ofList cs).utf8ByteSize := by
    intro cs
    induction cs with
    | nil => exact Nat.zero_le _
    | cons c cs ih =>
      have hc := c.utf8Size_pos
      rw [String.ofList_cons, String.utf8ByteSize_append, String.utf8ByteSize_singleton,
        List.length_cons]
      omega
  have hs := h s.toList
  rwa [String.length_toList, String.ofList_toList] at hs

namespace Unread

/-- The content of a string is not longer than what was read. -/
theorem takeQuoted_length_le {start : Position} {taken : List UInt8} {pos : Position}
    {rs : List Reading} {content : List UInt8}
    (h : (takeQuoted start taken pos rs).1 = .ok content) :
    content.length ≤ taken.length + rs.length := by
  induction rs generalizing taken pos with
  | nil => cases h
  | cons r rest ih =>
    cases r with
    | fault e => cases h
    | byte b =>
      rw [takeQuoted] at h
      split at h
      · cases h
        rw [List.length_reverse]
        exact Nat.le_add_right _ _
      · have hle := ih h
        simp only [List.length_cons] at hle ⊢
        omega

/-- A string is plain if its content is not longer than the size. -/
theorem stringToken_plain {start : Position} {content : List UInt8} {t : Token} {size : Nat}
    (h : stringToken start content = .ok t) (hsize : content.length ≤ size) : t.Plain size := by
  unfold stringToken at h
  split at h
  · next s hs =>
    cases h
    have hbytes : s.toByteArray = content.toByteArray := by
      unfold String.fromUTF8? at hs
      split at hs <;> cases hs
      rfl
    have hlength := length_le_size_toByteArray s
    rw [hbytes, List.size_toByteArray] at hlength
    exact Nat.le_trans hlength hsize
  · cases h

/-- A scanned token is plain for the number of bytes behind its first one. -/
theorem token_plain {start : Position} {b : UInt8} {pos : Position} {rs : List Reading} {t : Token}
    (h : (token start b pos rs).1 = .ok t) : t.Plain rs.length := by
  unfold token at h
  split at h
  · cases h
    trivial
  split at h
  · rcases hq : takeQuoted start [] pos rs with ⟨_ | content, unread⟩ <;> rw [hq] at h
    · cases h
    · have hle := takeQuoted_length_le (congrArg Prod.fst hq)
      exact stringToken_plain h (by simpa using hle)
  split at h
  · rcases hd : takeWhile isDigit [b] pos rs with ⟨_ | digits, unread⟩ <;> rw [hd] at h <;> cases h
    trivial
  split at h
  · rcases hw : takeWhile isWordByte [b] pos rs with ⟨_ | word, unread⟩ <;> rw [hw] at h <;> cases h
    exact wordToken_plain word rs.length
  · cases h

/-- A scanned lexeme has a token that is plain for the number of bytes read. -/
theorem nextFrom_plain {g : Gap} {pos : Position} {rs : List Reading} {lx : Lexeme}
    (h : (nextFrom g pos rs).1 = some (.lexeme lx)) : lx.token.Plain rs.length := by
  induction rs generalizing g pos with
  | nil =>
    cases g with
    | slash start =>
      cases h
      trivial
    | _ => cases h
  | cons r rest ih =>
    cases r with
    | fault e => cases g <;> cases h
    | byte b =>
      have step : ∀ g', (nextFrom g' (pos.step b) rest).1 = some (.lexeme lx) →
          lx.token.Plain (rest.length + 1) := fun _ hg => (ih hg).mono (Nat.le_succ _)
      cases g with
      | blank =>
        rw [nextFrom] at h
        split at h
        · exact step _ h
        split at h
        · exact step _ h
        · rcases ht : token pos b (pos.step b) rest with ⟨_ | t, unread⟩ <;>
            rw [ht] at h <;> cases h
          exact (token_plain (congrArg Prod.fst ht)).mono (Nat.le_succ _)
      | slash start =>
        rw [nextFrom] at h
        split at h
        · exact step _ h
        split at h
        · exact step _ h
        · cases h
          trivial
      | line => exact step _ h
      | block start star =>
        rw [nextFrom] at h
        split at h <;> exact step _ h

/-- Every token of a source is plain for its size. -/
theorem outcomes_plain {u : Unread} {lx : Lexeme} (h : .lexeme lx ∈ u.outcomes) :
    lx.token.Plain u.readings.length := by
  generalize hn : u.readings.length = n
  induction n using Nat.strongRecOn generalizing u with
  | ind n ih =>
    rcases hu : u.next with ⟨_ | o, u'⟩
    · rw [outcomes_of_next_none hu] at h
      exact absurd h List.not_mem_nil
    · have hlt := length_next_lt hu
      rw [hn] at hlt
      rw [outcomes_of_next_some hu] at h
      rcases List.mem_cons.mp h with rfl | h
      · exact hn ▸ nextFrom_plain (congrArg Prod.fst hu)
      · exact (ih _ hlt h rfl).mono (Nat.le_of_lt hlt)

end Unread

/-- The bytes scan without a failure, and to exactly these tokens. -/
def ScansTo (bytes : ByteArray) (tokens : List Token) : Prop :=
  ∃ lexemes : List Lexeme, lexemes.map (·.token) = tokens ∧
    (Unread.ofReadings (Reading.ofBytes bytes.toList)).outcomes = lexemes.map .lexeme

namespace ScansTo

variable {bytes : ByteArray} {tokens : List Token}

/-- Bytes scan to one sequence of tokens at most. -/
theorem unique {others : List Token} (h : ScansTo bytes tokens) (h' : ScansTo bytes others) :
    tokens = others := by
  obtain ⟨lexemes, rfl, ho⟩ := h
  obtain ⟨lexemes', rfl, ho'⟩ := h'
  rw [ho, List.map_inj_right fun _ _ => Outcome.lexeme.inj] at ho'
  rw [ho']

private theorem toList_loop_eq (bytes : ByteArray) (i : Nat) (found : List UInt8) :
    ByteArray.toList.loop bytes i found = found.reverse ++ bytes.data.toList.drop i := by
  fun_induction ByteArray.toList.loop bytes i found with
  | case1 i found h ih =>
    have hget : bytes.get! i = bytes.data.toList[i] := by
      simp [ByteArray.get!, getElem!_pos, h]
    rw [ih, List.reverse_cons, List.append_assoc, List.drop_eq_getElem_cons h, hget]
    rfl
  | case2 i found h =>
    rw [List.drop_eq_nil_of_le (Nat.not_lt.mp h), List.append_nil]

/-- The bytes of an array in order. -/
theorem toList_eq_data (bytes : ByteArray) : bytes.toList = bytes.data.toList := by
  rw [ByteArray.toList, toList_loop_eq, List.reverse_nil, List.nil_append, List.drop_zero]

/-- Opening bytes gives a reading for each of them. -/
private theorem length_readings (bytes : ByteArray) :
    (Reading.ofBytes bytes.toList).length = bytes.size := by
  rw [Reading.ofBytes, List.length_map, toList_eq_data]
  rfl

/-- There are no more tokens than bytes. -/
theorem length_le (h : ScansTo bytes tokens) : tokens.length ≤ bytes.size := by
  obtain ⟨lexemes, rfl, ho⟩ := h
  have hle := Unread.length_outcomes_le (.ofReadings (Reading.ofBytes bytes.toList))
  rw [ho, List.length_map] at hle
  rw [List.length_map, ← length_readings bytes]
  exact hle

/-- The tokens of a source are plain for its size. -/
theorem plain (h : ScansTo bytes tokens) {t : Token} (ht : t ∈ tokens) : t.Plain bytes.size := by
  obtain ⟨lexemes, rfl, ho⟩ := h
  obtain ⟨lx, hlx, rfl⟩ := List.mem_map.mp ht
  rw [← length_readings bytes]
  exact Unread.outcomes_plain (ho ▸ List.mem_map_of_mem hlx)

end ScansTo

end JackStack
