import JackStack.Proofs.Source.Places

/-!
# Positions are exact

The position of a byte is determined by its offset: the line counts the line feeds before it, the
column the bytes behind the last of these. Whatever is asked of a cursor, its position is the one of
the first byte of the current token, or that of the end of the source, and every lexical failure
carries the position of what it blames.
-/

namespace JackStack

/-! ## Positions by offset -/

namespace Position

/-- The position of the byte at an offset: behind as many line feeds as stand before it, and as many
bytes behind the last of them, or behind the start. -/
def ofOffset (bytes : List UInt8) (offset : Nat) : Position :=
  let before := bytes.take offset
  ⟨1 + before.count 10, 1 + (before.reverse.takeWhile (· ≠ 10)).length⟩

/-- Stepping over bytes one by one leads to the position of their end. -/
theorem start_after (bytes : List UInt8) :
    start.after bytes = ⟨1 + bytes.count 10, 1 + (bytes.reverse.takeWhile (· ≠ 10)).length⟩ := by
  induction bytes using List.reverseRecOn with
  | nil => rfl
  | append_singleton bytes b ih =>
    rw [after_append, ih, after_cons, after_nil, step, List.count_append, List.reverse_append,
      List.reverse_singleton, List.singleton_append, List.takeWhile_cons]
    by_cases hb : b = 10
    · simp [hb, Nat.add_comm]
    · simp [hb, Nat.add_comm]

/-- The position at an offset is the one behind the bytes before it. -/
theorem ofOffset_eq (bytes : List UInt8) (offset : Nat) :
    ofOffset bytes offset = start.after (bytes.take offset) :=
  (start_after _).symm

theorem ofOffset_append_length (front back : List UInt8) :
    ofOffset (front ++ back) front.length = start.after front := by
  rw [ofOffset_eq, List.take_left]

theorem ofOffset_length (bytes : List UInt8) : ofOffset bytes bytes.length = start.after bytes := by
  rw [ofOffset_eq, List.take_length]

end Position

/-! ## Offsets of tiles -/

namespace Tile

/-- Tiles one after the other, each with the offset of its first byte. -/
def spots : Nat → List Tile → List (Nat × Tile)
  | _, [] => []
  | offset, t :: tiles => (offset, t) :: spots (offset + t.bytes.length) tiles

/-- The tokens among tiles, each with the offset of its first byte. -/
def tokensAt (tiles : List Tile) : List (Nat × Token) :=
  (spots 0 tiles).filterMap fun s => s.2.token?.map (s.1, ·)

/-- The offsets of the tiles that are flaws. -/
def flawsAt (tiles : List Tile) : List Nat := ((spots 0 tiles).filter (·.2.isFlaw)).map (·.1)

/-- The bytes of a tile stand at its offset. -/
theorem drop_of_mem_spots {tiles : List Tile} (front : List UInt8) {s : Nat × Tile}
    (h : s ∈ spots front.length tiles) :
    ∃ rest, (front ++ tiles.flatMap bytes).drop s.1 = s.2.bytes ++ rest := by
  induction tiles generalizing front with
  | nil => exact absurd h List.not_mem_nil
  | cons t tiles ih =>
    rw [List.flatMap_cons]
    rcases List.mem_cons.mp h with rfl | hrest
    · exact ⟨_, List.drop_left⟩
    · rw [← List.length_append] at hrest
      rw [← List.append_assoc]
      exact ih _ hrest

/-- The outcomes of tiles are those of each tile at the position of its offset. -/
theorem outcomes_eq_filterMap (front : List UInt8) (tiles : List Tile) :
    outcomes (Position.start.after front) tiles = (spots front.length tiles).filterMap fun s =>
      s.2.outcome (.ofOffset (front ++ tiles.flatMap bytes) s.1) := by
  induction tiles generalizing front with
  | nil => rfl
  | cons t tiles ih =>
    rw [outcomes, spots, List.filterMap_cons, List.flatMap_cons, Position.ofOffset_append_length,
      ← Position.after_append, ih (front ++ t.bytes), List.length_append, List.append_assoc]
    cases t.outcome (Position.start.after front) <;> rfl

/-- A tile gives a lexeme where it has a token, at its own position. -/
theorem lexeme?_outcome (t : Tile) (pos : Position) :
    (t.outcome pos).bind Outcome.lexeme? = t.token?.map (⟨·, pos⟩) := by
  cases t <;> rfl

end Tile

/-- The failure carries the position of an offset, and what it blames stands there: the byte that
begins nothing, the opening quote, or the two bytes that begin a comment. -/
def Error.BlamesAt (bytes : List UInt8) (offset : Nat) : Error → Prop
  | .unexpectedChar p c =>
    p = .ofOffset bytes offset ∧ ∃ b, bytes[offset]? = some b ∧ c = byteChar b
  | .invalidString p | .unterminatedString p =>
    p = .ofOffset bytes offset ∧ bytes[offset]? = some 34
  | .unterminatedComment p =>
    p = .ofOffset bytes offset ∧ bytes[offset]? = some 47 ∧ bytes[offset + 1]? = some 42
  | _ => False

namespace Tile

/-- A flaw gives a failure that blames it, and no other tile gives a failure. -/
theorem failure?_outcome {t : Tile} {source rest : List UInt8} {offset : Nat}
    (h : source.drop offset = t.bytes ++ rest) :
    if t.isFlaw then
      ∃ e, (t.outcome (.ofOffset source offset)).bind Outcome.failure? = some e ∧
        e.BlamesAt source offset
    else (t.outcome (.ofOffset source offset)).bind Outcome.failure? = none := by
  have hbyte : ∀ k, source[offset + k]? = (t.bytes ++ rest)[k]? := by
    intro k
    rw [← h, List.getElem?_drop]
  have hfirst := hbyte 0
  have hsecond := hbyte 1
  cases t with
  | stray b => exact ⟨_, rfl, rfl, b, hfirst, rfl⟩
  | garbled content => exact ⟨_, rfl, rfl, hfirst⟩
  | openText content => exact ⟨_, rfl, rfl, hfirst⟩
  | openComment body => exact ⟨_, rfl, rfl, hfirst, hsecond⟩
  | _ => rfl

end Tile

namespace Tiling

variable {tiles : List Tile} {bytes : List UInt8}

/-- The outcomes are those of the tiles, each at its offset. -/
theorem outcomes_eq_spots (h : Tiling tiles bytes) :
    (Unread.ofReadings (Reading.ofBytes bytes)).outcomes = (Tile.spots 0 tiles).filterMap fun s =>
      s.2.outcome (.ofOffset bytes s.1) := by
  have houtcomes := Tile.outcomes_eq_filterMap [] tiles
  rw [List.nil_append, h.flatMap_bytes] at houtcomes
  exact (h.outcomes_eq .start).trans houtcomes

/-- The lexemes of a source are its tokens, each at the position of its first byte. -/
theorem lexemes_eq (h : Tiling tiles bytes) :
    (Unread.ofReadings (Reading.ofBytes bytes)).outcomes.filterMap Outcome.lexeme? =
      (Tile.tokensAt tiles).map fun s => ⟨s.2, .ofOffset bytes s.1⟩ := by
  rw [h.outcomes_eq_spots, Tile.tokensAt, List.filterMap_filterMap, List.map_filterMap]
  congr 1
  funext s
  rw [Tile.lexeme?_outcome, Option.map_map]
  rfl

/-- The failures of a source blame its flaws, in order. -/
theorem failures_blame (h : Tiling tiles bytes) :
    List.Forall₂ (fun e offset => e.BlamesAt bytes offset)
      ((Unread.ofReadings (Reading.ofBytes bytes)).outcomes.filterMap Outcome.failure?)
      (Tile.flawsAt tiles) := by
  have hdrop : ∀ s ∈ Tile.spots 0 tiles, ∃ rest, bytes.drop s.1 = s.2.bytes ++ rest := by
    intro s hs
    have hstands := Tile.drop_of_mem_spots [] hs
    rwa [List.nil_append, h.flatMap_bytes] at hstands
  rw [h.outcomes_eq_spots, Tile.flawsAt, List.filterMap_filterMap]
  generalize Tile.spots 0 tiles = spots at hdrop
  induction spots with
  | nil => exact .nil
  | cons s spots ih =>
    obtain ⟨⟨rest, hs⟩, hspots⟩ := List.forall_mem_cons.mp hdrop
    have hflaw := Tile.failure?_outcome hs
    cases hcase : s.2.isFlaw with
    | true =>
      rw [if_pos hcase] at hflaw
      obtain ⟨e, he, hblames⟩ := hflaw
      rw [List.filterMap_cons, he, List.filter_cons, if_pos hcase]
      exact .cons hblames (ih hspots)
    | false =>
      have hsound : ¬ s.2.isFlaw = true := by
        rw [hcase]
        exact Bool.false_ne_true
      rw [if_neg hsound] at hflaw
      rw [List.filterMap_cons, hflaw, List.filter_cons, if_neg hsound]
      exact ih hspots

end Tiling

/-! ## How far scanning has come -/

namespace Unread

/-- What is behind some outcomes is reached. -/
theorem reaches_behind (k : Nat) (u : Unread) : u.Reaches (u.behind k) := by
  induction k generalizing u with
  | zero => exact .refl u
  | succ k ih => exact u.next_reaches.trans (ih u.next.2)

/-- What is left to read is some end of the source, at the position where it begins. -/
theorem exists_offset_of_reaches {bytes : List UInt8} {u : Unread}
    (h : (ofReadings (Reading.ofBytes bytes)).Reaches u) :
    ∃ offset ≤ bytes.length, u.readings = Reading.ofBytes (bytes.drop offset) ∧
      u.pos = .ofOffset bytes offset := by
  obtain ⟨front, hreadings, hpos⟩ := h
  change Reading.ofBytes bytes = front ++ u.readings at hreadings
  obtain ⟨taken, left, rfl, rfl, hleft⟩ := List.map_eq_append_iff.mp hreadings
  refine ⟨taken.length, by simp, ?_, ?_⟩
  · rw [List.drop_left]
    exact hleft.symm
  · rw [hpos, Position.ofOffset_append_length]
    exact congrArg _ (Reading.bytes_ofBytes taken)

/-- Behind the last outcome nothing is left to read once the end has been seen. -/
theorem readings_behind_eq_nil {u : Unread} {k : Nat} (h : u.outcomes.length < k) :
    (u.behind k).readings = [] := by
  induction k generalizing u with
  | zero => exact absurd h (Nat.not_lt_zero _)
  | succ k ih =>
    rcases hu : u.next with ⟨_ | o, u'⟩
    · have hnil : u.next.2.readings = [] :=
        readings_eq_nil_of_nextFrom_none (congrArg Prod.fst hu)
      have hlength := (u.next.2.reaches_behind k).length_le
      rw [hnil, List.length_nil] at hlength
      exact List.eq_nil_of_length_eq_zero (Nat.le_zero.mp hlength)
    · rw [outcomes_of_next_some hu, List.length_cons] at h
      rw [behind, hu]
      exact ih (Nat.lt_of_succ_lt_succ h)

/-- Once the end has been seen, scanning is at the position of the end of the input. -/
theorem pos_behind_eq_finish {u : Unread} {k : Nat} (h : u.outcomes.length < k) :
    (u.behind k).pos = u.finish := by
  have hfinish := (u.reaches_behind k).finish_eq
  rwa [finish, readings_behind_eq_nil h] at hfinish

end Unread

/-! ## Cursors -/

namespace Cursor

/-- Moving on does not change where the source ends. -/
@[simp] theorem finish_advance (c : Cursor) : c.advance.cursor.finish = c.finish := by
  unfold advance
  split
  · rfl
  · split <;> rfl

/-- Looking ahead does not change where the source ends. -/
@[simp] theorem finish_peek (c : Cursor) (n : Nat) : (c.peek n).cursor.finish = c.finish := rfl

/-- Moves leave the end of the input where it is. -/
theorem finish_walk (c : Cursor) (moves : List Move) :
    (c.walk moves).cursor.finish = c.finish := by
  induction moves generalizing c with
  | nil => rfl
  | cons m rest ih =>
    cases m with
    | advance =>
      have hrest := ih c.advance.cursor
      rw [finish_advance] at hrest
      rw [walk]
      split <;> exact hrest
    | peek n =>
      have hrest := ih (c.peek n).cursor
      rw [finish_peek] at hrest
      rw [walk]
      split <;> exact hrest

/-- Moves in a source that was opened account for the outcomes from the first one on. -/
theorem walk_opening_accounts {readings : List Reading} {t : Option Token}
    (h : (opening readings).result = .ok t) (moves : List Move) :
    let walked := (opening readings).cursor.walk moves
    ∃ drawn, (Unread.ofReadings readings).outcomes = drawn ++ walked.cursor.pending ∧
      drawn.filterMap Outcome.lexeme? =
        walked.replaced ++ walked.cursor.current.toList ++ walked.cursor.ahead ∧
      drawn.filterMap Outcome.failure? = walked.failures := by
  have haccounts := (before (Unread.ofReadings readings).outcomes
    (Unread.ofReadings readings).finish).walk_accounts (.advance :: moves)
  rw [walk_advance_ok h] at haccounts
  exact haccounts

end Cursor

/-- Positions are exact. A source has a tiling, which tells the offset of each of its tokens and
flaws; scanning is always at the position of the first byte that it has not taken; a cursor is at
the position of the current token, which is the one behind those that were replaced, or of the end
of the source, whatever was asked of it; the end it is given is where scanning has come once the end
has been seen; its failures blame the flaws of the source in order; and the tokens stand at
increasing positions. -/
theorem scanned_positions_exact (bytes : List UInt8) :
    ∃ tiles, Tiling tiles bytes ∧
      let source := Unread.ofReadings (Reading.ofBytes bytes)
      let opened := Cursor.opening (Reading.ofBytes bytes)
      (∀ k, ∃ offset ≤ bytes.length,
        (source.behind k).readings = Reading.ofBytes (bytes.drop offset) ∧
        (source.behind k).pos = .ofOffset bytes offset ∧
        (source.outcomes.length < k → offset = bytes.length)) ∧
      (∀ e, opened.result = .error e →
        ∃ offset, (Tile.flawsAt tiles).head? = some offset ∧ e.BlamesAt bytes offset) ∧
      (∀ t, opened.result = .ok t → ∀ moves,
        let walked := opened.cursor.walk moves
        (∀ token, walked.cursor.token = some token → ∃ offset,
          (Tile.tokensAt tiles)[walked.replaced.length]? = some (offset, token) ∧
          walked.cursor.pos = .ofOffset bytes offset) ∧
        (walked.cursor.token = none → walked.cursor.pos = .ofOffset bytes bytes.length) ∧
        (∀ k, source.outcomes.length < k → walked.cursor.finish = (source.behind k).pos) ∧
        List.Forall₂ (fun e offset => e.BlamesAt bytes offset) walked.failures
          ((Tile.flawsAt tiles).take walked.failures.length)) ∧
      (source.outcomes.filterMap Outcome.lexeme?).Pairwise fun l m => l.pos.Before m.pos := by
  obtain ⟨tiles, htiles⟩ := exists_tiling bytes
  refine ⟨tiles, htiles, ?_, ?_, ?_, (Unread.lexemes_inOrder bytes).sorted⟩
  · intro k
    have hreaches := Unread.reaches_behind k (.ofReadings (Reading.ofBytes bytes))
    obtain ⟨offset, hle, hreadings, hpos⟩ := Unread.exists_offset_of_reaches hreaches
    refine ⟨offset, hle, hreadings, hpos, fun hk => ?_⟩
    rw [Unread.readings_behind_eq_nil hk] at hreadings
    have hdrop := List.drop_eq_nil_iff.mp (List.map_eq_nil_iff.mp hreadings.symm)
    omega
  · intro e he
    have hblame := htiles.failures_blame
    rcases Cursor.advance_cases (.before (Unread.ofReadings (Reading.ofBytes bytes)).outcomes
      (Unread.ofReadings (Reading.ofBytes bytes)).finish) with
      ⟨-, -, -, -, hok, -⟩ | ⟨e', left, -, hfirst, herror, -⟩
    · rw [Cursor.opening, hok] at he
      cases he
    · rw [Cursor.opening, herror] at he
      cases he
      change (Unread.ofReadings (Reading.ofBytes bytes)).outcomes = _ at hfirst
      rw [hfirst, List.filterMap_cons] at hblame
      generalize Tile.flawsAt tiles = flaws at hblame
      cases hblame with
      | cons hfirst' _ => exact ⟨_, rfl, hfirst'⟩
  · intro t ht moves walked
    obtain ⟨drawn, houtcomes, hlexemes, hfailures⟩ := Cursor.walk_opening_accounts ht moves
    have hfinish : walked.cursor.finish = (Unread.ofReadings (Reading.ofBytes bytes)).finish := by
      rw [Cursor.finish_walk, Cursor.opening, Cursor.finish_advance]
      rfl
    refine ⟨?_, ?_, ?_, ?_⟩
    · intro token htoken
      obtain ⟨lx, hcurrent, rfl⟩ := Option.map_eq_some_iff.mp htoken
      have hget : (((Tile.tokensAt tiles).map fun s => (⟨s.2, .ofOffset bytes s.1⟩ : Lexeme)))[
          walked.replaced.length]? = some lx := by
        rw [← htiles.lexemes_eq, houtcomes, List.filterMap_append, hlexemes]
        change (walked.replaced ++ walked.cursor.current.toList ++ walked.cursor.ahead ++ _)[_]? = _
        rw [hcurrent]
        simp
      rw [List.getElem?_map] at hget
      obtain ⟨⟨offset, token⟩, hspot, rfl⟩ := Option.map_eq_some_iff.mp hget
      refine ⟨offset, hspot, ?_⟩
      rw [Cursor.pos, hcurrent]
    · intro hnone
      have hcurrent : walked.cursor.current = none := Option.map_eq_none_iff.mp hnone
      rw [Cursor.pos, hcurrent, Position.ofOffset_length]
      change walked.cursor.finish = _
      rw [hfinish]
      exact congrArg _ (Reading.bytes_ofBytes bytes)
    · intro k hk
      rw [hfinish, Unread.pos_behind_eq_finish hk]
    · have hblame := htiles.failures_blame
      rw [houtcomes, List.filterMap_append, hfailures] at hblame
      have htake := List.forall₂_take walked.failures.length hblame
      rwa [List.take_left] at htake

end JackStack
