import JackStack.Proofs.Source.Lookahead
import JackStack.Proofs.Source.Scanning

/-!
# Where lexemes stand

Places are ordered by line and then by column. The lexemes of a source stand in this order and in
front of the end of the source, since every tile has at least one byte.
-/

namespace JackStack

namespace Position

/-- A place that comes earlier in a text. -/
def Before (p q : Position) : Prop := p.line < q.line ∨ p.line = q.line ∧ p.column < q.column

instance (p q : Position) : Decidable (p.Before q) :=
  inferInstanceAs (Decidable (p.line < q.line ∨ p.line = q.line ∧ p.column < q.column))

/-- No position is before itself. -/
theorem not_before_self (p : Position) : ¬p.Before p := by
  unfold Before
  omega

theorem Before.trans {p q r : Position} (hpq : p.Before q) (hqr : q.Before r) : p.Before r := by
  unfold Before at *
  omega

/-- Of two positions only one is before the other. -/
theorem Before.asymm {p q : Position} (h : p.Before q) : ¬q.Before p := by
  unfold Before at *
  omega

/-- Every byte moves the position on. -/
theorem before_step (p : Position) (b : UInt8) : p.Before (p.step b) := by
  unfold Before step
  split
  · exact .inl (Nat.lt_succ_self _)
  · exact .inr ⟨rfl, Nat.lt_succ_self _⟩

/-- Bytes lead to a later place. -/
theorem before_after {bytes : List UInt8} (h : bytes ≠ []) (p : Position) :
    p.Before (p.after bytes) := by
  induction bytes generalizing p with
  | nil => exact absurd rfl h
  | cons b rest ih =>
    have hstep := p.before_step b
    by_cases hrest : rest = []
    · rw [hrest]
      exact hstep
    · exact hstep.trans (ih hrest (p.step b))

end Position

/-- The lexemes stand one behind the other between two places, the first of which may be the place
of the first lexeme. -/
structure InOrder (start finish : Position) (lexemes : List Lexeme) : Prop where
  sorted : lexemes.Pairwise fun l m => l.pos.Before m.pos
  within : ∀ lx ∈ lexemes, ¬lx.pos.Before start ∧ lx.pos.Before finish

namespace Tile

/-- The lexeme of a tile stands where the tile begins. -/
theorem pos_of_outcome {t : Tile} {pos : Position} {lx : Lexeme}
    (h : t.outcome pos = some (.lexeme lx)) : lx.pos = pos := by
  cases t <;> cases h <;> rfl

/-- A failure of a tile is a lexical one. -/
theorem lexical_of_outcome {t : Tile} {pos : Position} {e : Error}
    (h : t.outcome pos = some (.failure e)) : e.errorClass = .lexical := by
  cases t <;> cases h <;> rfl

/-- Tiles fail by lexical errors only. -/
theorem outcomes_lexical {tiles : List Tile} {pos : Position} {e : Error}
    (h : .failure e ∈ outcomes pos tiles) : e.errorClass = .lexical := by
  induction tiles generalizing pos with
  | nil => exact absurd h List.not_mem_nil
  | cons t tiles ih =>
    rcases List.mem_append.mp h with hfirst | hrest
    · exact lexical_of_outcome (Option.mem_toList.mp hfirst)
    · exact ih hrest

/-- The lexemes of tiles stand in order, between where the tiles begin and where they end. -/
theorem outcomes_inOrder {tiles : List Tile} (h : ∀ t ∈ tiles, t.bytes ≠ []) (pos : Position) :
    InOrder pos (pos.after (tiles.flatMap bytes))
      ((outcomes pos tiles).filterMap Outcome.lexeme?) := by
  induction tiles generalizing pos with
  | nil => exact ⟨.nil, nofun⟩
  | cons t tiles ih =>
    obtain ⟨ht, htiles⟩ := List.forall_mem_cons.mp h
    have hbefore := Position.before_after ht pos
    have hrest := ih htiles (pos.after t.bytes)
    rw [← Position.after_append, ← List.flatMap_cons] at hrest
    have hbehind : ∀ lx ∈ (outcomes (pos.after t.bytes) tiles).filterMap Outcome.lexeme?,
        pos.Before lx.pos := by
      intro lx hlx
      have hlate := (hrest.within lx hlx).1
      unfold Position.Before at *
      omega
    have hwithin : ∀ lx ∈ (outcomes (pos.after t.bytes) tiles).filterMap Outcome.lexeme?,
        ¬lx.pos.Before pos ∧ lx.pos.Before (pos.after ((t :: tiles).flatMap bytes)) :=
      fun lx hlx => ⟨(hbehind lx hlx).asymm, (hrest.within lx hlx).2⟩
    rw [outcomes, List.filterMap_append]
    cases ho : t.outcome pos with
    | none => exact ⟨hrest.sorted, hwithin⟩
    | some o =>
      cases o with
      | failure e => exact ⟨hrest.sorted, hwithin⟩
      | lexeme first =>
        have hfirst := pos_of_outcome ho
        have hend : pos.Before (pos.after ((t :: tiles).flatMap bytes)) :=
          Position.before_after (by simp [ht]) pos
        refine ⟨List.pairwise_cons.mpr ⟨?_, hrest.sorted⟩, List.forall_mem_cons.mpr ⟨?_, hwithin⟩⟩
        · rw [hfirst]
          exact hbehind
        · rw [hfirst]
          exact ⟨pos.not_before_self, hend⟩

end Tile

namespace Unread

/-- The lexemes of a source stand in order in front of its end. -/
theorem lexemes_inOrder (bytes : List UInt8) :
    InOrder .start (Position.start.after bytes)
      ((ofReadings (Reading.ofBytes bytes)).outcomes.filterMap Outcome.lexeme?) := by
  obtain ⟨tiles, htiles⟩ := exists_tiling bytes
  have horder := Tile.outcomes_inOrder htiles.bytes_ne_nil .start
  rwa [htiles.flatMap_bytes, ← htiles.outcomes_eq .start] at horder

/-- Where reading does not fail, the failures of a source are lexical ones. -/
theorem failures_lexical {bytes : List UInt8} {e : Error}
    (h : .failure e ∈ (ofReadings (Reading.ofBytes bytes)).outcomes) : e.errorClass = .lexical := by
  obtain ⟨tiles, htiles⟩ := exists_tiling bytes
  have houtcomes := htiles.outcomes_eq .start
  exact Tile.outcomes_lexical (houtcomes ▸ h)

end Unread

/-- In front of the place of a lexeme stand exactly the lexemes before it. -/
theorem InOrder.countP_before {start finish : Position} {used rest : List Lexeme}
    (h : InOrder start finish (used ++ rest)) :
    (used ++ rest).countP (fun lx => lx.pos.Before ((rest.head?.map (·.pos)).getD finish)) =
      used.length := by
  obtain ⟨-, hrest, hcross⟩ := List.pairwise_append.mp h.sorted
  have hused : ∀ lx ∈ used, lx.pos.Before ((rest.head?.map (·.pos)).getD finish) := by
    intro lx hlx
    cases rest with
    | nil => exact (h.within lx (List.mem_append_left _ hlx)).2
    | cons first rest => exact hcross lx hlx first List.mem_cons_self
  have hothers : ∀ lx ∈ rest, ¬lx.pos.Before ((rest.head?.map (·.pos)).getD finish) := by
    intro lx hlx
    cases rest with
    | nil => exact absurd hlx List.not_mem_nil
    | cons first rest =>
      rcases List.mem_cons.mp hlx with rfl | hlx
      · exact lx.pos.not_before_self
      · exact ((List.pairwise_cons.mp hrest).1 lx hlx).asymm
  rw [List.countP_append, List.countP_eq_length.mpr, List.countP_eq_zero.mpr, Nat.add_zero]
  · intro lx hlx
    simpa using hothers lx hlx
  · intro lx hlx
    simpa using hused lx hlx

end JackStack
