import JackStack.Proofs.Grammar.Completeness
import JackStack.Proofs.Grammar.Productions

/-!
# Recognising a whole source

Recognition of a source predicts classes. What it reports are always the first actions of a class,
also where it fails, and where it refuses a token it does so at the earliest place: what stands
before begins a class, and with the refused token it begins none.
-/

namespace JackStack

namespace Cursor

/-- The cursor in front of lexemes behind which no failure follows. -/
def inFrontOf (lexemes : List Lexeme) (finish : Position) : Cursor :=
  ⟨lexemes.head?, [], lexemes.tail.map .lexeme, finish⟩

/-- The cursor shows the lexemes that it was put in front of. -/
theorem shows_inFrontOf (lexemes : List Lexeme) (finish : Position) :
    (inFrontOf lexemes finish).Shows lexemes none finish := by
  cases lexemes with
  | nil => exact ⟨fun _ => rfl, rfl, rfl, rfl⟩
  | cons lx ls =>
    refine ⟨nofun, ?_, Outcome.flaw?_map ls, rfl⟩
    exact congrArg (lx :: ·) (Outcome.lexemes_map ls)

/-- Tokens that begin like those in front of a cursor are shown by a cursor that agrees with it.
Either so many lexemes stand there, or the tokens have come to their end as well. -/
theorem exists_agrees {c : Cursor} {k : Nat} {tokens : List Token}
    (h : tokens.take (k + 1) = c.tokens.take (k + 1)) :
    ∃ d, c.Agrees k d ∧ d.tokens = tokens := by
  let lexemes := c.lexemes.take (k + 1) ++ (tokens.drop (k + 1)).map (⟨·, .start⟩)
  have hshows := shows_inFrontOf lexemes c.finish
  have hfront : (c.lexemes.take (k + 1)).map (·.token) = tokens.take (k + 1) := by
    rw [h, Cursor.tokens, List.map_take]
  have htokens : lexemes.map (·.token) = tokens := by
    rw [List.map_append, hfront, List.map_map]
    have hid : (fun lx : Lexeme => lx.token) ∘ (⟨·, .start⟩ : Token → Lexeme) = id := rfl
    rw [hid, List.map_id, List.take_append_drop]
  have hnear : lexemes.take (k + 1) = c.lexemes.take (k + 1) := by
    rcases Nat.lt_or_ge k c.lexemes.length with hk | hk
    · have hlength : (c.lexemes.take (k + 1)).length = k + 1 := by
        rw [List.length_take]
        omega
      exact List.take_left' hlength
    · have hlength := congrArg List.length hfront
      rw [List.length_map, List.length_take, List.length_take] at hlength
      have hdrop : tokens.drop (k + 1) = [] := List.drop_eq_nil_of_le (by omega)
      simp only [lexemes, hdrop, List.map_nil, List.append_nil, List.take_take, Nat.min_self]
  refine ⟨inFrontOf lexemes c.finish, ⟨hshows.settled, hshows.flaw, hshows.finish, ?_⟩, ?_⟩
  · rw [hshows.lexemes, hnear]
  · rw [Cursor.tokens, hshows.lexemes, htokens]

end Cursor

namespace Syntax

open JackStack.Parser

/-- Recognition begins in front of the first outcome, or fails with it. -/
theorem parse_begins (outcomes : List Outcome) (finish : Position) :
    (∃ e rest, outcomes = .failure e :: rest ∧ parse outcomes finish = ⟨[], .error e⟩) ∨
    ∃ (drawn : List Lexeme) (c : Cursor), parse outcomes finish =
        ⟨drawn.map .scan ++ (program outcomes.length c).actions,
          (program outcomes.length c).outcome⟩ ∧
      c.Standing ∧ c.Shows (Outcome.lexemes outcomes) (Outcome.flaw? outcomes) finish := by
  rcases outcomes with _ | ⟨lx | e, rest⟩
  · have hadvance : advance (.before [] finish) = ⟨[], .ok ((), ⟨none, [], [], finish⟩)⟩ := rfl
    refine .inr ⟨[], _, bind_apply_of_ok hadvance _, ?_, ?_⟩
    · exact ⟨fun _ => rfl, fun _ => rfl⟩
    · exact ⟨fun _ => rfl, rfl, rfl, rfl⟩
  · have hadvance : advance (.before (.lexeme lx :: rest) finish) =
      ⟨[.scan lx], .ok ((), ⟨some lx, [], rest, finish⟩)⟩ := rfl
    refine .inr ⟨[lx], _, bind_apply_of_ok hadvance _, ?_, ?_⟩
    · exact ⟨nofun, fun h => absurd h (List.cons_ne_nil _ _)⟩
    · exact ⟨nofun, rfl, rfl, rfl⟩
  · have hadvance : advance (.before (.failure e :: rest) finish) = ⟨[], .error e⟩ := rfl
    exact .inl ⟨e, rest, rfl, bind_apply_of_error hadvance _⟩

/-- There are no more lexemes than outcomes. -/
theorem length_lexemes_le (outcomes : List Outcome) :
    (Outcome.lexemes outcomes).length ≤ outcomes.length := by
  induction outcomes with
  | nil => exact Nat.le_refl 0
  | cons o rest ih =>
    cases o with
    | lexeme lx => exact Nat.succ_le_succ ih
    | failure e => exact Nat.zero_le _

/-- Whatever a source holds, recognition reports the first actions of some class. -/
theorem parse_actions_begin (outcomes : List Outcome) (finish : Position) :
    ∃ c : Tree.Class, Action.unplaced (parse outcomes finish).actions <+: c.actions := by
  rcases parse_begins outcomes finish with ⟨e, rest, -, hparse⟩ | ⟨drawn, c, hparse, hc, hshows⟩
  · rw [hparse]
    exact ⟨⟨"", [], []⟩, List.nil_prefix⟩
  · have hlength : c.lexemes.length ≤ outcomes.length := by
      rw [hshows.lexemes]
      exact length_lexemes_le outcomes
    have hpredicts := program_predicts (Nat.le_refl outcomes.length) (Nat.le_refl outcomes.length)
    have hrun := hpredicts.run c hc hlength trivial
    rw [hparse, Action.unplaced_append, Action.unplaced_map_scan, List.nil_append]
    generalize program outcomes.length c = r at hrun
    cases hrun with
    | read _ _ _ _ _ _ phrase _ =>
      obtain ⟨tree, -, hactions⟩ := phrase
      exact ⟨tree, hactions ▸ List.prefix_refl _⟩
    | broken _ _ begun =>
      obtain ⟨-, acts, -, tree, -, hactions⟩ := begun
      exact ⟨tree, acts, hactions⟩
    | refused _ _ _ _ _ _ begun _ =>
      obtain ⟨-, acts, -, tree, -, hactions⟩ := begun
      exact ⟨tree, acts, hactions⟩

/-- Recognition fails where scanning fails, or by the grammar. -/
theorem flaw_or_syntactic_of_parse {outcomes : List Outcome} {finish : Position}
    {xs : List Action} {e : Error} (h : parse outcomes finish = ⟨xs, .error e⟩) :
    Outcome.flaw? outcomes = some e ∨ e.errorClass = .syntactic := by
  rcases parse_begins outcomes finish with ⟨e, rest, rfl, hparse⟩ | ⟨drawn, c, hparse, hc, hshows⟩
  · rw [hparse] at h
    cases h
    exact .inl rfl
  · have hlength : c.lexemes.length ≤ outcomes.length := by
      rw [hshows.lexemes]
      exact length_lexemes_le outcomes
    have hpredicts := program_predicts (Nat.le_refl outcomes.length) (Nat.le_refl outcomes.length)
    have hrun := hpredicts.run c hc hlength trivial
    rw [hparse] at h
    generalize program outcomes.length c = r at hrun h
    cases hrun with
    | read => cases h
    | broken flaw =>
      rw [hshows.flaw] at flaw
      cases h
      exact .inl flaw
    | refused =>
      cases h
      exact .inr rfl

/-- Where recognition refuses a token, the lexemes before it begin a class, and no class up to a
size, which may be any, begins with them and the refused one; at the end of the input they are
themselves no class. The grammar would read a whole class from there, since its limit is large
enough. -/
theorem parse_refuses {outcomes : List Outcome} {finish pos : Position} {xs : List Action}
    {expected : Expectation} {found : Option Token}
    (h : parse outcomes finish = ⟨xs, .error (.unexpectedToken pos expected found)⟩)
    (hflaw : ∀ e, Outcome.flaw? outcomes = some e → e.errorClass ≠ .syntactic) (size : Nat) :
    ∃ used rest : List Lexeme, Outcome.lexemes outcomes = used ++ rest ∧
      (rest = [] → Outcome.flaw? outcomes = none) ∧ pos = Cursor.placeOf finish rest ∧
      found = rest.head?.map (·.token) ∧ (∃ c : Tree.Class, used.map (·.token) <+: c.tokens) ∧
      ∀ c : Tree.Class, c.tokens.length ≤ size → c.tokens.take (used.length + 1) ≠
        ((used ++ rest).map (·.token)).take (used.length + 1) := by
  rcases parse_begins outcomes finish with ⟨e, rest, rfl, hparse⟩ | ⟨drawn, c, hparse, hc, hshows⟩
  · rw [hparse] at h
    cases h
    exact absurd rfl (hflaw _ rfl)
  have hlength : c.lexemes.length ≤ outcomes.length := by
    rw [hshows.lexemes]
    exact length_lexemes_le outcomes
  have hpredicts := program_predicts (Nat.le_refl outcomes.length)
    (Nat.le_add_right outcomes.length size)
  have hrun := hpredicts.run c hc hlength trivial
  rw [hparse] at h
  generalize program outcomes.length c = r at hrun h
  cases hrun with
  | read => cases h
  | broken flaw =>
    rw [hshows.flaw] at flaw
    cases h
    exact absurd rfl (hflaw _ flaw)
  | refused used rest _ split unbroken far begun again =>
    cases h
    rw [hshows.flaw] at unbroken
    refine ⟨used, rest, hshows.lexemes ▸ split, unbroken, by rw [hshows.finish], rfl, ?_, ?_⟩
    · obtain ⟨more, -, -, tree, htokens, -⟩ := begun
      exact ⟨tree, more, htokens⟩
    · intro tree htree hequal
      have htokens : tree.tokens.take (used.length + 1) = c.tokens.take (used.length + 1) := by
        rw [hequal, Cursor.tokens, split]
      obtain ⟨d, hd, hdtokens⟩ := Cursor.exists_agrees htokens
      obtain ⟨ys, e, hrefused⟩ := again d hd
      have hlimit : tree.tokens.length ≤ outcomes.length + size := Nat.le_add_left_of_le htree
      have hreads := program_readsAll tree hlimit
      rw [← hd.flaw, ← hdtokens] at hreads
      obtain ⟨zs, d', hread, -⟩ := hreads.eq_ok hd.settled
      rw [hread] at hrefused
      cases hrefused

end Syntax

end JackStack
