import JackStack.Proofs.Grammar.Unlimited

/-!
# Recognition ends

Every production that is recognised leaves an end of the input, and most of them a proper one;
whatever is visited on the way has less input left or is a lower production. So the visits cannot go
on for ever, and the limits that the recognisers are given bound nothing: with them the recognisers
do what the grammar says without them.
-/

namespace JackStack.Syntax

open JackStack.Parser

/-- A visit is followed only by visits that come under it, and so by finitely many. -/
theorem visits_wellFounded {nested : Recognisers} (hkeep : ∀ x : Visit, nested.KeepAt x) :
    WellFounded fun x y : Visit => x ∈ y.production.plan.visits nested y.cursor :=
  Subrelation.wf (Visit.under_of_mem hkeep) Visit.under_wellFounded

/-- The number of outcomes is a limit that is never reached. -/
theorem parse_eq_unlimited (outcomes : List Outcome) (finish : Position) :
    parse outcomes finish =
      (do advance; unlimited .program : Parser Unit) (.before outcomes finish) := by
  unfold parse
  rcases hadvance : advance (.before outcomes finish) with ⟨actions, e | ⟨a, c⟩⟩
  · rw [bind_apply_of_error hadvance, bind_apply_of_error hadvance]
  · have hleaves := leaves_of_advance (congrArg Parse.outcome hadvance)
    have hremaining : c.remaining ≤ outcomes.length :=
      hleaves.remaining_le.trans_eq (Nat.zero_add outcomes.length)
    have hprogram : limited outcomes.length outcomes.length .program c = unlimited .program c :=
      limited_eq_unlimited hremaining
    rw [bind_apply_of_ok hadvance, bind_apply_of_ok hadvance, ← hprogram]
    rfl

/-- Recognition makes progress and ends. A production that is recognised leaves less of the input
than there was, or all of it where arguments, parameters or a loop are empty. What it visits on the
way has less of the input left than it had itself, or has the input that is left and is a lower
production, so that visits are well-founded. Hence the plans of the productions, in which nothing is
limited, can be followed in one way only, and this is what the recognisers do as soon as their
limits are not below the number of lexemes and outcomes that are left.

The recognisers know nothing but the cursor. The scopes, the kind of the subroutine and the number
of labels belong to the generator, which carries out what they report; whatever these are, they can
only cut a recognition short. -/
theorem recognition_progresses_and_ends :
    (∀ limit rounds p c v c', (limited limit rounds p c).outcome = .ok (v, c') → p.Leaves c c') ∧
    (∀ p c, unlimited p c = p.plan.run unlimited c ∧
      ∀ x ∈ p.plan.visits unlimited c,
        c.LeavesLess x.cursor ∨ c.Leaves x.cursor ∧ x.production.rank < p.rank) ∧
    (WellFounded fun x y : Visit => x ∈ y.production.plan.visits unlimited y.cursor) ∧
    (∀ nested : Recognisers, (∀ p c, nested p c = p.plan.run nested c) → nested = unlimited) ∧
    (∀ limit rounds p c, c.remaining ≤ limit → c.remaining ≤ rounds →
      limited limit rounds p c = unlimited p c) ∧
    ∀ outcomes finish, parse outcomes finish =
      (do advance; unlimited .program : Parser Unit) (.before outcomes finish) := by
  refine ⟨?_, ?_, visits_wellFounded unlimited_keeps, fun _ => eq_unlimited, ?_,
    parse_eq_unlimited⟩
  · intro limit rounds p c
    exact limited_keeps limit rounds ⟨p, c⟩
  · intro p c
    exact ⟨unlimited_eq p c, fun x hx => Visit.under_of_mem (y := ⟨p, c⟩) unlimited_keeps hx⟩
  · intro limit rounds p c hlimit hrounds
    exact limited_eq_unlimited (Production.enough_of_le hlimit fun _ => hrounds)

end JackStack.Syntax
