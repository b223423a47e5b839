import JackStack.Proofs.Delivery
import JackStack.Proofs.Grammar.Truncation

/-!
# Layout does not matter

Two sources with the same outcomes of scanning, apart from where these stand and up to the first
failure among them, are compiled to the same output and in the same way: either both succeed, or
both fail with the same failure at the same outcome.
-/

namespace JackStack

/-- A failure that has a place has the one that it is put at. -/
theorem Error.pos_withPos (e : Error) (p : Position) :
    (e.withPos p).pos = e.pos.map fun _ => p := by
  cases e <;> rfl

namespace Outcome

/-- The outcomes up to the first failure, which is included. -/
def untilFailure (outcomes : List Outcome) : List Outcome :=
  (lexemes outcomes).map .lexeme ++ (flaw? outcomes).toList.map .failure

/-- The outcome apart from where it stands. -/
def unplaced : Outcome → Outcome
  | lexeme lx => lexeme { lx with pos := .start }
  | failure e => failure (e.withPos .start)

/-- Where the outcome stands: a lexeme at its place, a failure at the place that it blames. -/
def pos? : Outcome → Option Position
  | lexeme lx => some lx.pos
  | failure e => e.pos

/-- Two outcomes that differ in their place only, at related places. -/
inductive Alike (S : Position → Position → Prop) : Outcome → Outcome → Prop where
  | lexeme {l m : Lexeme} (h : l.Alike S m) : Alike S (.lexeme l) (.lexeme m)
  | failure {e f : Error} (h : e.Alike S f) : Alike S (.failure e) (.failure f)

theorem lexemes_untilFailure (outcomes : List Outcome) :
    lexemes (untilFailure outcomes) = lexemes outcomes := by
  induction outcomes with
  | nil => rfl
  | cons o rest ih =>
    cases o with
    | lexeme lx => exact congrArg (lx :: ·) ih
    | failure e => rfl

theorem flaw?_untilFailure (outcomes : List Outcome) :
    flaw? (untilFailure outcomes) = flaw? outcomes := by
  induction outcomes with
  | nil => rfl
  | cons o rest ih =>
    cases o with
    | lexeme lx => exact ih
    | failure e => rfl

variable {S : Position → Position → Prop}

/-- The lexemes of alike outcomes are alike. -/
theorem lexemes_alike {xs ys : List Outcome} (h : List.Forall₂ (Alike S) xs ys) :
    List.Forall₂ (Lexeme.Alike S) (lexemes xs) (lexemes ys) := by
  induction h with
  | nil => exact .nil
  | cons hxy _ ih =>
    cases hxy with
    | lexeme h => exact .cons h ih
    | failure h => exact .nil

/-- The first failures of alike outcomes are alike. -/
theorem flaw?_alike {xs ys : List Outcome} (h : List.Forall₂ (Alike S) xs ys) :
    Option.Rel (Error.Alike S) (flaw? xs) (flaw? ys) := by
  induction h with
  | nil => exact .none
  | cons hxy _ ih =>
    cases hxy with
    | lexeme h => exact ih
    | failure h => exact .some h

/-- Outcomes that are the same apart from their places are alike. -/
theorem alike_of_unplaced {x y : Outcome} (h : x.unplaced = y.unplaced)
    (hplaces : ∀ {p q : Position}, x.pos? = some p → y.pos? = some q → S p q) : x.Alike S y := by
  rcases x with lx | e <;> rcases y with ly | f
  · have htoken : lx.token = ly.token := (Lexeme.mk.inj (lexeme.inj h)).1
    exact .lexeme ⟨htoken, hplaces rfl rfl⟩
  · cases h
  · cases h
  · have hcause : e.withPos .start = f.withPos .start := failure.inj h
    have hpos := congrArg Error.pos hcause
    rw [Error.pos_withPos, Error.pos_withPos] at hpos
    refine .failure ⟨hcause, ?_⟩
    change ∀ {p q}, e.pos = some p → f.pos = some q → S p q at hplaces
    cases he : e.pos <;> cases hf : f.pos <;> rw [he, hf] at hpos
    · exact .none
    · cases hpos
    · cases hpos
    · exact .some (hplaces he hf)

end Outcome

/-! ## The same places -/

/-- Places of two sources that belong together: those of outcomes with the same number, or those of
the ends. -/
inductive SamePlace (xs ys : List Outcome) (finish finish' : Position) :
    Position → Position → Prop where
  | outcome (i : Nat) {p q : Position} (left : xs[i]?.bind Outcome.pos? = some p)
      (right : ys[i]?.bind Outcome.pos? = some q) : SamePlace xs ys finish finish' p q
  | finish : SamePlace xs ys finish finish' finish finish'

/-- Outcomes that are the same apart from where they stand are alike. -/
theorem outcomes_alike {xs ys : List Outcome}
    (h : xs.map Outcome.unplaced = ys.map Outcome.unplaced) (finish finish' : Position) :
    List.Forall₂ (Outcome.Alike (SamePlace xs ys finish finish')) xs ys := by
  have hlength : xs.length = ys.length := by simpa using congrArg List.length h
  rw [List.forall₂_iff_get]
  refine ⟨hlength, ?_⟩
  intro i hx hy
  have hunplaced : (xs.get ⟨i, hx⟩).unplaced = (ys.get ⟨i, hy⟩).unplaced := by
    have hget := congrArg (·[i]?) h
    simpa [hx, hy] using hget
  have hplaces : ∀ {p q : Position}, (xs.get ⟨i, hx⟩).pos? = some p →
      (ys.get ⟨i, hy⟩).pos? = some q → SamePlace xs ys finish finish' p q := by
    intro p q hp hq
    refine .outcome i ?_ ?_
    · rwa [List.getElem?_eq_getElem hx]
    · rwa [List.getElem?_eq_getElem hy]
  exact Outcome.alike_of_unplaced hunplaced hplaces

/-! ## Alike sources -/

namespace Syntax

open JackStack.Generator

variable {S : Position → Position → Prop} {xs ys : List Outcome} {finish finish' : Position}

/-- Recognition of sources with alike outcomes. The one ends before its first token exactly where
the other does, by the failure with which both sources begin. -/
theorem parse_alike (h : List.Forall₂ (Outcome.Alike S) xs ys) (hfinish : S finish finish') :
    Action.ListAlike S (parse xs finish).actions (parse ys finish').actions ∧
      EndsAlike S ((parse xs finish).outcome.map fun _ => ())
        ((parse ys finish').outcome.map fun _ => ()) := by
  have hflaw := Outcome.flaw?_alike h
  rcases parse_begins xs finish with ⟨e, rest, rfl, hparse⟩ | ⟨drawn, c, hparse, hc, hshows⟩
  · cases h with
    | @cons _ _ _ rest' hxy _ =>
      cases hxy with
      | @failure _ f he =>
        have hparse' : parse (.failure f :: rest') finish' = ⟨[], .error f⟩ := rfl
        rw [hparse, hparse']
        exact ⟨.nil, .error he⟩
  rcases parse_begins ys finish' with ⟨f, rest, rfl, -⟩ | ⟨drawn', d, hparse', hd, hshows'⟩
  · have hnil : c.lexemes = [] := by
      rw [hshows.lexemes]
      exact List.forall₂_nil_right_iff.mp (Outcome.lexemes_alike h)
    rw [← hshows.flaw, hc.unbroken hnil] at hflaw
    cases hflaw
  have halike : c.Alike S d := by
    refine ⟨hc.settled, hd.settled, ?_, ?_, ?_⟩
    · rw [hshows.lexemes, hshows'.lexemes]
      exact Outcome.lexemes_alike h
    · rwa [hshows.flaw, hshows'.flaw]
    · rwa [hshows.finish, hshows'.finish]
  have hrun := (program_alike xs.length).run halike
  rw [hparse, hparse', ← h.length_eq]
  simp only [Action.ListAlike, Action.withoutScans_append, Action.withoutScans_map_scan,
    List.nil_append]
  generalize program xs.length c = r, program xs.length d = r' at hrun ⊢
  cases hrun with
  | ok actions _ _ => exact ⟨actions, .ok ()⟩
  | error actions errors => exact ⟨actions, .error errors⟩

/-- What stands behind the first failure is of no consequence. -/
theorem parse_alike_untilFailure
    (h : List.Forall₂ (Outcome.Alike S) (Outcome.untilFailure xs) (Outcome.untilFailure ys))
    (hfinish : S finish finish') :
    Action.ListAlike S (parse xs finish).actions (parse ys finish').actions ∧
      EndsAlike S ((parse xs finish).outcome.map fun _ => ())
        ((parse ys finish').outcome.map fun _ => ()) := by
  have huntil : ∀ (zs : List Outcome) (p : Position),
      Same (parse (Outcome.untilFailure zs) p) (parse zs p) := fun zs p =>
    parse_eq_of_lexemes (Outcome.lexemes_untilFailure zs) (Outcome.flaw?_untilFailure zs)
      fun _ => rfl
  obtain ⟨hxs, hxs'⟩ := huntil xs finish
  obtain ⟨hys, hys'⟩ := huntil ys finish'
  have halike := parse_alike h hfinish
  rwa [Action.ListAlike, hxs, hys, hxs', hys'] at halike

end Syntax

/-- Runs that recognise alike emit the same and end alike. -/
theorem Run.ofReadings_alike {S : Position → Position → Prop} {readings readings' : List Reading}
    (h : List.Forall₂ (Outcome.Alike S)
      (Outcome.untilFailure (Unread.ofReadings readings).outcomes)
      (Outcome.untilFailure (Unread.ofReadings readings').outcomes))
    (hfinish : S (Unread.ofReadings readings).finish (Unread.ofReadings readings').finish) :
    Event.instructions (Run.ofReadings readings).events =
        Event.instructions (Run.ofReadings readings').events ∧
      Generator.EndsAlike S (Run.ofReadings readings).verdict
        (Run.ofReadings readings').verdict := by
  obtain ⟨hactions, hends⟩ := Syntax.parse_alike_untilFailure h hfinish
  obtain ⟨hinstructions, hcarried⟩ := Generator.run_alike hactions {}
  exact ⟨hinstructions, hcarried.bind fun _ => hends⟩

/-- Compilation does not depend on layout. For two sources whose outcomes of scanning are the same
up to the first failure, apart from where they stand, the output is the same, and the compilations
both succeed or both fail with the same failure, whose places belong together. -/
theorem compile_layout_irrelevant {bytes bytes' : ByteArray}
    (h : let source := Unread.ofReadings (Reading.ofBytes bytes.toList)
      let source' := Unread.ofReadings (Reading.ofBytes bytes'.toList)
      (Outcome.untilFailure source.outcomes).map Outcome.unplaced =
        (Outcome.untilFailure source'.outcomes).map Outcome.unplaced)
    (sink : Sink) (options : Options) :
    let source := Unread.ofReadings (Reading.ofBytes bytes.toList)
    let source' := Unread.ofReadings (Reading.ofBytes bytes'.toList)
    let report := compile (Reading.ofBytes bytes.toList) sink options
    let report' := compile (Reading.ofBytes bytes'.toList) sink options
    report.output = report'.output ∧
      Generator.EndsAlike (SamePlace (Outcome.untilFailure source.outcomes)
          (Outcome.untilFailure source'.outcomes) source.finish source'.finish)
        report.verdict report'.verdict := by
  intro source source' report report'
  obtain ⟨hcode, hverdict⟩ := Run.ofReadings_alike
    (outcomes_alike h source.finish source'.finish) .finish
  exact Run.deliver_alike hcode hverdict sink options

/-- A class on one line, in which a name is not declared. -/
def narrowText : String :=
  "class A \x7b function void f() \x7b return; \x7d function void g() \x7b let x=1; \x7d \x7d"

/-- The same class with comments and on several lines. -/
def wideText : String :=
  "/* A class. */
  class A \x7b
    function void f() \x7b return; \x7d
    function void g() \x7b
      let x // is not declared
        = 1;
    \x7d
  \x7d"

theorem narrowText_wideText_outcomes :
    (Outcome.untilFailure (Unread.ofReadings
        (Reading.ofBytes narrowText.toUTF8.toList)).outcomes).map Outcome.unplaced =
      (Outcome.untilFailure (Unread.ofReadings
        (Reading.ofBytes wideText.toUTF8.toList)).outcomes).map Outcome.unplaced := by
  rw [ScansTo.toList_eq_data, ScansTo.toList_eq_data]
  decide +kernel

/-- Both layouts fail at the name that is not declared and behind the same output. -/
theorem narrowText_wideText_alike :
    (Outcome.untilFailure (Unread.ofReadings
        (Reading.ofBytes narrowText.toUTF8.toList)).outcomes).map Outcome.unplaced =
      (Outcome.untilFailure (Unread.ofReadings
        (Reading.ofBytes wideText.toUTF8.toList)).outcomes).map Outcome.unplaced ∧
    (compile (Reading.ofBytes narrowText.toUTF8.toList) {} {}).output =
      (compile (Reading.ofBytes wideText.toUTF8.toList) {} {}).output ∧
    (compile (Reading.ofBytes narrowText.toUTF8.toList) {} {}).verdict =
      .error (.undefined ⟨1, 65⟩ "x") ∧
    ∃ p, (compile (Reading.ofBytes wideText.toUTF8.toList) {} {}).verdict =
      .error (.undefined p "x") := by
  have hverdict : (compile (Reading.ofBytes narrowText.toUTF8.toList) {} {}).verdict =
      .error (.undefined ⟨1, 65⟩ "x") := by
    rw [ScansTo.toList_eq_data]
    rfl
  obtain ⟨houtput, hends⟩ := compile_layout_irrelevant narrowText_wideText_outcomes {} {}
  refine ⟨narrowText_wideText_outcomes, houtput, hverdict, ?_⟩
  rw [hverdict] at hends
  generalize (compile (Reading.ofBytes wideText.toUTF8.toList) {} {}).verdict = verdict at hends
  cases hends with
  | @error _ f errors =>
    obtain ⟨hcause, -⟩ := errors
    cases f <;> cases hcause
    exact ⟨_, rfl⟩

end JackStack
