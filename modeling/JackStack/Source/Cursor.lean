import JackStack.Source.Lexing

/-!
# A cursor over the outcomes of a source

A cursor stands on a current lexeme. Looking ahead draws outcomes early and keeps their lexemes
aside; moving on takes from there first, so nothing is drawn twice. A failure met while moving on
leaves the current lexeme in place, and one met while looking ahead keeps what was already set
aside; in both cases the failed outcome is used up.
-/

namespace JackStack

/-- A place in the sequence of outcomes. -/
structure Cursor where
  /-- The lexeme the cursor stands on; none at the end of the input. -/
  current : Option Lexeme
  /-- Lexemes drawn by looking ahead, in order. -/
  ahead : List Lexeme
  /-- Outcomes that have not been drawn. -/
  pending : List Outcome
  /-- The position at the end of the input. -/
  finish : Position
  deriving DecidableEq, Repr

/-- What an operation on a cursor leaves behind. -/
structure Drawn (α : Type) where
  /-- The lexemes drawn from the pending outcomes, in order. -/
  lexemes : List Lexeme
  /-- The answer, or the failure that was drawn. -/
  result : Except Error α
  /-- The cursor afterwards. -/
  cursor : Cursor

namespace Cursor

/-- The cursor in front of the first outcome, standing on nothing yet. -/
def before (outcomes : List Outcome) (finish : Position) : Cursor := ⟨none, [], outcomes, finish⟩

/-- The token the cursor stands on. -/
def token (c : Cursor) : Option Token := c.current.map (·.token)

/-- The position of the current lexeme, or of the end of the input. -/
def pos (c : Cursor) : Position :=
  match c.current with
  | some lx => lx.pos
  | none => c.finish

/-- There is a current lexeme. -/
def hasMore (c : Cursor) : Bool := c.current.isSome

/-- Moves to the next lexeme and gives the token that it replaces. -/
def advance (c : Cursor) : Drawn (Option Token) :=
  match c.ahead with
  | lx :: rest => ⟨[], .ok c.token, { c with current := some lx, ahead := rest }⟩
  | [] =>
    match c.pending with
    | [] => ⟨[], .ok c.token, { c with current := none }⟩
    | .lexeme lx :: rest => ⟨[lx], .ok c.token, { c with current := some lx, pending := rest }⟩
    | .failure e :: rest => ⟨[], .error e, { c with pending := rest }⟩

/-- Draws up to a number of lexemes, stopping at a failure: the lexemes, the failure if one
stopped it, and the outcomes behind. -/
def draw : Nat → List Outcome → List Lexeme × Option Error × List Outcome
  | 0, pending => ([], none, pending)
  | _ + 1, [] => ([], none, [])
  | _ + 1, .failure e :: rest => ([], some e, rest)
  | n + 1, .lexeme lx :: rest =>
    let (lexemes, failure, left) := draw n rest
    (lx :: lexemes, failure, left)

/-- The token a number of places behind the current one, without moving; none when the input ends
before it, and always none at distance zero. -/
def peek (c : Cursor) (n : Nat) : Drawn (Option Token) :=
  let (lexemes, failure, left) := draw (n - c.ahead.length) c.pending
  let ahead := c.ahead ++ lexemes
  let result := match failure with
    | some e => .error e
    | none => .ok (if n = 0 then none else ahead[n - 1]?.map (·.token))
  ⟨lexemes, result, { c with ahead, pending := left }⟩

/-- An upper bound for the number of lexemes from the current one on. -/
def remaining (c : Cursor) : Nat := c.current.toList.length + c.ahead.length + c.pending.length

/-- What is drawn comes from the front, in order: the lexemes, then the failure if one stopped
it. -/
theorem draw_eq (n : Nat) (pending : List Outcome) :
    pending = (draw n pending).1.map .lexeme ++ (draw n pending).2.1.toList.map .failure ++
      (draw n pending).2.2 := by
  induction pending generalizing n with
  | nil => cases n <;> rfl
  | cons o rest ih =>
    cases n with
    | zero => rfl
    | succ n =>
      cases o with
      | failure e => rfl
      | lexeme lx =>
        simp only [draw, List.map_cons, List.cons_append, List.cons.injEq, true_and]
        exact ih n

end Cursor

end JackStack
