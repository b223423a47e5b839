import JackStack.Syntax.Action

/-!
# Recognisers

A recogniser moves a cursor and reports actions. It ends with a value and the cursor behind what it
recognised, or with a failure; the actions reported before a failure are kept, because they have
already taken effect by then.
-/

namespace JackStack

/-- How a recogniser ended. -/
structure Parse (α : Type) where
  /-- The actions reported, in order. -/
  actions : List Action
  /-- The value and the cursor behind it, or the failure. -/
  outcome : Except Error (α × Cursor)

/-- The parse with actions reported before it. -/
def Parse.after {α : Type} (actions : List Action) (p : Parse α) : Parse α :=
  match p.actions with
  | [] => { p with actions }
  | more => { p with actions := actions ++ more }

/-- What was reported before stands in front; the outcome is the same. -/
@[simp] theorem Parse.after_eq {α : Type} (actions : List Action) (p : Parse α) :
    p.after actions = ⟨actions ++ p.actions, p.outcome⟩ := by
  unfold Parse.after
  split
  · next h => rw [h, List.append_nil]
  · rfl

/-- A recogniser. -/
def Parser (α : Type) : Type := Cursor → Parse α

namespace Parser

variable {α β : Type}

/-- Recognises nothing. -/
protected def pure (a : α) : Parser α := fun c => ⟨[], .ok (a, c)⟩

/-- One recogniser and then another, which may depend on the first one's value. -/
protected def bind (p : Parser α) (f : α → Parser β) : Parser β := fun c =>
  match p c with
  | ⟨actions, .error e⟩ => ⟨actions, .error e⟩
  | ⟨actions, .ok (a, c')⟩ => (f a c').after actions

instance : Monad Parser where
  pure := Parser.pure
  bind := Parser.bind

/-- A value is given without any action, and the cursor stays. -/
@[simp] theorem pure_apply (a : α) (c : Cursor) : (pure a : Parser α) c = ⟨[], .ok (a, c)⟩ := rfl

/-- What follows a success goes on from its cursor. -/
theorem bind_apply_of_ok {p : Parser α} {c c' : Cursor} {actions : List Action} {a : α}
    (h : p c = ⟨actions, .ok (a, c')⟩) (f : α → Parser β) :
    (p >>= f) c = ⟨actions ++ (f a c').actions, (f a c').outcome⟩ := by
  change Parser.bind p f c = _
  rw [Parser.bind, h]
  exact Parse.after_eq actions (f a c')

/-- Nothing follows a failure. -/
theorem bind_apply_of_error {p : Parser α} {c : Cursor} {actions : List Action} {e : Error}
    (h : p c = ⟨actions, .error e⟩) (f : α → Parser β) : (p >>= f) c = ⟨actions, .error e⟩ := by
  change Parser.bind p f c = _
  rw [Parser.bind, h]

private theorem id_map_eq (p : Parser α) : id <$> p = p := by
  funext c
  rcases hp : p c with ⟨actions, _ | ⟨a, c'⟩⟩
  · exact bind_apply_of_error hp _
  · refine (bind_apply_of_ok hp _).trans ?_
    change (⟨actions ++ [], .ok (a, c')⟩ : Parse α) = _
    rw [List.append_nil]

private theorem pure_bind_eq (a : α) (f : α → Parser β) : (pure a >>= f : Parser β) = f a := by
  funext c
  exact bind_apply_of_ok (pure_apply a c) f

private theorem bind_assoc_eq {γ : Type} (p : Parser α) (f : α → Parser β) (g : β → Parser γ) :
    p >>= f >>= g = p >>= fun a => f a >>= g := by
  funext c
  rcases hp : p c with ⟨actions, _ | ⟨a, c'⟩⟩
  · rw [bind_apply_of_error hp, bind_apply_of_error (bind_apply_of_error hp f)]
  · have h := bind_apply_of_ok hp f
    rw [bind_apply_of_ok hp]
    rcases hf : f a c' with ⟨more, _ | ⟨b, c''⟩⟩
    · rw [hf] at h
      rw [bind_apply_of_error h, bind_apply_of_error hf]
    · rw [hf] at h
      rw [bind_apply_of_ok h, bind_apply_of_ok hf, List.append_assoc]

instance : LawfulMonad Parser := LawfulMonad.mk' Parser id_map_eq pure_bind_eq bind_assoc_eq

/-- Reports an action. -/
def report (a : Action) : Parser Unit := fun c => ⟨[a], .ok ((), c)⟩

/-- The current token. -/
def look : Parser (Option Token) := fun c => ⟨[], .ok (c.token, c)⟩

/-- The position of the current token. -/
def here : Parser Position := fun c => ⟨[], .ok (c.pos, c)⟩

/-- What follows a look goes on with the current token. -/
theorem look_bind_apply (f : Option Token → Parser β) (c : Cursor) :
    (look >>= f) c = f c.token c := by
  have h : look c = ⟨[], .ok (c.token, c)⟩ := rfl
  exact bind_apply_of_ok h f

/-- What follows a look at the place goes on with the current position. -/
theorem here_bind_apply (f : Position → Parser β) (c : Cursor) :
    (here >>= f) c = f c.pos c := by
  have h : here c = ⟨[], .ok (c.pos, c)⟩ := rfl
  exact bind_apply_of_ok h f

/-- Reports the lexemes that an operation of the cursor drew, and gives its answer. -/
def ofDrawn (d : Drawn α) : Parse α :=
  ⟨d.lexemes.map .scan, d.result.map fun a => (a, d.cursor)⟩

/-- Moves to the next token. -/
def advance : Parser Unit := fun c =>
  let d := c.advance
  ⟨d.lexemes.map .scan, d.result.map fun _ => ((), d.cursor)⟩

/-- The token behind the current one. -/
def peek : Parser (Option Token) := fun c => ofDrawn (c.peek 1)

/-- Fails because the current token is not what the grammar asks for. -/
def fail (expected : Expectation) : Parser α := fun c =>
  ⟨[], .error (.unexpectedToken c.pos expected c.token)⟩

/-- The current token is this symbol. -/
def atSymbol (char : Char) (t : Option Token) : Bool := t = some (.symbol char)

/-- The current token is this reserved word. -/
def atKeyword (word : Keyword) (t : Option Token) : Bool := t = some (.keyword word)

/-- Consumes the symbol if it stands here, and tells whether it did. -/
def accept (char : Char) : Parser Bool := do
  if atSymbol char (← look) then
    advance
    return true
  else
    return false

/-- Consumes the symbol, which has to stand here. -/
def expect (char : Char) : Parser Unit := do
  unless ← accept char do fail (.symbol char)

/-- Consumes the reserved word, which has to stand here. -/
def expectKeyword (word : Keyword) : Parser Unit := do
  if atKeyword word (← look) then advance else fail (.keyword word)

/-- Consumes an identifier and gives its name. -/
def identifier : Parser String := do
  match ← look with
  | some (.identifier name) =>
    advance
    return name
  | _ => fail .identifier

/-- Repeats a round as long as the current token satisfies the test, at most `limit` times, and
gives the number of rounds. Every round consumes a token, so a limit that is not below the number
of remaining tokens cuts nothing off. -/
def repeatWhile (test : Option Token → Bool) (round : Parser Unit) : Nat → Parser Nat
  | 0 => return 0
  | limit + 1 => do
    if test (← look) then
      round
      let rounds ← repeatWhile test round limit
      return rounds + 1
    else
      return 0

/-- One item and then, behind every comma, another one; gives the number of items. -/
def commaSeparated (item : Parser Unit) (limit : Nat) : Parser Nat := do
  item
  let more ← repeatWhile (atSymbol ',') (do advance; item) limit
  return more + 1

end Parser

end JackStack
