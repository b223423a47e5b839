import JackStack.Source.Cursor
import JackStack.Source.Progress
import Mathlib.Data.List.Infix

/-!
# Looking ahead

A cursor is asked to move on and to look ahead, any number of times and in any order. Whatever is
asked, the lexemes it has drawn from the source are those already replaced, then the current one,
then those set aside, in the order of the source. So looking ahead does not show in what moving on
hands out: the successful moves hand out the tokens of the source one after the other, and a look
that fails only takes a failure upon itself that a move would have met.
-/

namespace JackStack

/-! ## Outcomes one after the other -/

namespace Outcome

/-- The lexeme of an outcome; none for a failure. -/
def lexeme? : Outcome → Option Lexeme
  | lexeme found => some found
  | failure _ => none

/-- The failure of an outcome; none for a lexeme. -/
def failure? : Outcome → Option Error
  | lexeme _ => none
  | failure cause => some cause

theorem filterMap_lexeme?_map (lexemes : List Lexeme) :
    (lexemes.map lexeme).filterMap lexeme? = lexemes := by
  rw [List.filterMap_map]
  exact List.filterMap_some

theorem filterMap_failure?_map (lexemes : List Lexeme) :
    (lexemes.map lexeme).filterMap failure? = [] := by
  rw [List.filterMap_map]
  exact List.filterMap_eq_nil_iff.mpr fun _ _ => rfl

end Outcome

namespace Unread

/-- What a number of calls of `next` leave unread. -/
def behind : Nat → Unread → Unread
  | 0, u => u
  | k + 1, u => behind k u.next.2

/-- The outcomes of a source are what `next` gives when it is called again and again; behind the
last one it gives the end of the input from then on. -/
theorem next_behind (k : Nat) (u : Unread) : (u.behind k).next.1 = u.outcomes[k]? := by
  induction k generalizing u with
  | zero =>
    rcases hu : u.next with ⟨_ | o, u'⟩
    · rw [outcomes_of_next_none hu, behind, hu, List.getElem?_nil]
    · rw [outcomes_of_next_some hu, behind, hu, List.getElem?_cons_zero]
  | succ k ih =>
    rw [behind, ih]
    rcases hu : u.next with ⟨_ | o, u'⟩
    · have hnone : (nextFrom .blank u.pos u.readings).1 = none := congrArg Prod.fst hu
      have hread : u.next.2.readings = [] := readings_eq_nil_of_nextFrom_none hnone
      have hlength := u.next.2.length_outcomes_le
      rw [hread, List.length_nil] at hlength
      rw [outcomes_of_next_none hu, List.getElem?_nil, ← hu]
      exact List.getElem?_eq_none (by omega)
    · rw [outcomes_of_next_some hu, List.getElem?_cons_succ]

end Unread

/-! ## One operation -/

namespace Cursor

/-- Moving on takes the next lexeme, or stays at the end, or draws a failure. -/
theorem advance_cases (c : Cursor) :
    (∃ drawn left : List Outcome, c.pending = drawn ++ left ∧
      drawn.filterMap Outcome.failure? = [] ∧ c.advance.result = .ok c.token ∧
      c.advance.cursor.pending = left ∧
      c.advance.cursor.current.toList ++ c.advance.cursor.ahead =
        c.ahead ++ drawn.filterMap Outcome.lexeme? ∧
      (c.advance.cursor.current = none → c.ahead = [] ∧ c.pending = [])) ∨
    ∃ e left, c.ahead = [] ∧ c.pending = .failure e :: left ∧ c.advance.result = .error e ∧
      c.advance.cursor = { c with pending := left } := by
  obtain ⟨current, ahead, pending, finish⟩ := c
  rcases ahead with _ | ⟨lx, ahead⟩
  · rcases pending with _ | ⟨lx | e, pending⟩
    · exact .inl ⟨[], [], rfl, rfl, rfl, rfl, rfl, fun _ => ⟨rfl, rfl⟩⟩
    · exact .inl ⟨[.lexeme lx], pending, rfl, rfl, rfl, rfl, rfl, nofun⟩
    · exact .inr ⟨e, pending, rfl, rfl, rfl, rfl⟩
  · refine .inl ⟨[], pending, rfl, rfl, rfl, rfl, ?_, nofun⟩
    exact (List.append_nil (lx :: ahead)).symm

/-- Drawing without a failure gives as many lexemes as are wanted, or all that are left. -/
theorem draw_length {n : Nat} {pending : List Outcome} (h : (draw n pending).2.1 = none) :
    n ≤ (draw n pending).1.length ∨ (draw n pending).2.2 = [] := by
  induction pending generalizing n with
  | nil =>
    cases n with
    | zero => exact .inl (Nat.zero_le _)
    | succ n => exact .inr rfl
  | cons o rest ih =>
    cases n with
    | zero => exact .inl (Nat.zero_le _)
    | succ n =>
      cases o with
      | failure e => cases h
      | lexeme lx => exact (ih h).imp Nat.succ_le_succ id

/-- A look that succeeds sets lexemes aside, up to the distance or to the end of the input. -/
theorem peek_ok {c : Cursor} {n : Nat} {r : Option Token} (h : (c.peek n).result = .ok r) :
    ∃ lexemes left, c.pending = lexemes.map .lexeme ++ left ∧
      c.peek n = ⟨lexemes, .ok r, { c with ahead := c.ahead ++ lexemes, pending := left }⟩ ∧
      (n ≤ (c.ahead ++ lexemes).length ∨ left = []) ∧
      r = if n = 0 then none else (c.ahead ++ lexemes)[n - 1]?.map (·.token) := by
  have hdraw := draw_eq (n - c.ahead.length) c.pending
  have hlength : (draw (n - c.ahead.length) c.pending).2.1 = none → _ := draw_length
  simp only [peek] at h ⊢
  generalize draw (n - c.ahead.length) c.pending = drawn at hdraw hlength h ⊢
  obtain ⟨lexemes, _ | e, left⟩ := drawn
  · refine ⟨lexemes, left, by simpa using hdraw, ?_, ?_, (Except.ok.inj h).symm⟩
    · rw [← Except.ok.inj h]
    · refine (hlength rfl).imp ?_ id
      intro (hle : n - c.ahead.length ≤ lexemes.length)
      rw [List.length_append]
      omega
  · cases h

/-- A look that fails sets the lexemes in front of the failure aside. -/
theorem peek_error {c : Cursor} {n : Nat} {e : Error} (h : (c.peek n).result = .error e) :
    ∃ lexemes left, c.pending = lexemes.map .lexeme ++ .failure e :: left ∧
      c.peek n = ⟨lexemes, .error e, { c with ahead := c.ahead ++ lexemes, pending := left }⟩ := by
  have hdraw := draw_eq (n - c.ahead.length) c.pending
  simp only [peek] at h ⊢
  generalize draw (n - c.ahead.length) c.pending = drawn at hdraw h ⊢
  obtain ⟨lexemes, _ | e', left⟩ := drawn
  · cases h
  · obtain rfl := Except.error.inj h
    exact ⟨lexemes, left, by simpa using hdraw, rfl⟩

end Cursor

/-! ## Sequences of operations -/

/-- What can be asked of a cursor. -/
inductive Move where
  | advance
  | peek (distance : Nat)
  deriving DecidableEq, Repr

/-- What a sequence of moves leaves behind. -/
structure Walk where
  /-- The lexemes that moving on has replaced, in order. -/
  replaced : List Lexeme
  /-- The answers of the moves on that succeeded, in order. -/
  handed : List (Option Token)
  /-- The failures that the moves ended with, in order. -/
  failures : List Error
  /-- The cursor afterwards. -/
  cursor : Cursor

namespace Cursor

/-- Carries out moves one after the other, going on behind failures. -/
def walk (c : Cursor) : List Move → Walk
  | [] => ⟨[], [], [], c⟩
  | .advance :: rest =>
    let w := c.advance.cursor.walk rest
    match c.advance.result with
    | .ok t => { w with replaced := c.current.toList ++ w.replaced, handed := t :: w.handed }
    | .error e => { w with failures := e :: w.failures }
  | .peek n :: rest =>
    let w := (c.peek n).cursor.walk rest
    match (c.peek n).result with
    | .ok _ => w
    | .error e => { w with failures := e :: w.failures }

/-- A step that succeeds replaces the current lexeme and hands out a token. -/
theorem walk_advance_ok {c : Cursor} {t : Option Token} (h : c.advance.result = .ok t)
    (rest : List Move) : c.walk (.advance :: rest) =
      ⟨c.current.toList ++ (c.advance.cursor.walk rest).replaced,
        t :: (c.advance.cursor.walk rest).handed, (c.advance.cursor.walk rest).failures,
        (c.advance.cursor.walk rest).cursor⟩ := by
  simp only [walk, h]

/-- A step that fails hands out nothing, and the walk goes on. -/
theorem walk_advance_error {c : Cursor} {e : Error} (h : c.advance.result = .error e)
    (rest : List Move) : c.walk (.advance :: rest) =
      ⟨(c.advance.cursor.walk rest).replaced, (c.advance.cursor.walk rest).handed,
        e :: (c.advance.cursor.walk rest).failures, (c.advance.cursor.walk rest).cursor⟩ := by
  simp only [walk, h]

/-- A look that succeeds leaves the walk as it is. -/
theorem walk_peek_ok {c : Cursor} {n : Nat} {r : Option Token} (h : (c.peek n).result = .ok r)
    (rest : List Move) : c.walk (.peek n :: rest) = (c.peek n).cursor.walk rest := by
  simp only [walk, h]

/-- A look that fails adds its failure, and the walk goes on. -/
theorem walk_peek_error {c : Cursor} {n : Nat} {e : Error} (h : (c.peek n).result = .error e)
    (rest : List Move) : c.walk (.peek n :: rest) =
      ⟨((c.peek n).cursor.walk rest).replaced, ((c.peek n).cursor.walk rest).handed,
        e :: ((c.peek n).cursor.walk rest).failures, ((c.peek n).cursor.walk rest).cursor⟩ := by
  simp only [walk, h]

/-- Between two cursors outcomes were drawn. Their lexemes stand behind those held before, and of
all these the first were passed over and the second cursor holds the others. -/
def Accounts (c : Cursor) (passed : List Lexeme) (failures : List Error) (c' : Cursor) : Prop :=
  ∃ drawn, c.pending = drawn ++ c'.pending ∧
    c.current.toList ++ c.ahead ++ drawn.filterMap Outcome.lexeme? =
      passed ++ c'.current.toList ++ c'.ahead ∧
    drawn.filterMap Outcome.failure? = failures

theorem Accounts.refl (c : Cursor) : c.Accounts [] [] c := by
  refine ⟨[], rfl, ?_, rfl⟩
  rw [List.filterMap_nil, List.append_nil, List.nil_append]

/-- What passed and failed on two ways is accounted for together. -/
theorem Accounts.trans {c c' c'' : Cursor} {passed passed' : List Lexeme}
    {failures failures' : List Error} (h : c.Accounts passed failures c')
    (h' : c'.Accounts passed' failures' c'') :
    c.Accounts (passed ++ passed') (failures ++ failures') c'' := by
  obtain ⟨drawn, hpending, hlexemes, rfl⟩ := h
  obtain ⟨drawn', hpending', hlexemes', rfl⟩ := h'
  refine ⟨drawn ++ drawn', ?_, ?_, List.filterMap_append⟩
  · rw [hpending, hpending', List.append_assoc]
  · calc c.current.toList ++ c.ahead ++ (drawn ++ drawn').filterMap Outcome.lexeme?
        = passed ++ c'.current.toList ++ c'.ahead ++ drawn'.filterMap Outcome.lexeme? := by
          rw [List.filterMap_append, ← List.append_assoc, hlexemes]
      _ = passed ++ (c'.current.toList ++ c'.ahead ++ drawn'.filterMap Outcome.lexeme?) := by
          simp only [List.append_assoc]
      _ = passed ++ passed' ++ c''.current.toList ++ c''.ahead := by
          rw [hlexemes']
          simp only [List.append_assoc]

/-- Moving on passes over the current lexeme. -/
theorem accounts_advance_ok {c : Cursor} {t : Option Token} (h : c.advance.result = .ok t) :
    c.Accounts c.current.toList [] c.advance.cursor := by
  rcases c.advance_cases with ⟨drawn, left, hpending, hnone, -, hleft, hnext, -⟩ |
    ⟨e, left, -, -, herror, -⟩
  · refine ⟨drawn, ?_, ?_, hnone⟩
    · rw [hpending, hleft]
    · rw [List.append_assoc, List.append_assoc, hnext]
  · rw [herror] at h
    cases h

/-- A move on that fails passes over nothing. -/
theorem accounts_advance_error {c : Cursor} {e : Error} (h : c.advance.result = .error e) :
    c.Accounts [] [e] c.advance.cursor := by
  rcases c.advance_cases with ⟨drawn, left, -, -, hok, -⟩ | ⟨e', left, -, hpending, herror, hcursor⟩
  · rw [hok] at h
    cases h
  · rw [herror] at h
    cases h
    rw [hcursor]
    refine ⟨[.failure e], hpending, ?_, rfl⟩
    rw [List.filterMap_cons_none rfl, List.filterMap_nil, List.append_nil, List.nil_append]

/-- A look passes over nothing. -/
theorem accounts_peek_ok {c : Cursor} {n : Nat} {r : Option Token}
    (h : (c.peek n).result = .ok r) : c.Accounts [] [] (c.peek n).cursor := by
  obtain ⟨lexemes, left, hpending, hpeek, -⟩ := peek_ok h
  rw [hpeek]
  refine ⟨lexemes.map .lexeme, hpending, ?_, Outcome.filterMap_failure?_map lexemes⟩
  rw [Outcome.filterMap_lexeme?_map, List.nil_append, List.append_assoc]

/-- Neither does a look that fails. -/
theorem accounts_peek_error {c : Cursor} {n : Nat} {e : Error}
    (h : (c.peek n).result = .error e) : c.Accounts [] [e] (c.peek n).cursor := by
  obtain ⟨lexemes, left, hpending, hpeek⟩ := peek_error h
  rw [hpeek]
  refine ⟨lexemes.map .lexeme ++ [.failure e], ?_, ?_, ?_⟩
  · rw [hpending, List.append_assoc]
    rfl
  · rw [List.filterMap_append, Outcome.filterMap_lexeme?_map, List.filterMap_cons_none rfl,
      List.filterMap_nil, List.append_nil, List.nil_append, List.append_assoc]
  · rw [List.filterMap_append, Outcome.filterMap_failure?_map, List.nil_append]
    rfl

/-- Moves account for the outcomes they draw: nothing is lost, doubled or put in another order. -/
theorem walk_accounts (c : Cursor) (moves : List Move) :
    c.Accounts (c.walk moves).replaced (c.walk moves).failures (c.walk moves).cursor := by
  induction moves generalizing c with
  | nil => exact .refl c
  | cons m rest ih =>
    cases m with
    | advance =>
      rcases hresult : c.advance.result with e | t
      · rw [walk_advance_error hresult]
        exact (accounts_advance_error hresult).trans (ih c.advance.cursor)
      · rw [walk_advance_ok hresult]
        exact (accounts_advance_ok hresult).trans (ih c.advance.cursor)
    | peek n =>
      rcases hresult : (c.peek n).result with e | r
      · rw [walk_peek_error hresult]
        exact (accounts_peek_error hresult).trans (ih (c.peek n).cursor)
      · rw [walk_peek_ok hresult]
        exact (accounts_peek_ok hresult).trans (ih (c.peek n).cursor)

/-- What moving on hands out are the tokens of the lexemes it replaces. -/
theorem walk_handed_replaced (c : Cursor) (moves : List Move) :
    (c.walk moves).handed.filterMap id = (c.walk moves).replaced.map (·.token) := by
  induction moves generalizing c with
  | nil => rfl
  | cons m rest ih =>
    cases m with
    | advance =>
      rcases c.advance_cases with ⟨-, -, -, -, hok, -⟩ | ⟨e, -, -, -, herror, -⟩
      · have hrest := ih c.advance.cursor
        rw [walk_advance_ok hok, List.map_append, ← hrest, token]
        cases c.current <;> rfl
      · rw [walk_advance_error herror]
        exact ih _
    | peek n =>
      rcases hresult : (c.peek n).result with e | r
      · rw [walk_peek_error hresult]
        exact ih _
      · rw [walk_peek_ok hresult]
        exact ih _

/-! ## What a look shows -/

/-- Where only lexemes or the end of the input are near, moving on succeeds and gets to what a
look shows. -/
theorem walk_replicate (c : Cursor) (n : Nat) {lexemes : List Lexeme} {left : List Outcome}
    (hpending : c.pending = lexemes.map .lexeme ++ left)
    (hnear : n ≤ (c.ahead ++ lexemes).length ∨ left = []) :
    (c.walk (List.replicate n .advance)).failures = [] ∧
      (c.walk (List.replicate n .advance)).cursor.token =
        if n = 0 then c.token else (c.ahead ++ lexemes)[n - 1]?.map (·.token) := by
  induction n generalizing c lexemes with
  | zero => exact ⟨rfl, rfl⟩
  | succ n ih =>
    obtain ⟨current, ahead, pending, finish⟩ := c
    obtain rfl : pending = lexemes.map .lexeme ++ left := hpending
    rw [List.replicate_succ]
    rcases ahead with _ | ⟨lx, ahead⟩
    · rcases lexemes with _ | ⟨lx, lexemes⟩
      · have hend : left = [] := hnear.resolve_left (Nat.not_succ_le_zero n)
        subst hend
        have hrest := @ih ⟨none, [], [], finish⟩ [] rfl (.inr rfl)
        refine ⟨hrest.1, hrest.2.trans ?_⟩
        simp [token]
      · have hle := hnear.imp Nat.le_of_succ_le_succ id
        have hrest := ih ⟨some lx, [], lexemes.map .lexeme ++ left, finish⟩ rfl hle
        refine ⟨hrest.1, hrest.2.trans ?_⟩
        cases n <;> rfl
    · have hle := hnear.imp Nat.le_of_succ_le_succ id
      have hrest := ih ⟨some lx, ahead, lexemes.map .lexeme ++ left, finish⟩ rfl hle
      refine ⟨hrest.1, hrest.2.trans ?_⟩
      cases n <;> rfl

/-- Looking ahead from the cursor shows what is to come and changes nothing else. -/
structure SeesThrough (c : Cursor) : Prop where
  /-- A look keeps the current lexeme and the position. -/
  still : ∀ n, (c.peek n).cursor.current = c.current ∧ (c.peek n).cursor.pos = c.pos ∧
    (c.peek n).cursor.hasMore = c.hasMore
  /-- At distance zero there is nothing to see. -/
  here : (c.peek 0).result = .ok none
  /-- What a look shows is what so many moves on get to, all of which succeed. -/
  foresees : ∀ n r, n ≠ 0 → (c.peek n).result = .ok r →
    (c.walk (List.replicate n .advance)).failures = [] ∧
      (c.walk (List.replicate n .advance)).cursor.token = r
  /-- The same look again draws nothing and shows the same. -/
  again : ∀ n r, (c.peek n).result = .ok r →
    (c.peek n).cursor.peek n = ⟨[], .ok r, (c.peek n).cursor⟩
  /-- A look that fails keeps what is set aside, with what it drew in front of the failure. -/
  failed_peek : ∀ n e, (c.peek n).result = .error e →
    (c.peek n).cursor.ahead = c.ahead ++ (c.peek n).lexemes
  /-- A move on that fails stays where it is. -/
  failed_advance : ∀ e, c.advance.result = .error e →
    c.advance.cursor.current = c.current ∧ c.advance.cursor.ahead = c.ahead

/-- A look that showed something shows it again. -/
theorem peek_again {c : Cursor} {n : Nat} {r : Option Token} (h : (c.peek n).result = .ok r) :
    (c.peek n).cursor.peek n = ⟨[], .ok r, (c.peek n).cursor⟩ := by
  obtain ⟨lexemes, left, -, hpeek, hnear, hr⟩ := peek_ok h
  have hdraw : draw (n - (c.ahead ++ lexemes).length) left = ([], none, left) := by
    rcases hnear with hle | rfl
    · rw [Nat.sub_eq_zero_of_le hle, draw]
    · cases n - (c.ahead ++ lexemes).length <;> rfl
  rw [hpeek]
  simp only [peek, hdraw, List.append_nil, ← hr]

/-- Every cursor shows by looking ahead what moving on would show. -/
theorem seesThrough (c : Cursor) : c.SeesThrough := by
  refine ⟨fun n => ⟨rfl, rfl, rfl⟩, ?_, ?_, fun n r => peek_again, fun n e _ => rfl, ?_⟩
  · rw [peek, Nat.zero_sub, draw]
    rfl
  · intro n r hn h
    obtain ⟨lexemes, left, hpending, -, hnear, hr⟩ := peek_ok h
    have hwalk := c.walk_replicate n hpending hnear
    rw [if_neg hn] at hwalk hr
    exact ⟨hwalk.1, hwalk.2.trans hr.symm⟩
  · intro e h
    rcases c.advance_cases with ⟨-, -, -, -, hok, -⟩ | ⟨e', left, -, -, -, hcursor⟩
    · rw [hok] at h
      cases h
    · rw [hcursor]
      exact ⟨rfl, rfl⟩

/-! ## What moving on hands out -/

/-- The cursor stands on a lexeme, unless nothing is left at all. -/
def Placed (c : Cursor) : Prop := c.current = none → c.ahead = [] ∧ c.pending = []

/-- The lexemes from the current one on, also those behind failures. -/
def stream (c : Cursor) : List Lexeme :=
  c.current.toList ++ (c.ahead ++ c.pending.filterMap Outcome.lexeme?)

/-- Behind a move on that succeeds stands all that was behind the current lexeme. -/
theorem stream_advance {c : Cursor} {t : Option Token} (h : c.advance.result = .ok t) :
    c.advance.cursor.stream = c.ahead ++ c.pending.filterMap Outcome.lexeme? := by
  rcases c.advance_cases with ⟨drawn, left, hfirst, -, -, hleft, hnext, -⟩ |
    ⟨e, left, -, -, herror, -⟩
  · rw [stream, ← List.append_assoc, hnext, hleft, hfirst, List.filterMap_append, List.append_assoc]
  · rw [herror] at h
    cases h

/-- Behind a step that succeeds the cursor has its place. -/
theorem placed_advance {c : Cursor} {t : Option Token} (h : c.advance.result = .ok t) :
    c.advance.cursor.Placed := by
  intro hnone
  rcases c.advance_cases with ⟨drawn, left, hfirst, -, -, hleft, hnext, hend⟩ |
    ⟨e, left, -, -, herror, -⟩
  · have ⟨hahead, hpending⟩ := hend hnone
    have hdrawn : drawn = [] ∧ left = [] := List.append_eq_nil_iff.mp (hfirst ▸ hpending)
    rw [hahead, hdrawn.1] at hnext
    exact ⟨(List.append_eq_nil_iff.mp hnext).2, hleft.trans hdrawn.2⟩
  · rw [herror] at h
    cases h

/-- A move on that succeeds hands out the first token of the stream and drops it. -/
theorem Placed.advance_ok {c : Cursor} (hc : c.Placed) {t : Option Token}
    (h : c.advance.result = .ok t) :
    t = c.stream.head?.map (·.token) ∧ c.advance.cursor.stream = c.stream.tail := by
  have ht : t = c.token := by
    rcases c.advance_cases with ⟨-, -, -, -, hok, -⟩ | ⟨e, left, -, -, herror, -⟩
    · exact Except.ok.inj (h.symm.trans hok)
    · rw [herror] at h
      cases h
  rw [stream_advance h, ht, token, stream]
  cases hcurrent : c.current with
  | none =>
    have ⟨hahead, hpending⟩ := hc hcurrent
    simp [hahead, hpending]
  | some lx => simp

/-- A move on that fails keeps the stream. -/
theorem Placed.advance_error {c : Cursor} (hc : c.Placed) {e : Error}
    (h : c.advance.result = .error e) :
    c.advance.cursor.stream = c.stream ∧ c.advance.cursor.Placed := by
  rcases c.advance_cases with ⟨-, -, -, -, hok, -⟩ | ⟨e', left, hahead, hfirst, -, hcursor⟩
  · rw [hok] at h
    cases h
  · rw [hcursor]
    refine ⟨?_, ?_⟩
    · rw [stream, stream, hfirst]
      rfl
    · intro hnone
      have hpending := (hc hnone).2
      rw [hfirst] at hpending
      cases hpending

/-- A look keeps the stream. -/
theorem Placed.peek {c : Cursor} (hc : c.Placed) (n : Nat) :
    (c.peek n).cursor.stream = c.stream ∧ (c.peek n).cursor.Placed := by
  rcases hresult : (c.peek n).result with e | r
  · obtain ⟨lexemes, left, hfirst, hpeek⟩ := peek_error hresult
    rw [hpeek]
    refine ⟨?_, ?_⟩
    · simp only [stream, hfirst, List.filterMap_append, Outcome.filterMap_lexeme?_map,
        List.append_assoc]
      rfl
    · intro hnone
      have hpending := (hc hnone).2
      rw [hfirst] at hpending
      simp at hpending
  · obtain ⟨lexemes, left, hfirst, hpeek, -⟩ := peek_ok hresult
    rw [hpeek]
    refine ⟨?_, ?_⟩
    · simp only [stream, hfirst, List.filterMap_append, Outcome.filterMap_lexeme?_map,
        List.append_assoc]
    · intro hnone
      have ⟨hahead, hpending⟩ := hc hnone
      rw [hfirst, List.append_eq_nil_iff, List.map_eq_nil_iff] at hpending
      exact ⟨by rw [hahead, hpending.1]; rfl, hpending.2⟩

/-- The first tokens of a sequence of lexemes, and the end of the input behind them. -/
def firstTokens (lexemes : List Lexeme) (count : Nat) : List (Option Token) :=
  (List.range count).map fun k => lexemes[k]?.map (·.token)

/-- The first tokens of some lexemes: that of the first one and those of the others. -/
theorem firstTokens_succ (lexemes : List Lexeme) (count : Nat) :
    firstTokens lexemes (count + 1) =
      lexemes.head?.map (·.token) :: firstTokens lexemes.tail count := by
  rw [firstTokens, List.range_succ_eq_map, List.map_cons, List.map_map, List.head?_eq_getElem?]
  simp [firstTokens, Function.comp_def]

/-- The successful moves on hand out the tokens of the stream one after the other. -/
theorem Placed.walk_handed {c : Cursor} (hc : c.Placed) (moves : List Move) :
    (c.walk moves).handed = firstTokens c.stream (c.walk moves).handed.length := by
  induction moves generalizing c with
  | nil => rfl
  | cons m rest ih =>
    cases m with
    | advance =>
      rcases hresult : c.advance.result with e | t
      · have ⟨hstream, hplaced⟩ := hc.advance_error hresult
        rw [walk_advance_error hresult, ← hstream]
        exact ih hplaced
      · have ⟨ht, hstream⟩ := hc.advance_ok hresult
        rw [walk_advance_ok hresult, List.length_cons, firstTokens_succ, ← ht, ← hstream]
        exact congrArg (t :: ·) (ih (placed_advance hresult))
    | peek n =>
      have ⟨hstream, hplaced⟩ := hc.peek n
      rcases hresult : (c.peek n).result with e | r
      · rw [walk_peek_error hresult, ← hstream]
        exact ih hplaced
      · rw [walk_peek_ok hresult, ← hstream]
        exact ih hplaced

/-! ## Moves with and without looking ahead -/

/-- The moves on among moves. -/
def advances (moves : List Move) : List Move := moves.filter (· = .advance)

/-- The second cursor has looked ahead, the first one has not, and no failure was met. -/
structure Trails (c d : Cursor) : Prop where
  current : c.current = d.current
  ahead : c.ahead = []
  pending : c.pending = d.ahead.map .lexeme ++ d.pending

/-- As long as no failure is met, the looks among moves make no difference to what is handed
out. -/
theorem Trails.walk_handed {c d : Cursor} (h : c.Trails d) {moves : List Move}
    (hmoves : (d.walk moves).failures = []) :
    (c.walk (advances moves)).handed = (d.walk moves).handed := by
  induction moves generalizing c d with
  | nil => rfl
  | cons m rest ih =>
    obtain ⟨current, ahead, pending, finish⟩ := d
    obtain ⟨current', ahead', pending', finish'⟩ := c
    obtain ⟨hcurrent, hahead, hpending⟩ := h
    dsimp only at hcurrent hahead hpending
    subst hcurrent hahead hpending
    cases m with
    | advance =>
      rcases ahead with _ | ⟨lx, ahead⟩
      · rcases pending with _ | ⟨lx | e, pending⟩
        · exact congrArg (_ :: ·) (ih ⟨rfl, rfl, rfl⟩ hmoves)
        · exact congrArg (_ :: ·) (ih ⟨rfl, rfl, rfl⟩ hmoves)
        · cases hmoves
      · exact congrArg (_ :: ·) (ih ⟨rfl, rfl, rfl⟩ hmoves)
    | peek n =>
      rcases hresult : (Cursor.peek (.mk current' ahead pending finish) n).result with e | r
      · rw [walk_peek_error hresult] at hmoves
        cases hmoves
      · obtain ⟨lexemes, left, hfirst, hpeek, -⟩ := peek_ok hresult
        rw [walk_peek_ok hresult] at hmoves ⊢
        refine ih ⟨?_, rfl, ?_⟩ hmoves
        · rw [hpeek]
        · rw [hpeek, List.map_append, List.append_assoc, ← hfirst]

/-- The second cursor has drawn all that the first one has, and what it has set aside besides. -/
structure Behind (c d : Cursor) : Prop where
  ahead : c.ahead = []
  drawn : ∃ early, c.pending = early ++ d.pending ∧ d.ahead.length ≤ early.length

/-- If only the second cursor meets a failure, it stands in front of fewer lexemes. The first cursor
succeeds, so it is not at the failure yet. -/
theorem Behind.stream_length_lt {c d : Cursor} (h : c.Behind d) (hc : c.Placed) {t : Option Token}
    {e : Error} (hok : c.advance.result = .ok t) (herror : d.advance.result = .error e) :
    d.stream.length < c.stream.length := by
  obtain ⟨hnone, early, hpending, -⟩ := h
  rcases d.advance_cases with ⟨-, -, -, -, hd, -⟩ | ⟨e', left, hahead, hfirst, -, -⟩
  · rw [hd] at herror
    cases herror
  · rw [hfirst] at hpending
    obtain ⟨lx, early', rfl⟩ : ∃ lx early', early = .lexeme lx :: early' := by
      rcases early with _ | ⟨lx | e'', early'⟩
      · simp [advance, hnone, hpending] at hok
      · exact ⟨lx, early', rfl⟩
      · simp [advance, hnone, hpending] at hok
    have hcurrent : c.current.toList.length = 1 := by
      cases hcur : c.current with
      | some current => rfl
      | none =>
        have hnil := (hc hcur).2
        rw [hpending] at hnil
        cases hnil
    have hle : d.current.toList.length ≤ 1 := by cases d.current <;> simp
    simp only [stream, hahead, hfirst, hpending, hnone, List.length_append, hcurrent,
      List.filterMap_append, List.cons_append, List.filterMap_cons, Outcome.lexeme?,
      List.length_cons, List.length_nil]
    omega

/-- Moving on keeps the second cursor ahead in what was drawn. -/
theorem Behind.advance {c d : Cursor} (h : c.Behind d) :
    c.advance.cursor.Behind d.advance.cursor := by
  obtain ⟨current, ahead, pending, finish⟩ := d
  obtain ⟨current', _, _, finish'⟩ := c
  obtain ⟨rfl, early, rfl, hlength⟩ := h
  rcases early with _ | ⟨o, early⟩
  · obtain rfl : ahead = [] := List.eq_nil_of_length_eq_zero (Nat.le_zero.mp hlength)
    rcases pending with _ | ⟨lx | e, pending⟩ <;>
      exact ⟨rfl, [], rfl, Nat.le_refl 0⟩
  · have hahead : (Cursor.advance ⟨current', [], o :: early ++ pending, finish'⟩).cursor.ahead =
        [] := by cases o <;> rfl
    have hdrawn : (Cursor.advance ⟨current', [], o :: early ++ pending, finish'⟩).cursor.pending =
        early ++ pending := by cases o <;> rfl
    refine ⟨hahead, ?_⟩
    rw [hdrawn]
    rcases ahead with _ | ⟨lx, ahead⟩
    · rcases pending with _ | ⟨lx | e, pending⟩
      · exact ⟨early, rfl, Nat.zero_le _⟩
      · exact ⟨early ++ [.lexeme lx], by simp [Cursor.advance], Nat.zero_le _⟩
      · exact ⟨early ++ [.failure e], by simp [Cursor.advance], Nat.zero_le _⟩
    · exact ⟨early, rfl, Nat.le_of_succ_le_succ hlength⟩

/-- Looking ahead keeps the second cursor ahead in what was drawn. -/
theorem Behind.peek {c d : Cursor} (h : c.Behind d) (n : Nat) : c.Behind (d.peek n).cursor := by
  obtain ⟨hnone, early, hpending, hlength⟩ := h
  refine ⟨hnone, ?_⟩
  rcases hresult : (d.peek n).result with e | r
  · obtain ⟨lexemes, left, hfirst, hpeek⟩ := peek_error hresult
    rw [hpeek]
    refine ⟨early ++ (lexemes.map .lexeme ++ [.failure e]), ?_, ?_⟩
    · simp [hpending, hfirst]
    · simp only [List.length_append, List.length_map]
      omega
  · obtain ⟨lexemes, left, hfirst, hpeek, -⟩ := peek_ok hresult
    rw [hpeek]
    refine ⟨early ++ lexemes.map .lexeme, ?_, ?_⟩
    · simp [hpending, hfirst]
    · simp only [List.length_append, List.length_map]
      omega

/-- With looks among the moves not fewer tokens are handed out. The cursors have handed out `i`
and `j` of the lexemes before. -/
theorem Behind.walk_length {c d : Cursor} (h : c.Behind d) (hc : c.Placed) (hd : d.Placed)
    {lexemes : List Lexeme} {i j : Nat} (hi : c.stream = lexemes.drop i)
    (hj : d.stream = lexemes.drop j) (hij : i ≤ j) (moves : List Move) :
    i + (c.walk (advances moves)).handed.length ≤ j + (d.walk moves).handed.length := by
  induction moves generalizing c d i j with
  | nil => exact hij
  | cons m rest ih =>
    cases m with
    | advance =>
      have hrest := h.advance
      change i + (c.walk (.advance :: advances rest)).handed.length ≤ _
      rcases hcr : c.advance.result with e | t <;> rcases hdr : d.advance.result with e' | t'
      · have ⟨hcs, hcp⟩ := hc.advance_error hcr
        have ⟨hds, hdp⟩ := hd.advance_error hdr
        rw [walk_advance_error hcr, walk_advance_error hdr]
        exact ih hrest hcp hdp (hcs.trans hi) (hds.trans hj) hij
      · have ⟨hcs, hcp⟩ := hc.advance_error hcr
        have hds := (hd.advance_ok hdr).2
        rw [hj, List.tail_drop] at hds
        simp only [walk_advance_error hcr, walk_advance_ok hdr, List.length_cons]
        have hle := ih hrest hcp (placed_advance hdr) (hcs.trans hi) hds (Nat.le_succ_of_le hij)
        omega
      · have hlt := h.stream_length_lt hc hcr hdr
        have hcs := (hc.advance_ok hcr).2
        have ⟨hds, hdp⟩ := hd.advance_error hdr
        rw [hi, List.tail_drop] at hcs
        rw [hi, hj, List.length_drop, List.length_drop] at hlt
        simp only [walk_advance_ok hcr, walk_advance_error hdr, List.length_cons]
        have hle := ih hrest (placed_advance hcr) hdp hcs (hds.trans hj) (by omega)
        omega
      · have hcs := (hc.advance_ok hcr).2
        have hds := (hd.advance_ok hdr).2
        rw [hi, List.tail_drop] at hcs
        rw [hj, List.tail_drop] at hds
        rw [walk_advance_ok hcr, walk_advance_ok hdr, List.length_cons, List.length_cons]
        have hle := ih hrest (placed_advance hcr) (placed_advance hdr) hcs hds
          (Nat.succ_le_succ hij)
        omega
    | peek n =>
      have ⟨hds, hdp⟩ := hd.peek n
      have hle := ih (h.peek n) hc hdp hi (hds.trans hj) hij
      change i + (c.walk (advances rest)).handed.length ≤ _
      rcases hresult : (d.peek n).result with e | r
      · rw [walk_peek_error hresult]
        exact hle
      · rw [walk_peek_ok hresult]
        exact hle

/-- Looks among the moves on change nothing in the sequence that is handed out. A look may take a
failure upon itself, so that more of the sequence is handed out by as many moves. -/
theorem Placed.handed_advances {c : Cursor} (hc : c.Placed) (hahead : c.ahead = [])
    (moves : List Move) :
    (c.walk (advances moves)).handed <+: (c.walk moves).handed ∧
      ((c.walk moves).failures = [] →
        (c.walk (advances moves)).handed = (c.walk moves).handed) := by
  have hbehind : c.Behind c := ⟨hahead, [], rfl, Nat.le_of_eq (congrArg List.length hahead)⟩
  have htrails : c.Trails c := ⟨rfl, hahead, by rw [hahead]; rfl⟩
  have hlength := hbehind.walk_length hc hc (i := 0) (j := 0) rfl rfl (Nat.le_refl 0) moves
  refine ⟨?_, htrails.walk_handed⟩
  rw [hc.walk_handed (advances moves), hc.walk_handed moves, firstTokens, firstTokens]
  refine List.IsPrefix.map _ ?_
  rw [Nat.zero_add, Nat.zero_add] at hlength
  apply List.prefix_iff_eq_take.mpr
  rw [List.take_range, List.length_range, Nat.min_eq_left hlength]

end Cursor

/-! ## A source -/

/-- Opens a source: the cursor in front of its first outcome moves on to it. -/
def Cursor.opening (readings : List Reading) : Drawn (Option Token) :=
  (Cursor.before (Unread.ofReadings readings).outcomes (Unread.ofReadings readings).finish).advance

/-- A source that was opened without a failure is drawn in order, whatever is asked of the cursor,
and looking ahead changes nothing. The outcomes are those of calling `next` again and again. Those
drawn are accounted for, lexemes and failures, in order. A look changes nothing and shows what is to
come. Moving on hands out what it replaces, which are the tokens of the source in order, and without
the looks the same is handed out. -/
theorem lookahead_transparent {readings : List Reading} {t : Option Token}
    (h : (Cursor.opening readings).result = .ok t) (moves : List Move) :
    let source := Unread.ofReadings readings
    let start := (Cursor.opening readings).cursor
    let walked := start.walk moves
    let plain := start.walk (Cursor.advances moves)
    (∀ k, (source.behind k).next.1 = source.outcomes[k]?) ∧
    (∃ drawn, source.outcomes = drawn ++ walked.cursor.pending ∧
      drawn.filterMap Outcome.lexeme? =
        walked.replaced ++ walked.cursor.current.toList ++ walked.cursor.ahead ∧
      drawn.filterMap Outcome.failure? = walked.failures) ∧
    walked.cursor.SeesThrough ∧
    walked.handed.filterMap id = walked.replaced.map (·.token) ∧
    walked.handed = Cursor.firstTokens (source.outcomes.filterMap Outcome.lexeme?)
      walked.handed.length ∧
    plain.handed <+: walked.handed ∧ (walked.failures = [] → plain.handed = walked.handed) := by
  intro source start walked plain
  have hfirst : (Cursor.before source.outcomes source.finish).advance.result = .ok t := h
  have hplaced : start.Placed := Cursor.placed_advance hfirst
  have hstream : start.stream = source.outcomes.filterMap Outcome.lexeme? :=
    Cursor.stream_advance hfirst
  have hahead : start.ahead = [] := by
    rcases ho : source.outcomes with _ | ⟨lx | e, rest⟩ <;>
      simp [start, Cursor.opening, Cursor.before, Cursor.advance, source, ho]
  have haccounts := (Cursor.before source.outcomes source.finish).walk_accounts (.advance :: moves)
  rw [Cursor.walk_advance_ok hfirst] at haccounts
  have hhanded := hplaced.walk_handed moves
  rw [hstream] at hhanded
  obtain ⟨hplain, hequal⟩ := hplaced.handed_advances hahead moves
  exact ⟨source.next_behind, haccounts, walked.cursor.seesThrough, start.walk_handed_replaced moves,
    hhanded, hplain, hequal⟩

/-- Two words, and a reading that fails between them. -/
def brokenWords : List Reading :=
  Reading.ofBytesFailingAt 2 ⟨.other, "read failure"⟩ [97, 32, 98]

/-- A look takes the failure upon itself, and both words are handed out by two moves on; without
it the first move meets the failure. -/
theorem brokenWords_handed :
    (Cursor.opening brokenWords).result = .ok none ∧
    let start := (Cursor.opening brokenWords).cursor
    let walked := start.walk [.peek 1, .advance, .peek 2, .advance]
    walked.handed = [some (.identifier "a"), some (.identifier "b")] ∧
      (start.walk [.advance, .advance]).handed = [some (.identifier "a")] ∧
      (start.walk [.advance, .advance]).handed <+: walked.handed := by
  have hopen : (Cursor.opening brokenWords).result = .ok none := by decide
  refine ⟨hopen, by decide, by decide, ?_⟩
  obtain ⟨-, -, -, -, -, hplain, -⟩ :=
    lookahead_transparent hopen [.peek 1, .advance, .peek 2, .advance]
  exact hplain

end JackStack
