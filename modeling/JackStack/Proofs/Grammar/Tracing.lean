import JackStack.Proofs.Grammar.Reads
import JackStack.Proofs.Grammar.Scripts

/-!
# Which token an action looks at

A recogniser is held against the scripts it is to follow. It follows them when whatever it reads is
a script, and when every action that names a place stands at the place of a lexeme of the source:
what was read before that lexeme and reported before that action is the beginning of a script, in
which the lexeme is a marked token and the action is the one that looks at it. This holds wherever
the run ends, so it needs no success. A run that fails has read and reported the beginning of a
script, and stops in front of a token that it refuses or where the source fails. Each elementary
recogniser has a law for this relation, which leads from the scripts to what is left of them behind
the part that was read.
-/

namespace JackStack

open JackStack.Tree

/-! ## Scripts -/

/-- Scripts, each with the value that reading it gives. -/
def Scripts (α : Type) : Type := List Item → α → Prop

namespace Scripts

variable {α : Type}

/-- What is left of the scripts that begin like this. -/
def behind (L : Scripts α) (front : List Item) : Scripts α := fun s a => L (front ++ s) a

/-- There is a script. -/
def Possible (L : Scripts α) : Prop := ∃ s a, L s a

/-- If something is left of the scripts behind a beginning, there is a script. -/
theorem Possible.of_behind {L : Scripts α} {front : List Item} (h : (L.behind front).Possible) :
    L.Possible := by
  obtain ⟨s, a, hL⟩ := h
  exact ⟨_, a, hL⟩

/-- The scripts of the trees of a kind. -/
def of {T : Type} (script : T → List Item) : Scripts Unit := fun s _ => ∃ x, s = script x

/-- Any number of scripts one behind the other, and their number. -/
def many {T : Type} (script : T → List Item) : Scripts Nat :=
  fun s n => ∃ xs : List T, s = xs.flatMap script ∧ n = xs.length

/-- Scripts with commas between them, at least one, and their number. -/
def commas {T : Type} (script : T → List Item) : Scripts Nat :=
  fun s n => ∃ (x : T) (xs : List T),
    s = script x ++ xs.flatMap (fun y => .token (.symbol ',') :: script y) ∧ n = xs.length + 1

end Scripts

/-- The action that follows the one that looks at a constant. -/
def Tree.Mark.sequel : Mark → Option Action
  | integer value => some (.loadInteger value)
  | string content => some (.loadString content)
  | _ => none

/-- A term that is a variable is no call, so neither a parenthesis nor a dot follows its name. -/
def Tree.Mark.Allows (m : Mark) (rest : List Lexeme) : Prop :=
  ∀ name, m = .operand name →
    ∀ lx ∈ rest.head?, lx.token ≠ .symbol '(' ∧ lx.token ≠ .symbol '.'

/-- The action names no place and is more than a lexeme drawn. -/
def Action.Placeless (x : Action) : Prop := x.pos? = none ∧ Action.unplaced [x] = [x]

namespace Parser

variable {α β : Type}

/-- The action stands at the place of a lexeme which is a marked token of a script, and what was
read and reported before it is what the script has before the mark. -/
inductive Sighted (L : Scripts α) (c : Cursor) (xs : List Action) (x : Action)
    (ys : List Action) : Prop where
  | intro (used rest : List Lexeme) (lx : Lexeme) (front back : List Item) (m : Mark) (a : α)
      (split : c.lexemes = used ++ lx :: rest) (place : x.pos? = some lx.pos)
      (script : L (front ++ .marked m :: back) a) (looks : x.withPos .start = m.action)
      (token : lx.token = m.token) (tokens : tokensOf front = used.map (·.token))
      (actions : actionsOf front = Action.unplaced xs) (allows : m.Allows rest)
      (sequel : ∀ y, m.sequel = some y → (rest = [] → c.flaw = none) →
        ∃ (drawn : List Lexeme) (more : List Action), ys = drawn.map .scan ++ y :: more)

/-- From one cursor to another the lexemes of a script were read and its actions were reported. -/
structure Passes (c c' : Cursor) (xs : List Action) (script : List Item) : Prop where
  settled : c'.Settled
  flaw : c'.flaw = c.flaw
  split : ∃ used, c.lexemes = used ++ c'.lexemes ∧ tokensOf script = used.map (·.token)
  actions : actionsOf script = Action.unplaced xs

/-- Why a run does not go on in front of lexemes: it refuses the first of them, or it meets the
failure of the source. Then no lexeme is left, except an identifier behind which the run looks. -/
inductive Stuck (flaw : Option Error) (rest : List Lexeme) : Error → Prop where
  | refused (pos : Position) (expected : Expectation) (found : Option Token)
      (place : ∀ lx ∈ rest.head?, pos = lx.pos) :
      Stuck flaw rest (.unexpectedToken pos expected found)
  | broken (e : Error) (met : flaw = some e)
      (names : ∀ lx ∈ rest, ∃ name, lx.token = .identifier name) : Stuck flaw rest e

/-- A run that fails has read and reported the beginning of a script. -/
inductive Stopped (L : Scripts α) (c : Cursor) (xs : List Action) (e : Error) : Prop where
  | intro (used rest : List Lexeme) (front back : List Item) (a : α)
      (split : c.lexemes = used ++ rest) (script : L (front ++ back) a)
      (tokens : tokensOf front = used.map (·.token))
      (actions : actionsOf front = Action.unplaced xs) (stuck : Stuck c.flaw rest e)

/-- How a run ends that follows the scripts. -/
structure Followed (L : Scripts α) (c : Cursor) (r : Parse α) : Prop where
  read : ∀ {a c'}, r.outcome = .ok (a, c') → ∃ script, L script a ∧ Passes c c' r.actions script
  sighted : ∀ {xs x ys}, r.actions = xs ++ x :: ys → x.pos? ≠ none → Sighted L c xs x ys
  stopped : ∀ {e}, r.outcome = .error e → Stopped L c r.actions e

/-- In front of lexemes as `start` says, the recogniser follows the scripts. -/
structure Follows (start : List Lexeme → Prop) (p : Parser α) (L : Scripts α) : Prop where
  possible : L.Possible
  run : ∀ c : Cursor, c.Settled → start c.lexemes → Followed L c (p c)

/-- No condition on the lexemes. -/
abbrev anyLexemes : List Lexeme → Prop := fun _ => True

/-- A condition on the first token. -/
abbrev atToken (test : Option Token → Prop) : List Lexeme → Prop :=
  fun ls => test (ls.head?.map (·.token))

variable {start : List Lexeme → Prop} {L : Scripts α} {M : Scripts β} {p : Parser α}
  {f : α → Parser β}

/-- A passage and one from where it ended make one. -/
theorem Passes.trans {c c' c'' : Cursor} {xs ys : List Action} {script script' : List Item}
    (h : Passes c c' xs script) (h' : Passes c' c'' ys script') :
    Passes c c'' (xs ++ ys) (script ++ script') := by
  obtain ⟨used, hused, htokens⟩ := h.split
  obtain ⟨used', hused', htokens'⟩ := h'.split
  refine ⟨h'.settled, h'.flaw.trans h.flaw, ⟨used ++ used', ?_, ?_⟩, ?_⟩
  · rw [hused, hused', List.append_assoc]
  · rw [tokensOf_append, htokens, htokens', List.map_append]
  · rw [actionsOf_append, h.actions, h'.actions, Action.unplaced_append]

/-- Nothing is read where the same lexemes are shown. -/
theorem passes_of_shows {c c' : Cursor} {xs : List Action} {script : List Item}
    (h : c'.Shows c.lexemes c.flaw c.finish) (htokens : tokensOf script = [])
    (hactions : actionsOf script = Action.unplaced xs) : Passes c c' xs script :=
  ⟨h.settled, h.flaw, ⟨[], by rw [h.lexemes, List.nil_append], htokens⟩, hactions⟩

/-- What can be completed is sighted in longer scripts as well. -/
theorem Sighted.complete {c : Cursor} {xs ys : List Action} {x : Action} (h : Sighted L c xs x ys)
    (hM : ∀ s a, L s a → (M.behind s).Possible) (zs : List Action) :
    Sighted M c xs x (ys ++ zs) := by
  obtain ⟨used, rest, lx, front, back, m, a, split, place, script, looks, token, tokens, actions,
    allows, sequel⟩ := h
  obtain ⟨s, b, hs⟩ := hM _ a script
  refine ⟨used, rest, lx, front, back ++ s, m, b, split, place, ?_, looks, token, tokens, actions,
    allows, ?_⟩
  · rw [Scripts.behind, List.append_assoc] at hs
    exact hs
  · intro y hy hend
    obtain ⟨drawn, more, rfl⟩ := sequel y hy hend
    exact ⟨drawn, more ++ zs, by rw [List.append_assoc, List.cons_append]⟩

/-- What is sighted behind a part that was read is sighted behind all of it. -/
theorem Sighted.after {c c' : Cursor} {script : List Item} {ws xs ys : List Action} {x : Action}
    (h : Sighted (M.behind script) c' xs x ys) (hpass : Passes c c' ws script) :
    Sighted M c (ws ++ xs) x ys := by
  obtain ⟨used, hused, htokens⟩ := hpass.split
  obtain ⟨used', rest, lx, front, back, m, a, split', place, script', looks, token, tokens',
    actions', allows, sequel⟩ := h
  refine ⟨used ++ used', rest, lx, script ++ front, back, m, a, ?_, place, ?_, looks, token, ?_,
    ?_, allows, hpass.flaw ▸ sequel⟩
  · rw [hused, split', List.append_assoc]
  · rw [List.append_assoc]
    exact script'
  · rw [tokensOf_append, htokens, tokens', List.map_append]
  · rw [actionsOf_append, hpass.actions, actions', Action.unplaced_append]

/-- What can be completed is the beginning of longer scripts as well. -/
theorem Stopped.complete {c : Cursor} {xs : List Action} {e : Error} (h : Stopped L c xs e)
    (hM : ∀ s a, L s a → (M.behind s).Possible) : Stopped M c xs e := by
  obtain ⟨used, rest, front, back, a, split, script, tokens, actions, stuck⟩ := h
  obtain ⟨s, b, hs⟩ := hM _ a script
  rw [Scripts.behind, List.append_assoc] at hs
  exact ⟨used, rest, front, back ++ s, b, split, hs, tokens, actions, stuck⟩

/-- What stops behind a part that was read stops behind all of it. -/
theorem Stopped.after {c c' : Cursor} {script : List Item} {ws xs : List Action} {e : Error}
    (h : Stopped (M.behind script) c' xs e) (hpass : Passes c c' ws script) :
    Stopped M c (ws ++ xs) e := by
  obtain ⟨used, hused, htokens⟩ := hpass.split
  obtain ⟨used', rest, front, back, a, split', script', tokens', actions', stuck⟩ := h
  refine ⟨used ++ used', rest, script ++ front, back, a, ?_, ?_, ?_, ?_, hpass.flaw ▸ stuck⟩
  · rw [hused, split', List.append_assoc]
  · rw [List.append_assoc]
    exact script'
  · rw [tokensOf_append, htokens, tokens', List.map_append]
  · rw [actionsOf_append, hpass.actions, actions', Action.unplaced_append]

/-- Behind a part that was read, a second recogniser follows what is left of the scripts. -/
theorem Followed.after {c c' : Cursor} {ws : List Action} {a : α} {script : List Item}
    (hp : p c = ⟨ws, .ok (a, c')⟩) (hpass : Passes c c' ws script)
    (hsighted : ∀ {xs x ys}, ws = xs ++ x :: ys → x.pos? ≠ none →
      Sighted M c xs x (ys ++ (f a c').actions))
    (h : Followed (M.behind script) c' (f a c')) : Followed M c ((p >>= f) c) := by
  rw [bind_apply_of_ok hp]
  constructor
  case read =>
    intro b c'' hout
    obtain ⟨script', hscript, hpass'⟩ := h.read hout
    exact ⟨script ++ script', hscript, hpass.trans hpass'⟩
  case sighted =>
    intro xs x ys hactions hx
    rcases eq_append_cons_cases hactions with ⟨vs, hws, rfl⟩ | ⟨vs, rfl, hzs⟩
    · exact hsighted hws hx
    · exact (h.sighted hzs hx).after hpass
  case stopped =>
    intro e hout
    exact (h.stopped hout).after hpass

namespace Follows

/-- What follows scripts follows any that include them. -/
theorem imp {L' : Scripts α} (h : Follows start p L) (himp : ∀ s a, L s a → L' s a) :
    Follows start p L' := by
  obtain ⟨s, a, hs⟩ := h.possible
  refine ⟨⟨s, a, himp s a hs⟩, ?_⟩
  intro c hc hstart
  have hrun := h.run c hc hstart
  have hcomplete : ∀ s a, L s a → (L'.behind s).Possible := by
    intro s a hs
    refine ⟨[], a, ?_⟩
    rw [Scripts.behind, List.append_nil]
    exact himp s a hs
  constructor
  case read =>
    intro a c' hout
    obtain ⟨script, hscript, hpass⟩ := hrun.read hout
    exact ⟨script, himp _ _ hscript, hpass⟩
  case sighted =>
    intro xs x ys hactions hx
    rw [← List.append_nil ys]
    exact (hrun.sighted hactions hx).complete hcomplete []
  case stopped =>
    intro e hout
    exact (hrun.stopped hout).complete hcomplete

/-- What holds under weaker conditions holds under stronger ones. -/
theorem weaken {start' : List Lexeme → Prop} (h : Follows start p L)
    (hstart : ∀ ls, start' ls → start ls) : Follows start' p L :=
  ⟨h.possible, fun c hc hs => h.run c hc (hstart _ hs)⟩

/-- What holds in front of any lexemes holds in front of certain ones. -/
theorem restrict (h : Follows anyLexemes p L) : Follows start p L :=
  h.weaken fun _ _ => trivial

/-- A recogniser and another one behind it, which follows what is left of the scripts. -/
theorem bind (hp : Follows start p L)
    (hf : ∀ s a, L s a → Follows anyLexemes (f a) (M.behind s)) : Follows start (p >>= f) M := by
  have hM : ∀ s a, L s a → (M.behind s).Possible := fun s a h => (hf s a h).possible
  obtain ⟨s, a, hL⟩ := hp.possible
  refine ⟨(hM s a hL).of_behind, ?_⟩
  intro c hc hstart
  have hrun := hp.run c hc hstart
  rcases hpc : p c with ⟨ws, e | ⟨a, c'⟩⟩
  · rw [hpc] at hrun
    rw [bind_apply_of_error hpc]
    refine ⟨nofun, fun {xs x ys} hactions hx => ?_, ?_⟩
    · rw [← List.append_nil ys]
      exact (hrun.sighted hactions hx).complete hM []
    · rintro e ⟨⟩
      exact (hrun.stopped rfl).complete hM
  · rw [hpc] at hrun
    obtain ⟨script, hscript, hpass⟩ := hrun.read rfl
    refine Followed.after hpc hpass ?_ ((hf script a hscript).run c' hpass.settled trivial)
    intro xs x ys hws hx
    exact (hrun.sighted hws hx).complete hM _

end Follows

/-! ## Elementary recognisers -/

theorem not_nil_eq {xs ys : List Action} {x : Action} : [] ≠ xs ++ x :: ys :=
  (List.append_ne_nil_of_right_ne_nil xs (List.cons_ne_nil x ys)).symm

/-- What needs no token is a script if the script is complete. -/
theorem follows_pure {a : α} (h : L [] a) : Follows start (pure a) L := by
  refine ⟨⟨[], a, h⟩, fun c hc _ => ⟨?_, fun hactions => absurd hactions not_nil_eq, nofun⟩⟩
  rintro b c' ⟨⟩
  exact ⟨[], h, hc, rfl, ⟨[], rfl, rfl⟩, rfl⟩

/-- What fails at once reads nothing and looks at nothing. -/
theorem followed_error {c : Cursor} {e : Error} (h : Stopped L c [] e) :
    Followed L c ⟨[], .error e⟩ := by
  constructor
  case read =>
    intro a c' h
    cases h
  case sighted =>
    intro xs x ys h
    exact absurd h not_nil_eq
  case stopped =>
    rintro e ⟨⟩
    exact h

/-- A run may stop before it has read anything. -/
theorem stopped_here {c : Cursor} {e : Error} (h : L.Possible) (hstuck : Stuck c.flaw c.lexemes e) :
    Stopped L c [] e := by
  obtain ⟨s, a, hs⟩ := h
  exact ⟨[], c.lexemes, [], s, a, rfl, hs, rfl, rfl, hstuck⟩

/-- A run may stop behind the last lexeme, where the source fails. -/
theorem stopped_behind {c : Cursor} {lx : Lexeme} {item : Item} {xs : List Action} {e : Error}
    (hlexemes : c.lexemes = [lx]) (hflaw : c.flaw = some e) (htoken : tokensOf [item] = [lx.token])
    (hactions : actionsOf [item] = Action.unplaced xs) (h : (L.behind [item]).Possible) :
    Stopped L c xs e := by
  obtain ⟨s, a, hs⟩ := h
  exact ⟨[lx], [], [item], s, a, hlexemes, hs, htoken, hactions, .broken e hflaw nofun⟩

/-- A token that is refused is the current one. -/
theorem stuck_fail {c : Cursor} (hc : c.Settled) (expected : Expectation) :
    Stuck c.flaw c.lexemes (.unexpectedToken c.pos expected c.token) := by
  refine .refused c.pos expected c.token fun lx hlx => ?_
  rw [← hc.current_eq, Option.mem_def] at hlx
  rw [Cursor.pos, hlx]

/-- A failure follows any scripts, as long as there are some. -/
theorem follows_fail {expected : Expectation} (h : L.Possible) :
    Follows start (fail expected) L :=
  ⟨h, fun _ hc _ => followed_error (stopped_here h (stuck_fail hc expected))⟩

/-- Behind a recogniser that shows the same lexemes and names no place, another one follows what is
left of the scripts. -/
theorem Followed.stay {c c' : Cursor} {ws : List Action} {a : α} {script : List Item}
    (hp : p c = ⟨ws, .ok (a, c')⟩) (hpass : Passes c c' ws script)
    (hplaceless : ∀ x ∈ ws, x.pos? = none)
    (h : Followed (M.behind script) c' (f a c')) : Followed M c ((p >>= f) c) := by
  refine Followed.after hp hpass ?_ h
  rintro xs x ys rfl hx
  exact absurd (hplaceless x (by simp)) hx

/-- What is reported without a place stands in front of the rest of the script. -/
theorem follows_report_bind {x : Action} {f : Unit → Parser β} (hx : x.Placeless)
    (h : Follows start (f ()) (M.behind [.report x])) : Follows start (report x >>= f) M := by
  refine ⟨h.possible.of_behind, ?_⟩
  intro c hc hstart
  have hreport : report x c = ⟨[x], .ok ((), c)⟩ := rfl
  have hpass : Passes c c [x] [.report x] := ⟨hc, rfl, ⟨[], rfl, rfl⟩, hx.2.symm⟩
  refine Followed.stay hreport hpass ?_ (h.run c hc hstart)
  intro y hy
  rw [List.mem_singleton.mp hy]
  exact hx.1

/-- A report follows the script that holds nothing else. -/
theorem follows_report {x : Action} {L : Scripts Unit} (hx : x.Placeless)
    (h : L [.report x] ()) : Follows start (report x) L := by
  rw [← bind_pure (report x)]
  exact follows_report_bind hx (follows_pure h)

/-- Behind a recogniser that reports nothing and stays where it is. -/
theorem Followed.silent {c : Cursor} {a : α} (hc : c.Settled) (hp : p c = ⟨[], .ok (a, c)⟩)
    (h : Followed M c (f a c)) : Followed M c ((p >>= f) c) := by
  have hpass : Passes c c [] [] := ⟨hc, rfl, ⟨[], rfl, rfl⟩, rfl⟩
  exact Followed.stay hp hpass nofun h

/-- The current token decides what follows. -/
theorem follows_look_bind {f : Option Token → Parser β} (hM : M.Possible)
    (h : ∀ t, Follows (fun ls => start ls ∧ ls.head?.map (·.token) = t) (f t) M) :
    Follows start (look >>= f) M := by
  refine ⟨hM, fun c hc hstart => ?_⟩
  have htoken : c.lexemes.head?.map (·.token) = c.token := by rw [Cursor.token, hc.current_eq]
  exact .silent hc rfl ((h c.token).run c hc ⟨hstart, htoken⟩)

/-- The current token, which passes a test, decides what follows. -/
theorem follows_test_bind {test : Option Token → Prop} {f : Option Token → Parser β}
    (hM : M.Possible) (h : ∀ t, test t → Follows (atToken (· = t)) (f t) M) :
    Follows (atToken test) (look >>= f) M := by
  refine ⟨hM, fun c hc hstart => ?_⟩
  have htoken : c.lexemes.head?.map (·.token) = c.token := by rw [Cursor.token, hc.current_eq]
  exact .silent hc rfl ((h c.token (htoken ▸ hstart)).run c hc htoken)

/-- What follows may use the place of the current token. -/
theorem follows_here_bind {f : Position → Parser β}
    (h : ∀ pos, Follows (fun ls => start ls ∧ ∀ lx ∈ ls.head?, lx.pos = pos) (f pos) M) :
    Follows start (here >>= f) M := by
  refine ⟨(h .start).possible, fun c hc hstart => ?_⟩
  refine .silent hc rfl ((h c.pos).run c hc ⟨hstart, fun lx hlx => ?_⟩)
  rw [← hc.current_eq, Option.mem_def] at hlx
  rw [Cursor.pos, hlx]

/-- What follows may use the token behind the current one, which is an identifier. Where looking
ahead fails, only the identifier is left, since the failure stands behind it. -/
theorem follows_peek_bind {f : Option Token → Parser β}
    (hname : ∀ ls, start ls → ∀ lx ∈ ls.head?, ∃ name, lx.token = .identifier name)
    (h : ∀ next, Follows (fun ls => start ls ∧ ls.tail.head?.map (·.token) = next) (f next) M) :
    Follows start (peek >>= f) M := by
  refine ⟨(h none).possible, fun c hc hstart => ?_⟩
  rcases peek_draws c hc with ⟨drawn, c', hpeek, hshows, -⟩ | ⟨e, hpeek, htail, hflaw⟩
  · have hpass : Passes c c' (drawn.map .scan) [] :=
      passes_of_shows hshows rfl (Action.unplaced_map_scan drawn).symm
    refine Followed.stay hpeek hpass ?_ ((h _).run c' hshows.settled ⟨?_, ?_⟩)
    · intro x hx
      obtain ⟨lx, -, rfl⟩ := List.mem_map.mp hx
      rfl
    · rw [hshows.lexemes]
      exact hstart
    · simp only [hshows.lexemes, id, Cursor.tokens, ← List.map_tail, List.head?_map]
  · rw [bind_apply_of_error hpeek]
    refine followed_error (stopped_here (h none).possible (.broken e hflaw fun lx hlx => ?_))
    refine hname c.lexemes hstart lx ?_
    cases hlexemes : c.lexemes with
    | nil =>
      rw [hlexemes] at hlx
      exact absurd hlx List.not_mem_nil
    | cons first rest =>
      rw [hlexemes, List.tail_cons] at htail
      rw [hlexemes, htail, List.mem_singleton] at hlx
      rw [hlx]
      rfl

/-- Moving on from a known token leaves the rest of the script. -/
theorem follows_advance_bind {t : Token} {f : Unit → Parser β}
    (h : Follows anyLexemes (f ()) (M.behind [.token t])) :
    Follows (atToken (· = some t)) (advance >>= f) M := by
  refine ⟨h.possible.of_behind, fun c hc hstart => ?_⟩
  obtain ⟨lx, hlx, rfl⟩ := Option.map_eq_some_iff.mp hstart
  obtain ⟨rest, hlexemes⟩ := List.head?_eq_some_iff.mp hlx
  rcases advance_draws c hc with ⟨drawn, c', hadvance, hshows, -⟩ | ⟨e, hadvance, htail, hflaw⟩
  · have hpass : Passes c c' (drawn.map .scan) [.token lx.token] := by
      refine ⟨hshows.settled, hshows.flaw, ⟨[lx], ?_, rfl⟩, (Action.unplaced_map_scan drawn).symm⟩
      rw [hshows.lexemes, hlexemes]
      rfl
    refine Followed.stay hadvance hpass ?_ (h.run c' hshows.settled trivial)
    intro x hx
    obtain ⟨l, -, rfl⟩ := List.mem_map.mp hx
    rfl
  · rw [hlexemes, List.tail_cons] at htail
    rw [htail] at hlexemes
    rw [bind_apply_of_error hadvance]
    exact followed_error (stopped_behind hlexemes hflaw rfl rfl h.possible)

/-! ## Actions that name a place -/

/-- The current token is looked at and then consumed. The look comes first, so nothing was reported
before it, and only lexemes were drawn behind it; where a failure follows the token, nothing is said
about what is reported behind. -/
theorem follows_marked_bind {m : Mark} {x : Action} {f : Unit → Parser β}
    (hlooks : x.withPos .start = m.action) (hscan : x.isScan = false)
    (hstart : ∀ ls, start ls → ∃ lx rest, ls = lx :: rest ∧ lx.token = m.token ∧
      x.pos? = some lx.pos ∧ m.Allows rest)
    (hsequel : ∀ y, m.sequel = some y → ∀ c, ∃ more, (f () c).actions = y :: more)
    (h : Follows anyLexemes (f ()) (M.behind [.marked m])) :
    Follows start (report x >>= fun _ => advance >>= f) M := by
  refine ⟨h.possible.of_behind, fun c hc hs => ?_⟩
  obtain ⟨lx, rest, hlexemes, htoken, hplace, hallows⟩ := hstart _ hs
  obtain ⟨back, a, hback⟩ := h.possible
  have hunplaced : ∀ xs, Action.unplaced (x :: xs) = m.action :: Action.unplaced xs := by
    intro xs
    simp [Action.unplaced, Action.withoutScans, hscan, hlooks]
  have hreport : report x c = ⟨[x], .ok ((), c)⟩ := rfl
  have hsight : ∀ ys : List Action, (∀ y, m.sequel = some y → (rest = [] → c.flaw = none) →
      ∃ (drawn : List Lexeme) (more : List Action), ys = drawn.map .scan ++ y :: more) →
      Sighted M c [] x ys := fun ys hys =>
    ⟨[], rest, lx, [], back, m, a, hlexemes, hplace, hback, hlooks, htoken, rfl, rfl, hallows, hys⟩
  rcases advance_draws c hc with ⟨drawn, c', hadvance, hshows, -⟩ | ⟨e, hadvance, htail, hflaw⟩
  · have hboth : (report x >>= fun _ => advance) c = ⟨x :: drawn.map .scan, .ok ((), c')⟩ := by
      rw [bind_apply_of_ok hreport, hadvance]
      rfl
    have hpass : Passes c c' (x :: drawn.map .scan) [.marked m] := by
      refine ⟨hshows.settled, hshows.flaw, ⟨[lx], ?_, ?_⟩, ?_⟩
      · rw [hshows.lexemes, hlexemes]
        rfl
      · rw [List.map_singleton, htoken]
        rfl
      · rw [hunplaced, Action.unplaced_map_scan]
        rfl
    rw [← bind_assoc]
    refine Followed.after hboth hpass ?_ (h.run c' hshows.settled trivial)
    intro xs y ys hws hy
    cases xs with
    | nil =>
      obtain ⟨rfl, rfl⟩ := List.cons.inj hws
      refine hsight _ fun z hz _ => ?_
      obtain ⟨more, hmore⟩ := hsequel z hz c'
      exact ⟨drawn, more, by rw [hmore]⟩
    | cons z zs =>
      have hmem : y ∈ drawn.map Action.scan := by
        rw [(List.cons.inj hws).2]
        simp
      obtain ⟨l, -, rfl⟩ := List.mem_map.mp hmem
      exact absurd rfl hy
  · have hall : (report x >>= fun _ => advance >>= f) c = ⟨[x], .error e⟩ := by
      rw [bind_apply_of_ok hreport, bind_apply_of_error hadvance]
      rfl
    rw [hall]
    rw [hlexemes, List.tail_cons] at htail
    constructor
    case read =>
      intro a c' h
      cases h
    case sighted =>
      intro xs y ys hxs _
      rcases List.append_eq_singleton_iff.mp hxs.symm with ⟨rfl, hy⟩ | ⟨-, hy⟩
      · obtain ⟨rfl, rfl⟩ := List.cons.inj hy
        refine hsight [] fun z _ hend => ?_
        rw [hend htail] at hflaw
        cases hflaw
      · cases hy
    case stopped =>
      rintro e ⟨⟩
      rw [htail] at hlexemes
      have hactions : actionsOf [.marked m] = Action.unplaced [x] := (hunplaced []).symm
      refine stopped_behind hlexemes hflaw ?_ hactions h.possible
      rw [htoken]
      rfl

/-- An identifier is consumed, or none stands here or a failure behind it. -/
theorem identifier_cases {c : Cursor} (hc : c.Settled) :
    (∃ lx rest name drawn c', c.lexemes = lx :: rest ∧ lx.token = .identifier name ∧
      c.pos = lx.pos ∧ identifier c = ⟨List.map Action.scan drawn, .ok (name, c')⟩ ∧
      c'.Shows rest c.flaw c.finish) ∨
    ∃ e, identifier c = ⟨[], .error e⟩ ∧ Stuck c.flaw c.lexemes e := by
  by_cases h : ∃ name, c.token = some (.identifier name)
  · obtain ⟨name, htoken⟩ := h
    obtain ⟨lx, hlx, hname⟩ := Option.map_eq_some_iff.mp htoken
    have hpos : c.pos = lx.pos := by rw [Cursor.pos, hlx]
    rw [hc.current_eq] at hlx
    obtain ⟨rest, hlexemes⟩ := List.head?_eq_some_iff.mp hlx
    have hmoves : identifier c = (advance >>= fun _ => pure name) c := by
      rw [identifier, look_bind_apply, htoken]
    rcases advance_draws c hc with ⟨drawn, c', hadvance, hshows, -⟩ | ⟨e, hadvance, htail, hflaw⟩
    · rw [hlexemes] at hshows
      refine Or.inl ⟨lx, rest, name, drawn, c', hlexemes, hname, hpos, ?_, hshows⟩
      rw [hmoves, bind_apply_of_ok hadvance, pure_apply, List.append_nil]
    · refine Or.inr ⟨e, by rw [hmoves, bind_apply_of_error hadvance], .broken e hflaw ?_⟩
      rw [hlexemes, List.tail_cons] at htail
      rw [hlexemes, htail, List.forall_mem_singleton]
      exact ⟨name, hname⟩
  · have hfail : identifier c = fail .identifier c := by
      rw [identifier, look_bind_apply]
      cases htoken : c.token with
      | none => rfl
      | some t =>
        cases t with
        | identifier name => exact absurd ⟨name, htoken⟩ h
        | _ => rfl
    exact Or.inr ⟨_, hfail, stuck_fail hc .identifier⟩

/-- A name is consumed and then looked at. -/
theorem follows_named_bind {m : String → Mark} {x : String → Position → Action}
    {f : String → Parser β} (htoken : ∀ name, (m name).token = .identifier name)
    (hlooks : ∀ name pos, (x name pos).withPos .start = (m name).action)
    (hscan : ∀ name pos, (x name pos).isScan = false)
    (hplace : ∀ name pos, (x name pos).pos? = some pos)
    (hallows : ∀ name rest, (m name).Allows rest) (hsequel : ∀ name, (m name).sequel = none)
    (h : ∀ name, Follows anyLexemes (f name) (M.behind [.marked (m name)])) :
    Follows start (here >>= fun pos => identifier >>= fun name =>
      report (x name pos) >>= fun _ => f name) M := by
  refine ⟨(h "").possible.of_behind, fun c hc _ => ?_⟩
  have hhere : here c = ⟨[], .ok (c.pos, c)⟩ := rfl
  have hunplaced : ∀ name pos, Action.unplaced [x name pos] = [(m name).action] := by
    intro name pos
    simp [Action.unplaced, Action.withoutScans, hscan, hlooks]
  rw [bind_apply_of_ok hhere, List.nil_append]
  rcases identifier_cases hc with ⟨lx, rest, name, drawn, c', hlexemes, hname, hpos, hread, hshows⟩
    | ⟨e, hread, hstuck⟩
  · have hreport : report (x name c.pos) c' = ⟨[x name c.pos], .ok ((), c')⟩ := rfl
    have hboth : (identifier >>= fun name => report (x name c.pos) >>= fun _ => pure name) c =
        ⟨drawn.map .scan ++ [x name c.pos], .ok (name, c')⟩ := by
      rw [bind_apply_of_ok hread, bind_apply_of_ok hreport]
      rfl
    have hpass : Passes c c' (drawn.map .scan ++ [x name c.pos]) [.marked (m name)] := by
      refine ⟨hshows.settled, hshows.flaw, ⟨[lx], ?_, ?_⟩, ?_⟩
      · rw [hshows.lexemes, hlexemes]
        rfl
      · rw [List.map_singleton, hname, ← htoken]
        rfl
      · rw [Action.unplaced_append, Action.unplaced_map_scan, List.nil_append, hunplaced]
        rfl
    have hsame : (identifier >>= fun name => report (x name c.pos) >>= fun _ => f name) =
        (identifier >>= fun name => report (x name c.pos) >>= fun _ => pure name) >>= f := by
      simp only [bind_assoc, pure_bind]
    change Followed M c ((identifier >>= fun name => report (x name c.pos) >>= fun _ => f name) c)
    rw [hsame]
    refine Followed.after hboth hpass ?_ ((h name).run c' hshows.settled trivial)
    intro xs y ys hws hy
    rcases eq_append_cons_cases hws with ⟨vs, hvs, -⟩ | ⟨vs, rfl, hvs⟩
    · have hmem : y ∈ drawn.map Action.scan := by
        rw [hvs]
        simp
      obtain ⟨l, -, rfl⟩ := List.mem_map.mp hmem
      exact absurd rfl hy
    · rcases List.append_eq_singleton_iff.mp hvs.symm with ⟨rfl, hcons⟩ | ⟨-, hcons⟩
      · obtain ⟨rfl, rfl⟩ := List.cons.inj hcons
        obtain ⟨back, a, hback⟩ := (h name).possible
        refine ⟨[], rest, lx, [], back, m name, a, hlexemes, ?_, hback, ?_, ?_, rfl, ?_,
          hallows name rest, ?_⟩
        · rw [hplace, hpos]
        · exact hlooks name c.pos
        · rw [hname, htoken]
        · rw [List.append_nil, Action.unplaced_map_scan]
          rfl
        · intro z hz
          rw [hsequel] at hz
          cases hz
      · cases hcons
  · change Followed M c ((identifier >>= fun name => report (x name c.pos) >>= fun _ => f name) c)
    rw [bind_apply_of_error hread]
    exact followed_error (stopped_here (h "").possible.of_behind hstuck)

/-! ## Tokens that have to stand somewhere -/

/-- A symbol may stand here. -/
theorem follows_accept_bind {char : Char} {f : Bool → Parser β}
    (hyes : Follows anyLexemes (f true) (M.behind [.token (.symbol char)]))
    (hno : Follows anyLexemes (f false) M) : Follows start (accept char >>= f) M := by
  simp only [accept, bind_assoc]
  refine follows_look_bind hno.possible fun t => ?_
  by_cases ht : t = some (.symbol char)
  · subst ht
    simp only [atSymbol, decide_true, if_true, bind_assoc, pure_bind]
    exact (follows_advance_bind hyes).weaken fun _ h => h.2
  · simp only [atSymbol, ht, decide_false, Bool.false_eq_true, if_false, pure_bind]
    exact hno.restrict

/-- A symbol has to stand here. -/
theorem follows_expect_bind {char : Char} {f : Unit → Parser β}
    (h : Follows anyLexemes (f ()) (M.behind [.token (.symbol char)])) :
    Follows start (expect char >>= f) M := by
  have hfail : (fail (.symbol char) >>= f) = fail (.symbol char) := rfl
  simp only [expect, bind_assoc]
  refine follows_accept_bind ?_ ?_
  · simpa using h
  · simp only [Bool.false_eq_true, if_false, hfail]
    exact follows_fail h.possible.of_behind

/-- A symbol follows the script of its token. -/
theorem follows_expect {char : Char} {L : Scripts Unit} (h : L [.token (.symbol char)] ()) :
    Follows start (expect char) L := by
  rw [← bind_pure (expect char)]
  exact follows_expect_bind (follows_pure h)

/-- Behind a reserved word what is left of the scripts is followed. -/
theorem follows_expectKeyword_bind {word : Keyword} {f : Unit → Parser β}
    (h : Follows anyLexemes (f ()) (M.behind [.token (.keyword word)])) :
    Follows start (expectKeyword word >>= f) M := by
  have hfail : (fail (.keyword word) >>= f) = fail (.keyword word) := rfl
  simp only [expectKeyword, bind_assoc]
  refine follows_look_bind h.possible.of_behind fun t => ?_
  by_cases ht : t = some (.keyword word)
  · subst ht
    simp only [atKeyword, decide_true, if_true]
    exact (follows_advance_bind h).weaken fun _ h => h.2
  · simp only [atKeyword, ht, decide_false, Bool.false_eq_true, if_false, hfail]
    exact follows_fail h.possible.of_behind

/-- An identifier has to stand here. -/
theorem follows_identifier_bind {f : String → Parser β}
    (h : ∀ name, Follows anyLexemes (f name) (M.behind [.token (.identifier name)])) :
    Follows start (identifier >>= f) M := by
  have hpossible := (h "").possible.of_behind
  have hfail : (fail .identifier >>= f) = fail .identifier := rfl
  simp only [identifier, bind_assoc]
  refine follows_look_bind hpossible fun t => ?_
  split
  · next name =>
    simp only [bind_assoc, pure_bind]
    exact (follows_advance_bind (h name)).weaken fun _ h => h.2
  · rw [hfail]
    exact follows_fail hpossible

/-! ## Repetition -/

section Repetition

variable {T : Type} {script : T → List Item}

/-- If a round follows a script, all rounds together follow any number of scripts, whatever the
limit. -/
theorem follows_repeatWhile {test : Option Token → Bool} {round : Parser Unit}
    (h : Follows (atToken (test · = true)) round (.of script)) (limit : Nat) :
    Follows start (repeatWhile test round limit) (.many script) := by
  have hnone : Scripts.many script [] 0 := ⟨[], rfl, rfl⟩
  induction limit generalizing start with
  | zero => exact follows_pure hnone
  | succ limit ih =>
    rw [repeatWhile]
    refine follows_look_bind ⟨[], 0, hnone⟩ fun t => ?_
    cases ht : test t with
    | false =>
      simp only [Bool.false_eq_true, if_false]
      exact follows_pure hnone
    | true =>
      simp only [if_true]
      refine Follows.bind (h.weaken ?_) ?_
      · rintro ls ⟨-, rfl⟩
        exact ht
      rintro s _ ⟨x, rfl⟩
      refine Follows.bind ih ?_
      rintro s _ ⟨xs, rfl, rfl⟩
      refine follows_pure ⟨x :: xs, ?_, rfl⟩
      rw [List.append_nil, List.flatMap_cons]

/-- If an item follows a script, items with commas between them follow scripts with commas between
them. -/
theorem follows_commaSeparated {item : Parser Unit} (h : Follows anyLexemes item (.of script))
    (limit : Nat) : Follows start (commaSeparated item limit) (.commas script) := by
  have hround : Follows (atToken (atSymbol ',' · = true)) (do advance; item)
      (.of fun x => .token (.symbol ',') :: script x) := by
    refine (follows_advance_bind (h.imp ?_)).weaken fun _ ht => of_decide_eq_true ht
    rintro s _ ⟨x, rfl⟩
    exact ⟨x, rfl⟩
  refine Follows.bind h.restrict ?_
  rintro s _ ⟨x, rfl⟩
  refine Follows.bind (follows_repeatWhile hround limit) ?_
  rintro s _ ⟨xs, rfl, rfl⟩
  exact follows_pure ⟨x, xs, by rw [List.append_nil], rfl⟩

end Repetition

end Parser

end JackStack
