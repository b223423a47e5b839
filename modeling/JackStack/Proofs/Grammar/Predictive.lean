import JackStack.Proofs.Grammar.Reads

/-!
# Recognisers that stop at the earliest token

A recogniser is held against the phrases it is to read. It predicts them when whatever it reads is
a phrase, when whatever it has read where it stops can still become one, and when it decides by no
token behind the one where it stops: another input that begins with the same tokens, up to and
including that one, is refused as well. Each elementary recogniser has a law for this relation.
What a recogniser has still to read is the rest of a phrase, so the laws lead from the phrases to
what is left of them behind the part that was read.
-/

namespace JackStack

/-! ## Cursors -/

namespace Cursor

/-- The cursor stands on the first of its lexemes, or at the end of an input without a failure. -/
structure Standing (c : Cursor) : Prop where
  settled : c.Settled
  unbroken : c.lexemes = [] → c.flaw = none

/-- The place of the first lexeme, or of the end of the input where there is none. -/
def placeOf (finish : Position) (lexemes : List Lexeme) : Position :=
  (lexemes.head?.map (·.pos)).getD finish

/-- A settled cursor stands at the place of its first lexeme, or at the end of the source. -/
theorem Settled.pos_eq {c : Cursor} (h : c.Settled) : c.pos = placeOf c.finish c.lexemes := by
  have hcurrent := h.current_eq
  rw [placeOf, ← hcurrent, pos]
  cases c.current <;> rfl

/-- The second cursor stands in front of the same lexemes as far as one place behind a distance,
and no failure follows them. -/
structure Agrees (distance : Nat) (c d : Cursor) : Prop where
  settled : d.Settled
  flaw : d.flaw = none
  finish : d.finish = c.finish
  near : d.lexemes.take (distance + 1) = c.lexemes.take (distance + 1)

namespace Agrees

variable {c d : Cursor} {k m : Nat}

/-- What agrees for a distance agrees for a shorter one. -/
theorem mono (h : c.Agrees m d) (hkm : k ≤ m) : c.Agrees k d := by
  refine ⟨h.settled, h.flaw, h.finish, ?_⟩
  have htake := congrArg (List.take (k + 1)) h.near
  rwa [List.take_take, List.take_take, Nat.min_eq_left (by omega)] at htake

/-- Within the distance both cursors stand in front of the same lexemes. -/
theorem getElem?_eq (h : c.Agrees m d) (hkm : k ≤ m) : d.lexemes[k]? = c.lexemes[k]? := by
  have hget := congrArg (·[k]?) h.near
  simpa [List.getElem?_take, Nat.lt_succ_of_le hkm] using hget

/-- Cursors that agree show the same token. -/
theorem token_eq (h : c.Agrees m d) (hc : c.Settled) : d.token = c.token := by
  have hfirst := h.getElem?_eq (Nat.zero_le m)
  rw [← List.head?_eq_getElem?, ← List.head?_eq_getElem?] at hfirst
  rw [token, token, h.settled.current_eq, hc.current_eq, hfirst]

/-- Cursors that agree stand at the same place. -/
theorem pos_eq (h : c.Agrees m d) (hc : c.Settled) : d.pos = c.pos := by
  have hfirst := h.getElem?_eq (Nat.zero_le m)
  rw [← List.head?_eq_getElem?, ← List.head?_eq_getElem?] at hfirst
  rw [h.settled.pos_eq, hc.pos_eq, placeOf, placeOf, hfirst, h.finish]

/-- Behind the same number of lexemes the cursors agree as far as before. -/
theorem behind {c' d' : Cursor} {flaw : Option Error} (h : c.Agrees (k + m) d)
    (hc : c'.Shows (c.lexemes.drop k) flaw c.finish)
    (hd : d'.Shows (d.lexemes.drop k) none d.finish) : c'.Agrees m d' := by
  refine ⟨hd.settled, hd.flaw, hd.finish.trans (h.finish.trans hc.finish.symm), ?_⟩
  have hdrop := congrArg (List.drop k) h.near
  rwa [List.drop_take, List.drop_take, show k + m + 1 - k = m + 1 by omega, ← hc.lexemes,
    ← hd.lexemes] at hdrop

end Agrees

end Cursor

/-! ## Phrases -/

/-- Phrases: the tokens that are read, the actions that are reported and the value that is given. -/
def Phrases (α : Type) : Type := List Token → List Action → α → Prop

namespace Phrases

variable {α : Type}

/-- What is left of the phrases that begin with these tokens and actions. -/
def behind (L : Phrases α) (front : List Token) (done : List Action) : Phrases α :=
  fun ts acts a => L (front ++ ts) (done ++ acts) a

/-- What is left behind one beginning and then another is left behind both of them. -/
theorem behind_behind (L : Phrases α) (front front' : List Token) (done done' : List Action) :
    (L.behind front done).behind front' done' = L.behind (front ++ front') (done ++ done') := by
  funext ts acts a
  simp only [behind, List.append_assoc]

/-- There is a phrase. -/
def Possible (L : Phrases α) : Prop := ∃ ts acts a, L ts acts a

/-- The phrases of the trees of a kind. -/
def of {T : Type} (tokens : T → List Token) (actions : T → List Action) : Phrases Unit :=
  fun ts acts _ => ∃ x, ts = tokens x ∧ acts = actions x

/-- Any number of phrases one behind the other, and their number. -/
def many {T : Type} (tokens : T → List Token) (actions : T → List Action) : Phrases Nat :=
  fun ts acts n => ∃ xs : List T, ts = xs.flatMap tokens ∧ acts = xs.flatMap actions ∧ n = xs.length

/-- Phrases with commas between them, at least one, and their number. -/
def commas {T : Type} (tokens : T → List Token) (actions : T → List Action) : Phrases Nat :=
  fun ts acts n => ∃ (x : T) (xs : List T),
    ts = tokens x ++ xs.flatMap (fun y => .symbol ',' :: tokens y) ∧
      acts = actions x ++ xs.flatMap actions ∧ n = xs.length + 1

/-- A beginning that can be completed can be completed in front of what can be completed. -/
theorem Possible.behind {β : Type} {L : Phrases α} {M : Phrases β} {front : List Token}
    {done : List Action} (h : (L.behind front done).Possible)
    (hM : ∀ ts acts a, L ts acts a → (M.behind ts acts).Possible) :
    (M.behind front done).Possible := by
  obtain ⟨ts, acts, a, hL⟩ := h
  obtain ⟨ts', acts', b, hphrase⟩ := hM _ _ a hL
  refine ⟨ts ++ ts', acts ++ acts', b, ?_⟩
  simpa only [Phrases.behind, List.append_assoc] using hphrase

/-- If something is left of the phrases behind a beginning, there is a phrase. -/
theorem Possible.of_behind {L : Phrases α} {front : List Token} {done : List Action}
    (h : (L.behind front done).Possible) : L.Possible := by
  obtain ⟨ts, acts, a, hL⟩ := h
  exact ⟨_, _, a, hL⟩

end Phrases

namespace Parser

variable {α β : Type}

/-- How a run ends that predicts the phrases. A second recogniser does the same from every cursor
that agrees with the first one as far as where the run ends. -/
inductive Predicted (least : Nat) (q : Parser α) (L : Phrases α) (c : Cursor) : Parse α → Prop where
  /-- A phrase was read. -/
  | read {xs : List Action} {a : α} {c' : Cursor} (used rest : List Lexeme)
      (split : c.lexemes = used ++ rest) (shows : c'.Shows rest c.flaw c.finish)
      (unbroken : rest = [] → c.flaw = none) (far : least ≤ used.length)
      (phrase : L (used.map (·.token)) (Action.unplaced xs) a)
      (again : ∀ d, c.Agrees used.length d → ∃ ys d', q d = ⟨ys, .ok (a, d')⟩ ∧
        d'.Shows (d.lexemes.drop used.length) none d.finish) :
      Predicted least q L c ⟨xs, .ok (a, c')⟩
  /-- The beginning of a phrase was read when the failure behind the lexemes was met. -/
  | broken {xs : List Action} {e : Error} (flaw : c.flaw = some e) (used : List Token)
      (begun : (L.behind used (Action.unplaced xs)).Possible) :
      Predicted least q L c ⟨xs, .error e⟩
  /-- The beginning of a phrase was read in front of a token that is refused. -/
  | refused {xs : List Action} (used rest : List Lexeme) (expected : Expectation)
      (split : c.lexemes = used ++ rest) (unbroken : rest = [] → c.flaw = none)
      (far : least ≤ used.length)
      (begun : (L.behind (used.map (·.token)) (Action.unplaced xs)).Possible)
      (again : ∀ d, c.Agrees used.length d → ∃ ys e, q d = ⟨ys, .error e⟩) :
      Predicted least q L c ⟨xs, .error (.unexpectedToken (Cursor.placeOf c.finish rest) expected
        (rest.head?.map (·.token)))⟩

/-- In front of at most `size` lexemes, the first of them as `start` says, the first recogniser
predicts the phrases, and it does not stop in front of the first `least` of them. The second
recogniser differs from it in its limits only. -/
structure Predicts (size : Nat) (start : Option Token → Prop) (least : Nat) (p q : Parser α)
    (L : Phrases α) : Prop where
  possible : L.Possible
  run : ∀ c : Cursor, c.Standing → c.lexemes.length ≤ size → start c.token →
    Predicted least q L c (p c)

/-- No condition on the first token. -/
abbrev anyToken : Option Token → Prop := fun _ => True

variable {size : Nat} {start : Option Token → Prop} {least : Nat} {L : Phrases α}
  {M : Phrases β} {p q : Parser α} {f g : α → Parser β}

/-- A run that does not stop before some lexemes does not stop before fewer. -/
theorem Predicted.mono {r : Parse α} {c : Cursor} {least' : Nat} (h : Predicted least q L c r)
    (hleast : least' ≤ least) : Predicted least' q L c r := by
  cases h with
  | read used rest split shows unbroken far phrase again =>
    exact .read used rest split shows unbroken (Nat.le_trans hleast far) phrase again
  | broken flaw used begun => exact .broken flaw used begun
  | refused used rest expected split unbroken far begun again =>
    exact .refused used rest expected split unbroken (Nat.le_trans hleast far) begun again

/-- What predicts phrases predicts any that include them. -/
theorem Predicts.imp {L' : Phrases α} (h : Predicts size start least p q L)
    (himp : ∀ ts acts a, L ts acts a → L' ts acts a) : Predicts size start least p q L' := by
  have hpossible : ∀ ts acts, (L.behind ts acts).Possible → (L'.behind ts acts).Possible := by
    rintro ts acts ⟨ts', acts', a, hL⟩
    exact ⟨ts', acts', a, himp _ _ _ hL⟩
  refine ⟨hpossible [] [] h.possible, ?_⟩
  intro c hc hlength hstart
  have hrun := h.run c hc hlength hstart
  generalize p c = r at hrun ⊢
  cases hrun with
  | read used rest split shows unbroken far phrase again =>
    exact .read used rest split shows unbroken far (himp _ _ _ phrase) again
  | broken flaw used begun => exact .broken flaw used (hpossible _ _ begun)
  | refused used rest expected split unbroken far begun again =>
    exact .refused used rest expected split unbroken far (hpossible _ _ begun) again

/-- What holds under weaker conditions holds under stronger ones. -/
theorem Predicts.weaken {size' least' : Nat} {start' : Option Token → Prop}
    (h : Predicts size start least p q L) (hsize : size' ≤ size)
    (hstart : ∀ t, start' t → start t) (hleast : least' ≤ least) :
    Predicts size' start' least' p q L := by
  refine ⟨h.possible, ?_⟩
  intro c hc hlength ht
  exact (h.run c hc (Nat.le_trans hlength hsize) (hstart _ ht)).mono hleast

/-- Recognisers that do the same in front of the first tokens in question predict the same. -/
theorem Predicts.congr {p' q' : Parser α} (h : Predicts size start least p q L)
    (hp : ∀ c : Cursor, start c.token → p' c = p c)
    (hq : ∀ d : Cursor, start d.token → q' d = q d) : Predicts size start least p' q' L := by
  refine ⟨h.possible, ?_⟩
  intro c hc hlength hstart
  have hagree : ∀ {k d}, c.Agrees k d → q' d = q d := fun hd =>
    hq _ ((hd.token_eq hc.settled).symm ▸ hstart)
  have hrun := h.run c hc hlength hstart
  rw [hp c hstart]
  generalize p c = r at hrun ⊢
  cases hrun with
  | read used rest split shows unbroken far phrase again =>
    refine .read used rest split shows unbroken far phrase fun d hd => ?_
    rw [hagree hd]
    exact again d hd
  | broken flaw used begun => exact .broken flaw used begun
  | refused used rest expected split unbroken far begun again =>
    refine .refused used rest expected split unbroken far begun fun d hd => ?_
    rw [hagree hd]
    exact again d hd

/-- In front of no lexemes there is no first token. -/
theorem Predicts.of_none (h : Predicts 0 (· = none) least p q L) :
    Predicts 0 start least p q L := by
  refine ⟨h.possible, ?_⟩
  intro c hc hlength _
  have hnil : c.lexemes = [] := List.eq_nil_of_length_eq_zero (Nat.le_zero.mp hlength)
  refine h.run c hc hlength ?_
  rw [Cursor.token, hc.settled.current_eq, hnil]
  rfl

/-- Where a recogniser may stop is of no consequence. -/
theorem Predicts.lax (h : Predicts size start least p q L) : Predicts size start 0 p q L :=
  h.weaken (Nat.le_refl size) (fun _ ht => ht) (Nat.zero_le least)

/-- What holds in front of any token holds in front of certain ones. -/
theorem Predicts.restrict (h : Predicts size anyToken least p q L) :
    Predicts size start least p q L :=
  h.weaken (Nat.le_refl size) (fun _ _ => trivial) (Nat.le_refl least)

/-- Behind a first recogniser that has read some lexemes, a second one reads what is left of the
phrases. -/
theorem Predicted.after {c c' : Cursor} {xs : List Action} {a : α} {used rest : List Lexeme}
    (hp : p c = ⟨xs, .ok (a, c')⟩) (split : c.lexemes = used ++ rest)
    (shows : c'.Shows rest c.flaw c.finish)
    (again : ∀ k d, least ≤ k → c.Agrees (used.length + k) d → ∃ ys d', q d = ⟨ys, .ok (a, d')⟩ ∧
      d'.Shows (d.lexemes.drop used.length) none d.finish)
    (h : Predicted least (g a) (M.behind (used.map (·.token)) (Action.unplaced xs)) c' (f a c')) :
    Predicted (used.length + least) (q >>= g) M c ((p >>= f) c) := by
  have hdrop : c.lexemes.drop used.length = rest := by rw [split, List.drop_left]
  have hshows : c'.Shows (c.lexemes.drop used.length) c.flaw c.finish := hdrop ▸ shows
  rw [bind_apply_of_ok hp]
  generalize f a c' = r at h ⊢
  cases h with
  | broken flaw used' begun =>
    refine .broken (shows.flaw ▸ flaw) (used.map (·.token) ++ used') ?_
    rwa [Phrases.behind_behind, ← Action.unplaced_append] at begun
  | refused used' rest' expected split' unbroken' far' begun' again' =>
    rw [shows.finish]
    refine .refused (used ++ used') rest' expected ?_ (shows.flaw ▸ unbroken') ?_ ?_ ?_
    · rw [split, ← shows.lexemes, split', List.append_assoc]
    · rw [List.length_append]
      omega
    · rwa [Phrases.behind_behind, ← Action.unplaced_append, ← List.map_append] at begun'
    · intro d hd
      rw [List.length_append] at hd
      obtain ⟨ys, d', hq, hd'⟩ := again _ d far' hd
      obtain ⟨zs, e, hg⟩ := again' d' (hd.behind hshows hd')
      exact ⟨ys ++ zs, e, by rw [bind_apply_of_ok hq, hg]⟩
  | @read zs b c'' used' rest' split' shows' unbroken' far' phrase' again' =>
    refine .read (used ++ used') rest' ?_ ?_ (shows.flaw ▸ unbroken') ?_ ?_ ?_
    · rw [split, ← shows.lexemes, split', List.append_assoc]
    · rwa [shows.flaw, shows.finish] at shows'
    · rw [List.length_append]
      omega
    · simpa only [Phrases.behind, Action.unplaced_append, List.map_append] using phrase'
    · intro d hd
      rw [List.length_append] at hd
      obtain ⟨ys, d', hq, hd'⟩ := again _ d far' hd
      obtain ⟨zs, d'', hg, hd''⟩ := again' d' (hd.behind hshows hd')
      refine ⟨ys ++ zs, d'', by rw [bind_apply_of_ok hq, hg], ?_⟩
      rwa [hd'.lexemes, hd'.finish, List.drop_drop, ← List.length_append] at hd''

/-- A recogniser and another one behind it, which reads what is left of the phrases. -/
theorem Predicts.bind {m : Nat} (hp : Predicts size start least p q L) (hm : size ≤ m + least)
    (hf : ∀ ts acts a, L ts acts a → Predicts m anyToken 0 (f a) (g a) (M.behind ts acts)) :
    Predicts size start least (p >>= f) (q >>= g) M := by
  have hrest : ∀ ts acts a, L ts acts a → (M.behind ts acts).Possible :=
    fun ts acts a h => (hf ts acts a h).possible
  refine ⟨?_, ?_⟩
  · obtain ⟨ts, acts, a, hL⟩ := hp.possible
    exact (hrest ts acts a hL).of_behind
  intro c hc hlength hstart
  have hrun := hp.run c hc hlength hstart
  generalize hpc : p c = r at hrun
  cases hrun with
  | broken flaw used begun =>
    rw [bind_apply_of_error hpc]
    exact .broken flaw used (begun.behind hrest)
  | refused used rest expected split unbroken far begun again =>
    rw [bind_apply_of_error hpc]
    refine .refused used rest expected split unbroken far (begun.behind hrest) ?_
    intro d hd
    obtain ⟨ys, e, hq⟩ := again d hd
    exact ⟨ys, e, bind_apply_of_error hq g⟩
  | @read xs a c' used rest split shows unbroken far phrase again =>
    have hc' : c'.Standing :=
      ⟨shows.settled, fun h => shows.flaw.trans (unbroken (shows.lexemes.symm.trans h))⟩
    have hlength' : c'.lexemes.length ≤ m := by
      have hsum := congrArg List.length split
      rw [List.length_append] at hsum
      rw [shows.lexemes]
      omega
    have hnext := (hf _ _ a phrase).run c' hc' hlength' trivial
    refine (Predicted.after hpc split shows ?_ hnext).mono far
    intro k d _ hd
    exact again d (hd.mono (Nat.le_add_right _ _))

/-! ## Elementary recognisers -/

/-- What needs no token is in place if the phrase is complete. -/
theorem predicts_pure {a : α} (h : L [] [] a) : Predicts size start 0 (pure a) (pure a) L := by
  refine ⟨⟨[], [], a, h⟩, ?_⟩
  intro c hc _ _
  refine .read [] c.lexemes rfl ⟨hc.settled, rfl, rfl, rfl⟩ hc.unbroken (Nat.zero_le _) h ?_
  intro d hd
  exact ⟨[], d, rfl, hd.settled, rfl, hd.flaw, rfl⟩

/-- A failure is in place wherever the phrase can still be completed. -/
theorem predicts_fail {expected : Expectation} (h : L.Possible) :
    Predicts size start 0 (fail expected) (fail expected) L := by
  refine ⟨h, ?_⟩
  intro c hc _ _
  have hfail : (fail expected : Parser α) c = ⟨[], .error (.unexpectedToken
      (Cursor.placeOf c.finish c.lexemes) expected (c.lexemes.head?.map (·.token)))⟩ := by
    rw [fail, hc.settled.pos_eq, Cursor.token, hc.settled.current_eq]
  rw [hfail]
  refine .refused [] c.lexemes expected rfl hc.unbroken (Nat.zero_le _) h ?_
  intro d _
  exact ⟨[], _, rfl⟩

/-- A report belongs to the phrase. -/
theorem predicts_report {x : Action} {L : Phrases Unit} (h : L [] (Action.unplaced [x]) ()) :
    Predicts size start 0 (report x) (report x) L := by
  refine ⟨⟨[], _, (), h⟩, ?_⟩
  intro c hc _ _
  refine .read [] c.lexemes rfl ⟨hc.settled, rfl, rfl, rfl⟩ hc.unbroken (Nat.zero_le _) h ?_
  intro d hd
  exact ⟨[x], d, rfl, hd.settled, rfl, hd.flaw, rfl⟩

/-- Behind a recogniser that stays where it is, another one reads what is left of the phrases. -/
theorem Predicted.stay {c : Cursor} {xs : List Action} {a : α} (hc : c.Settled)
    (hp : p c = ⟨xs, .ok (a, c)⟩) (hq : ∀ k d, c.Agrees k d → q d = ⟨xs, .ok (a, d)⟩)
    (h : Predicted least (g a) (M.behind [] (Action.unplaced xs)) c (f a c)) :
    Predicted least (q >>= g) M c ((p >>= f) c) := by
  have hshows : c.Shows c.lexemes c.flaw c.finish := ⟨hc, rfl, rfl, rfl⟩
  rw [← Nat.zero_add least]
  refine Predicted.after hp (List.nil_append c.lexemes).symm hshows ?_ h
  intro k d _ hd
  exact ⟨xs, d, hq _ d hd, hd.settled, rfl, hd.flaw, rfl⟩

/-- What is reported stands in front of the rest of the phrase. -/
theorem predicts_report_bind {x : Action} {f g : Unit → Parser β}
    (h : Predicts size start least (f ()) (g ()) (M.behind [] (Action.unplaced [x]))) :
    Predicts size start least (report x >>= f) (report x >>= g) M := by
  refine ⟨h.possible.of_behind, ?_⟩
  intro c hc hlength hstart
  exact (h.run c hc hlength hstart).stay hc.settled rfl fun _ _ _ => rfl

/-- The current token decides what follows. -/
theorem predicts_look_bind {f g : Option Token → Parser β} (hM : M.Possible)
    (h : ∀ t, start t → Predicts size (· = t) least (f t) (g t) M) :
    Predicts size start least (look >>= f) (look >>= g) M := by
  refine ⟨hM, ?_⟩
  intro c hc hlength hstart
  refine ((h c.token hstart).run c hc hlength rfl).stay hc.settled rfl ?_
  intro k d hd
  rw [look, hd.token_eq hc.settled]

/-- What follows may use the place of the current token. -/
theorem predicts_here_bind {f g : Position → Parser β}
    (h : ∀ pos, Predicts size start least (f pos) (g pos) M) :
    Predicts size start least (here >>= f) (here >>= g) M := by
  refine ⟨(h .start).possible, ?_⟩
  intro c hc hlength hstart
  refine ((h c.pos).run c hc hlength hstart).stay hc.settled rfl ?_
  intro k d hd
  rw [here, hd.pos_eq hc.settled]

/-- Moving on from a known token leaves the rest of the phrase. -/
theorem predicts_advance_bind {t : Token} {m : Nat} {f g : Unit → Parser β} (hm : size ≤ m + 1)
    (h : Predicts m anyToken 0 (f ()) (g ()) (M.behind [t] [])) :
    Predicts size (· = some t) 1 (advance >>= f) (advance >>= g) M := by
  refine ⟨h.possible.of_behind, ?_⟩
  intro c hc hlength hstart
  obtain ⟨rest, lx, hlexemes, rfl⟩ : ∃ rest lx, c.lexemes = lx :: rest ∧ lx.token = t := by
    rw [Cursor.token, hc.settled.current_eq] at hstart
    cases hl : c.lexemes with
    | nil => rw [hl] at hstart; cases hstart
    | cons lx rest => rw [hl] at hstart; exact ⟨rest, lx, rfl, Option.some.inj hstart⟩
  rcases advance_draws c hc.settled with ⟨drawn, c', hadvance, hshows, hend⟩ | ⟨e, hadvance, -, he⟩
  · rw [hlexemes, List.tail_cons] at hshows hend
    have hc' : c'.Standing :=
      ⟨hshows.settled, fun hnil => hshows.flaw.trans (hend (hshows.lexemes.symm.trans hnil))⟩
    have hlength' : c'.lexemes.length ≤ m := by
      rw [hlexemes, List.length_cons] at hlength
      rw [hshows.lexemes]
      omega
    have hrun := h.run c' hc' hlength' trivial
    rw [← Action.unplaced_map_scan drawn] at hrun
    have hsplit : c.lexemes = [lx] ++ rest := hlexemes
    refine Predicted.after hadvance hsplit hshows ?_ hrun
    intro k d _ hd
    rcases advance_draws d hd.settled with ⟨drawn', d', hd', hshows', -⟩ | ⟨e, -, -, he⟩
    · refine ⟨_, d', hd', ?_⟩
      rw [← hd.flaw, List.length_singleton, List.drop_one]
      exact hshows'
    · rw [hd.flaw] at he
      cases he
  · rw [bind_apply_of_error hadvance]
    exact .broken he [] h.possible.of_behind

/-- What follows may use the token behind the current one, if it does not stop in front of the
current one. -/
theorem predicts_peek_bind {f g : Option Token → Parser β}
    (h : ∀ next, Predicts size start 1 (f next) (g next) M) :
    Predicts size start 1 (peek >>= f) (peek >>= g) M := by
  refine ⟨(h none).possible, ?_⟩
  intro c hc hlength hstart
  rcases peek_draws c hc.settled with ⟨drawn, c', hpeek, hshows, -⟩ | ⟨e, hpeek, -, he⟩
  · have hc' : c'.Standing :=
      ⟨hshows.settled, fun hnil => hshows.flaw.trans (hc.unbroken (hshows.lexemes.symm.trans hnil))⟩
    have htoken : c'.token = c.token := by
      rw [Cursor.token, Cursor.token, hshows.settled.current_eq, hc.settled.current_eq,
        hshows.lexemes, id]
    have hrun := (h c.tokens.tail.head?).run c' hc' (hshows.lexemes ▸ hlength) (htoken ▸ hstart)
    have hphrases : M = M.behind [] (Action.unplaced (drawn.map .scan)) := by
      rw [Action.unplaced_map_scan]
      rfl
    rw [hphrases] at hrun
    rw [← Nat.zero_add 1]
    refine Predicted.after hpeek (List.nil_append c.lexemes).symm hshows ?_ hrun
    intro k d hk hd
    have hsecond : d.lexemes[1]? = c.lexemes[1]? := hd.getElem?_eq (Nat.le_add_left_of_le hk)
    have hnext : d.tokens.tail.head? = c.tokens.tail.head? := by
      simp only [Cursor.tokens, ← List.map_tail, List.head?_map, List.head?_tail, hsecond]
    rcases peek_draws d hd.settled with ⟨drawn', d', hd', hshows', -⟩ | ⟨e, -, -, he⟩
    · simp only [hnext] at hd'
      refine ⟨_, d', hd', ?_⟩
      rw [← hd.flaw]
      exact hshows'
    · rw [hd.flaw] at he
      cases he
  · rw [bind_apply_of_error hpeek]
    exact .broken he [] (h none).possible

/-! ## Tokens that have to stand somewhere -/

/-- A symbol may stand here. -/
theorem predicts_accept_bind {char : Char} {f g : Bool → Parser β}
    (hyes : Predicts size anyToken 0 (f true) (g true) (M.behind [.symbol char] []))
    (hno : Predicts size (· ≠ some (.symbol char)) 0 (f false) (g false) M) :
    Predicts size anyToken 0 (accept char >>= f) (accept char >>= g) M := by
  simp only [accept, bind_assoc]
  refine predicts_look_bind hno.possible ?_
  intro t _
  by_cases ht : t = some (.symbol char)
  · subst ht
    simp only [atSymbol, decide_true, if_true, bind_assoc, pure_bind]
    exact (predicts_advance_bind (Nat.le_succ size) hyes).lax
  · simp only [atSymbol, ht, decide_false, Bool.false_eq_true, if_false, pure_bind]
    exact hno.weaken (Nat.le_refl _) (fun _ h => h ▸ ht) (Nat.le_refl 0)

/-- A symbol has to stand here. -/
theorem predicts_expect_bind {char : Char} {f g : Unit → Parser β}
    (h : Predicts size anyToken 0 (f ()) (g ()) (M.behind [.symbol char] [])) :
    Predicts size anyToken 0 (expect char >>= f) (expect char >>= g) M := by
  have hfail : ∀ k : Unit → Parser β, (fail (.symbol char) >>= k) = fail (.symbol char) :=
    fun _ => rfl
  simp only [expect, bind_assoc]
  refine predicts_accept_bind ?_ ?_
  · simpa using h
  · simp only [Bool.false_eq_true, if_false, hfail]
    exact predicts_fail h.possible.of_behind

/-- A symbol alone is a phrase. -/
theorem predicts_expect {char : Char} {L : Phrases Unit} (h : L [.symbol char] [] ()) :
    Predicts size anyToken 0 (expect char) (expect char) L := by
  rw [← bind_pure (expect char)]
  exact predicts_expect_bind (predicts_pure h)

/-- Behind a reserved word what is left of the phrases is predicted. -/
theorem predicts_expectKeyword_bind {word : Keyword} {f g : Unit → Parser β}
    (h : Predicts size anyToken 0 (f ()) (g ()) (M.behind [.keyword word] [])) :
    Predicts size anyToken 0 (expectKeyword word >>= f) (expectKeyword word >>= g) M := by
  have hfail : ∀ k : Unit → Parser β, (fail (.keyword word) >>= k) = fail (.keyword word) :=
    fun _ => rfl
  simp only [expectKeyword, bind_assoc]
  refine predicts_look_bind h.possible.of_behind ?_
  intro t _
  by_cases ht : t = some (.keyword word)
  · subst ht
    simp only [atKeyword, decide_true, if_true]
    exact (predicts_advance_bind (Nat.le_succ size) h).lax
  · simp only [atKeyword, ht, decide_false, Bool.false_eq_true, if_false, hfail]
    exact predicts_fail h.possible.of_behind

/-- An identifier stands here. -/
theorem predicts_named_bind {name : String} {m : Nat} {f g : String → Parser β}
    (hm : size ≤ m + 1)
    (h : Predicts m anyToken 0 (f name) (g name) (M.behind [.identifier name] [])) :
    Predicts size (· = some (.identifier name)) 1 (identifier >>= f) (identifier >>= g) M := by
  simp only [identifier, bind_assoc]
  refine predicts_look_bind h.possible.of_behind ?_
  rintro t rfl
  simp only [bind_assoc, pure_bind]
  exact predicts_advance_bind hm h

/-- An identifier has to stand here. -/
theorem predicts_identifier_bind {f g : String → Parser β}
    (h : ∀ name, Predicts size anyToken 0 (f name) (g name) (M.behind [.identifier name] [])) :
    Predicts size anyToken 0 (identifier >>= f) (identifier >>= g) M := by
  have hpossible := (h "").possible.of_behind
  have hfail : ∀ k : String → Parser β, (fail .identifier >>= k) = fail .identifier := fun _ => rfl
  simp only [identifier, bind_assoc]
  refine predicts_look_bind hpossible ?_
  intro t _
  split
  · next name _ =>
    simp only [bind_assoc, pure_bind]
    exact (predicts_advance_bind (Nat.le_succ size) (h name)).lax
  · rw [hfail]
    exact predicts_fail hpossible

/-! ## Repetition -/

section Repetition

variable {T : Type} {tokens : T → List Token} {actions : T → List Action}

/-- No round is made where the test fails, whatever the limit. -/
theorem repeatWhile_of_stop {test : Option Token → Bool} {c : Cursor} (h : test c.token = false)
    (round : Parser Unit) (limit : Nat) : repeatWhile test round limit c = ⟨[], .ok (0, c)⟩ := by
  cases limit with
  | zero => rfl
  | succ limit =>
    rw [repeatWhile, look_bind_apply, h]
    rfl

/-- If a round reads a phrase and moves on, all rounds together read any number of phrases. A limit
that is not below the number of lexemes does not matter. The rounds use up their limits, but the
size that a round is good for stays as it is. -/
theorem predicts_repeatWhile {test : Option Token → Bool} {round round' : Parser Unit}
    (h : Predicts size (test · = true) 1 round round' (.of tokens actions))
    (hnone : test none = false) {limit limit' : Nat} (hlimit : size ≤ limit)
    (hlimit' : size ≤ limit') :
    Predicts size anyToken 0 (repeatWhile test round limit) (repeatWhile test round' limit')
      (.many tokens actions) := by
  suffices hall : ∀ n ≤ size, ∀ limit limit', n ≤ limit → n ≤ limit' →
      Predicts n anyToken 0 (repeatWhile test round limit) (repeatWhile test round' limit')
        (.many tokens actions) from
    hall size (Nat.le_refl _) limit limit' hlimit hlimit'
  have hpossible : (Phrases.many tokens actions).Possible := ⟨[], [], 0, [], rfl, rfl, rfl⟩
  intro n
  induction n with
  | zero =>
    intro _ limit limit' _ _
    have hnothing : Predicts 0 (· = none) 0 (pure 0) (pure 0) (.many tokens actions) :=
      predicts_pure ⟨[], rfl, rfl, rfl⟩
    refine (hnothing.congr ?_ ?_).of_none
    · exact fun c hc => repeatWhile_of_stop (hc ▸ hnone) round limit
    · exact fun d hd => repeatWhile_of_stop (hd ▸ hnone) round' limit'
  | succ n ih =>
    intro hn limit limit' hlimit hlimit'
    obtain ⟨limit, rfl⟩ : ∃ k, limit = k + 1 := ⟨limit - 1, by omega⟩
    obtain ⟨limit', rfl⟩ : ∃ k, limit' = k + 1 := ⟨limit' - 1, by omega⟩
    have hrest := ih (by omega) limit limit' (by omega) (by omega)
    have hround := h.weaken hn (fun _ ht => ht) (Nat.le_refl 1)
    rw [repeatWhile, repeatWhile]
    refine predicts_look_bind hpossible ?_
    intro t _
    cases ht : test t with
    | false =>
      simp only [Bool.false_eq_true, if_false]
      exact predicts_pure ⟨[], rfl, rfl, rfl⟩
    | true =>
      simp only [if_true]
      have hgo := hround.weaken (Nat.le_refl _) (fun s (hs : s = t) => hs ▸ ht) (Nat.le_refl 1)
      refine (hgo.bind (Nat.le_refl (n + 1)) ?_).lax
      rintro ts acts _ ⟨x, rfl, rfl⟩
      refine Predicts.bind hrest (Nat.le_refl n) ?_
      rintro ts acts _ ⟨xs, rfl, rfl, rfl⟩
      refine predicts_pure ⟨x :: xs, ?_, ?_, rfl⟩
      · rw [List.append_nil, List.flatMap_cons]
      · rw [List.append_nil, List.flatMap_cons]

/-- If an item is a phrase, items with commas between them are phrases with commas between them. -/
theorem predicts_commaSeparated {item item' : Parser Unit}
    (h : Predicts size anyToken 0 item item' (.of tokens actions)) {limit limit' : Nat}
    (hlimit : size ≤ limit) (hlimit' : size ≤ limit') :
    Predicts size anyToken 0 (commaSeparated item limit) (commaSeparated item' limit')
      (.commas tokens actions) := by
  have hround : Predicts size (atSymbol ',' · = true) 1 (do advance; item) (do advance; item')
      (.of (fun x => .symbol ',' :: tokens x) actions) := by
    have hitem : Predicts size anyToken 0 item item'
        ((Phrases.of (fun x => .symbol ',' :: tokens x) actions).behind [.symbol ','] []) := by
      refine h.imp ?_
      rintro ts acts _ ⟨x, rfl, rfl⟩
      exact ⟨x, rfl, rfl⟩
    refine Predicts.weaken (predicts_advance_bind (Nat.le_succ size) hitem) (Nat.le_refl _) ?_
      (Nat.le_refl 1)
    intro t ht
    exact of_decide_eq_true ht
  refine h.bind (Nat.le_refl size) ?_
  rintro ts acts _ ⟨x, rfl, rfl⟩
  refine (predicts_repeatWhile hround rfl hlimit hlimit').bind (Nat.le_refl size) ?_
  rintro ts acts _ ⟨xs, rfl, rfl, rfl⟩
  exact predicts_pure ⟨x, xs, by rw [List.append_nil], by rw [List.append_nil], rfl⟩

end Repetition

end Parser

end JackStack
