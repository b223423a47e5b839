import JackStack.Source.Progress

/-!
# Sources whose reading fails

Scanning the first bytes of a source either comes to an outcome without looking at anything behind
them, or it needs what stands behind them and fails where reading fails there. So the outcomes up to
the failed reading are those of every source that begins with the same bytes.
-/

namespace JackStack

/-! ## Failing at an offset -/

namespace Reading

theorem ofBytes_append (front back : List UInt8) :
    ofBytes (front ++ back) = ofBytes front ++ ofBytes back :=
  List.map_append

/-- Reading that fails at an offset gives the bytes before it, the failure, and then the others. -/
theorem ofBytesFailingAt_of_le {n : Nat} {bytes : List UInt8} (h : n ≤ bytes.length)
    (cause : IoError) : ofBytesFailingAt n cause bytes =
      ofBytes (bytes.take n) ++ .fault cause :: ofBytes (bytes.drop n) :=
  if_pos h

/-- A failure behind the end is none. -/
theorem ofBytesFailingAt_of_lt {n : Nat} {bytes : List UInt8} (h : bytes.length < n)
    (cause : IoError) : ofBytesFailingAt n cause bytes = ofBytes bytes :=
  if_neg (Nat.not_le.mpr h)

/-- In front of the offset at which it fails a source holds its bytes. -/
theorem exists_ofBytesFailingAt_eq {m n : Nat} (h : n ≤ m) (cause : IoError)
    (bytes : List UInt8) :
    ∃ back, ofBytesFailingAt m cause bytes = ofBytes (bytes.take n) ++ back := by
  by_cases hm : m ≤ bytes.length
  · have htake : bytes.take m = bytes.take n ++ (bytes.take m).drop n := by
      have hsplit := (List.take_append_drop n (bytes.take m)).symm
      rwa [List.take_take, Nat.min_eq_left h] at hsplit
    rw [ofBytesFailingAt_of_le hm, htake, ofBytes_append, List.append_assoc]
    exact ⟨_, rfl⟩
  · rw [ofBytesFailingAt_of_lt (Nat.not_le.mp hm)]
    refine ⟨ofBytes (bytes.drop n), ?_⟩
    rw [← ofBytes_append, List.take_append_drop]

/-- A source is bytes, or bytes behind which reading fails. -/
theorem ofBytes_or_fault (readings : List Reading) : (∃ bytes, readings = ofBytes bytes) ∨
    ∃ bytes cause back, readings = ofBytes bytes ++ .fault cause :: back := by
  induction readings with
  | nil => exact .inl ⟨[], rfl⟩
  | cons r readings ih =>
    cases r with
    | fault cause => exact .inr ⟨[], cause, readings, rfl⟩
    | byte b =>
      rcases ih with ⟨bytes, rfl⟩ | ⟨bytes, cause, back, rfl⟩
      · exact .inl ⟨b :: bytes, rfl⟩
      · exact .inr ⟨b :: bytes, cause, back, rfl⟩

end Reading

/-! ## Scanning up to a failed reading -/

namespace Unread

/-- How something is taken from the front of a source that begins with these bytes: from the bytes
alone, whatever stands behind them, or only by reading on, and then it fails if that fails. -/
inductive Decided {α : Type} (take : List Reading → α × Unread) (fault : IoError → α)
    (bytes : List UInt8) : Prop where
  | found (value : α) (pos : Position) (left : List UInt8)
      (taken : ∀ rest, take (Reading.ofBytes bytes ++ rest) =
        (value, ⟨pos, Reading.ofBytes left ++ rest⟩))
  | undecided (failed : ∀ e rest, (take (Reading.ofBytes bytes ++ .fault e :: rest)).1 = fault e)

namespace Decided

variable {α β : Type} {take take' : List Reading → α × Unread} {fault : IoError → α}
  {bytes : List UInt8}

/-- Nothing can be known without reading. -/
theorem nil (h : ∀ e rest, (take (.fault e :: rest)).1 = fault e) : Decided take fault [] :=
  .undecided h

/-- A byte leads to taking something from the others. -/
theorem cons {b : UInt8} (h : ∀ rs, take (.byte b :: rs) = take' rs)
    (htake : Decided take' fault bytes) : Decided take fault (b :: bytes) := by
  cases htake with
  | found value pos left taken =>
    exact .found value pos left fun rest => (h _).trans (taken rest)
  | undecided failed =>
    exact .undecided fun e rest => (congrArg Prod.fst (h _)).trans (failed e rest)

/-- What is taken may be looked at in another way. -/
theorem map {take' : List Reading → β × Unread} {f : α → β} (htake : Decided take fault bytes)
    (h : ∀ rs, take' rs = (f (take rs).1, (take rs).2)) :
    Decided take' (fun e => f (fault e)) bytes := by
  cases htake with
  | found value pos left taken =>
    refine .found (f value) pos left fun rest => ?_
    rw [h, taken]
  | undecided failed =>
    refine .undecided fun e rest => ?_
    rw [h, failed]

end Decided

/-- Taking bytes is decided by the bytes, or it meets the failure behind them. -/
theorem takeWhile_decided (test : UInt8 → Bool) (taken : List UInt8) (pos : Position)
    (bytes : List UInt8) :
    Decided (takeWhile test taken pos) (fun e => .error (.io e)) bytes := by
  induction bytes generalizing taken pos with
  | nil => exact .nil fun _ _ => rfl
  | cons b bytes ih =>
    by_cases hb : test b = true
    · exact .cons (fun _ => if_pos hb) (ih (b :: taken) (pos.step b))
    · exact .found (.ok taken.reverse) pos (b :: bytes) fun _ => if_neg hb

/-- Taking the content of a string is decided by the bytes, or it meets the failure behind them. -/
theorem takeQuoted_decided (start : Position) (taken : List UInt8) (pos : Position)
    (bytes : List UInt8) :
    Decided (takeQuoted start taken pos) (fun e => .error (.io e)) bytes := by
  induction bytes generalizing taken pos with
  | nil => exact .nil fun _ _ => rfl
  | cons b bytes ih =>
    by_cases hb : b = 34
    · exact .found (.ok taken.reverse) (pos.step b) bytes fun _ => if_pos hb
    · exact .cons (fun _ => if_neg hb) (ih (b :: taken) (pos.step b))

/-- Scanning a token is decided by the bytes, or it meets the failure behind them. -/
theorem token_decided (start : Position) (b : UInt8) (pos : Position) (bytes : List UInt8) :
    Decided (token start b pos) (fun e => .error (.io e)) bytes := by
  by_cases hsymbol : isSymbolByte b = true
  · exact .found (.ok (.symbol (byteChar b))) pos bytes fun _ => if_pos hsymbol
  by_cases hquote : b = 34
  · refine ((takeQuoted_decided start [] pos bytes).map
      (f := fun content => content.bind (stringToken start))) fun rs => ?_
    rw [token, if_neg hsymbol, if_pos hquote]
  by_cases hdigit : isDigit b = true
  · refine ((takeWhile_decided isDigit [b] pos bytes).map
      (f := Except.map fun ds => .integer (digitsValue ds))) fun rs => ?_
    rw [token, if_neg hsymbol, if_neg hquote, if_pos hdigit]
  by_cases hletter : isLetter b = true
  · refine ((takeWhile_decided isWordByte [b] pos bytes).map
      (f := Except.map wordToken)) fun rs => ?_
    rw [token, if_neg hsymbol, if_neg hquote, if_neg hdigit, if_pos hletter]
  · refine .found (.error (.unexpectedChar start (byteChar b))) pos bytes fun rest => ?_
    rw [token, if_neg hsymbol, if_neg hquote, if_neg hdigit, if_neg hletter]

/-- Skipping a gap and taking the lexeme behind it. -/
theorem nextFrom_decided (g : Gap) (pos : Position) (bytes : List UInt8) :
    Decided (nextFrom g pos) (fun e => some (.failure (.io e))) bytes := by
  induction bytes generalizing g pos with
  | nil => exact .nil fun _ _ => by cases g <;> rfl
  | cons b bytes ih =>
    cases g with
    | blank =>
      by_cases hblank : isBlank b = true
      · exact .cons (fun _ => if_pos hblank) (ih .blank (pos.step b))
      by_cases hslash : b = 47
      · refine .cons (fun rs => ?_) (ih (.slash pos) (pos.step b))
        rw [nextFrom, if_neg hblank, if_pos hslash]
      · have htoken := (token_decided pos b (pos.step b) bytes).map
          (f := fun result => some (Outcome.ofToken pos result)) fun _ => rfl
        refine .cons (fun rs => ?_) htoken
        rw [nextFrom, if_neg hblank, if_neg hslash]
    | slash start =>
      by_cases hslash : b = 47
      · exact .cons (fun _ => if_pos hslash) (ih .line (pos.step b))
      by_cases hstar : b = 42
      · refine .cons (fun rs => ?_) (ih (.block start false) (pos.step b))
        rw [nextFrom, if_neg hslash, if_pos hstar]
      · refine .found (some (.lexeme ⟨.symbol '/', start⟩)) pos (b :: bytes) fun rest => ?_
        change nextFrom _ _ (.byte b :: _) = _
        rw [nextFrom, if_neg hslash, if_neg hstar]
        rfl
    | line => exact .cons (fun _ => rfl) (ih _ (pos.step b))
    | block start star =>
      by_cases hclose : (b = 47 && star) = true
      · exact .cons (fun _ => if_pos hclose) (ih .blank (pos.step b))
      · exact .cons (fun _ => if_neg hclose) (ih (.block start (b = 42)) (pos.step b))

/-- The outcomes of a source whose reading fails behind some bytes: those up to the failure are
outcomes of every source that begins with these bytes. The end of the input is not seen in front of
something. -/
theorem outcomes_of_fault (pos : Position) (bytes : List UInt8) (e : IoError)
    (back back' : List Reading) : ∃ common more more',
      outcomes ⟨pos, Reading.ofBytes bytes ++ .fault e :: back⟩ =
        common ++ .failure (.io e) :: more ∧
      outcomes ⟨pos, Reading.ofBytes bytes ++ back'⟩ = common ++ more' := by
  generalize hn : bytes.length = n
  induction n using Nat.strongRecOn generalizing pos bytes with
  | ind n ih =>
    subst hn
    cases nextFrom_decided .blank pos bytes with
    | undecided failed =>
      have hnext : next ⟨pos, Reading.ofBytes bytes ++ .fault e :: back⟩ =
          (some (.failure (.io e)), (next ⟨pos, Reading.ofBytes bytes ++ .fault e :: back⟩).2) :=
        Prod.ext (failed e back) rfl
      exact ⟨[], _, _, outcomes_of_next_some hnext, rfl⟩
    | found value pos' left taken =>
      have hnext : ∀ rest, next ⟨pos, Reading.ofBytes bytes ++ rest⟩ =
        (value, ⟨pos', Reading.ofBytes left ++ rest⟩) := taken
      cases value with
      | none =>
        have hnil := readings_eq_nil_of_nextFrom_none (congrArg Prod.fst (taken [.fault e]))
        rw [taken] at hnil
        exact absurd hnil (List.append_ne_nil_of_right_ne_nil _ (List.cons_ne_nil _ _))
      | some o =>
        have hlt := length_next_lt (hnext [])
        simp only [Reading.ofBytes, List.append_nil, List.length_map] at hlt
        obtain ⟨common, more, more', hcommon, hcommon'⟩ := ih left.length hlt pos' left rfl
        refine ⟨o :: common, more, more', ?_, ?_⟩
        · rw [outcomes_of_next_some (hnext _), hcommon, List.cons_append]
        · rw [outcomes_of_next_some (hnext _), hcommon', List.cons_append]

end Unread

end JackStack
