import JackStack.Source.Lexing

/-!
# What scanning takes from a source

Scanning takes readings from the front and moves the position over exactly the bytes among them.
Every outcome takes at least one reading, so the outcomes of a source are those of its first call
of `next` followed by those of what that call leaves unread.
-/

namespace JackStack.Unread

/-- The second is what is left of the first behind some readings, at the position behind their
bytes. -/
def Reaches (u v : Unread) : Prop :=
  ∃ front, u.readings = front ++ v.readings ∧ v.pos = u.pos.after (Reading.bytes front)

theorem Reaches.refl (u : Unread) : u.Reaches u := ⟨[], rfl, rfl⟩

/-- What is reached from where something was reached is reached from the start. -/
theorem Reaches.trans {u v w : Unread} (huv : u.Reaches v) (hvw : v.Reaches w) : u.Reaches w := by
  obtain ⟨front, hr, hp⟩ := huv
  obtain ⟨middle, hr', hp'⟩ := hvw
  refine ⟨front ++ middle, ?_, ?_⟩
  · rw [hr, hr', List.append_assoc]
  · rw [hp', hp, Reading.bytes_append, Position.after_append]

/-- Reading a byte moves the position over it. -/
theorem Reaches.byte (pos : Position) (b : UInt8) (rest : List Reading) :
    Reaches ⟨pos, .byte b :: rest⟩ ⟨pos.step b, rest⟩ := ⟨[.byte b], rfl, rfl⟩

/-- A failed reading leaves the position. -/
theorem Reaches.fault (pos : Position) (e : IoError) (rest : List Reading) :
    Reaches ⟨pos, .fault e :: rest⟩ ⟨pos, rest⟩ := ⟨[.fault e], rfl, rfl⟩

/-- No reading is added on the way. -/
theorem Reaches.length_le {u v : Unread} (h : u.Reaches v) :
    v.readings.length ≤ u.readings.length := by
  obtain ⟨front, hr, -⟩ := h
  rw [hr, List.length_append]
  omega

/-- The end of the input stays where it is. -/
theorem Reaches.finish_eq {u v : Unread} (h : u.Reaches v) : v.finish = u.finish := by
  obtain ⟨front, hr, hp⟩ := h
  simp only [finish, hr, hp, Reading.bytes_append, Position.after_append]

/-- Taking bytes while they pass a test reaches what is left. -/
theorem takeWhile_reaches (test : UInt8 → Bool) (taken : List UInt8) (pos : Position)
    (rs : List Reading) : Reaches ⟨pos, rs⟩ (takeWhile test taken pos rs).2 := by
  induction rs generalizing taken pos with
  | nil => exact .refl _
  | cons r rest ih =>
    cases r with
    | fault e => exact .fault pos e rest
    | byte b =>
      rw [takeWhile]
      split
      · exact (Reaches.byte pos b rest).trans (ih (b :: taken) (pos.step b))
      · exact .refl _

/-- Taking the content of a string reaches what is left. -/
theorem takeQuoted_reaches (start : Position) (taken : List UInt8) (pos : Position)
    (rs : List Reading) : Reaches ⟨pos, rs⟩ (takeQuoted start taken pos rs).2 := by
  induction rs generalizing taken pos with
  | nil => exact .refl _
  | cons r rest ih =>
    cases r with
    | fault e => exact .fault pos e rest
    | byte b =>
      rw [takeQuoted]
      split
      · exact .byte pos b rest
      · exact (Reaches.byte pos b rest).trans (ih (b :: taken) (pos.step b))

/-- Scanning a token reaches what is left behind it. -/
theorem token_reaches (start : Position) (b : UInt8) (pos : Position) (rs : List Reading) :
    Reaches ⟨pos, rs⟩ (token start b pos rs).2 := by
  unfold token
  split
  · exact .refl _
  split
  · exact takeQuoted_reaches start [] pos rs
  split
  · exact takeWhile_reaches isDigit [b] pos rs
  split
  · exact takeWhile_reaches isWordByte [b] pos rs
  · exact .refl _

/-- Skipping a gap and taking the lexeme behind it takes readings from the front. -/
theorem nextFrom_reaches (g : Gap) (pos : Position) (rs : List Reading) :
    Reaches ⟨pos, rs⟩ (nextFrom g pos rs).2 := by
  induction rs generalizing g pos with
  | nil => cases g <;> exact .refl _
  | cons r rest ih =>
    cases r with
    | fault e => cases g <;> exact .fault pos e rest
    | byte b =>
      have hb := fun g' => (Reaches.byte pos b rest).trans (ih g' (pos.step b))
      cases g with
      | blank =>
        rw [nextFrom]
        split
        · exact hb .blank
        · split
          · exact hb (.slash pos)
          · exact (Reaches.byte pos b rest).trans (token_reaches pos b (pos.step b) rest)
      | slash start =>
        rw [nextFrom]
        split
        · exact hb .line
        · split
          · exact hb (.block start false)
          · exact .refl _
      | line => exact hb _
      | block start star =>
        rw [nextFrom]
        split
        · exact hb .blank
        · exact hb (.block start (b = 42))

/-- The next outcome leaves what is reached from here. -/
theorem next_reaches (u : Unread) : u.Reaches u.next.2 := nextFrom_reaches .blank u.pos u.readings

/-- The end of the input is where there is nothing to read, behind what is skipped. -/
theorem readings_eq_nil_of_nextFrom_none {g : Gap} {pos : Position} {rs : List Reading}
    (h : (nextFrom g pos rs).1 = none) : (nextFrom g pos rs).2.readings = [] := by
  induction rs generalizing g pos with
  | nil => cases g <;> rfl
  | cons r rest ih =>
    cases r with
    | fault e => cases g <;> exact absurd h (Option.some_ne_none _)
    | byte b =>
      cases g with
      | line => exact ih h
      | block start star =>
        rw [nextFrom] at h ⊢
        split at h
        · next hb => rw [if_pos hb]; exact ih h
        · next hb => rw [if_neg hb]; exact ih h
      | slash start =>
        rw [nextFrom] at h ⊢
        split at h
        · next hb => rw [if_pos hb]; exact ih h
        · next hb =>
          rw [if_neg hb]
          split at h
          · next hc => rw [if_pos hc]; exact ih h
          · exact absurd h (Option.some_ne_none _)
      | blank =>
        rw [nextFrom] at h ⊢
        split at h
        · next hb => rw [if_pos hb]; exact ih h
        · next hb =>
          rw [if_neg hb]
          split at h
          · next hc => rw [if_pos hc]; exact ih h
          · exact absurd h (Option.some_ne_none _)

/-- Every outcome takes at least one reading. -/
theorem length_next_lt {u u' : Unread} {o : Outcome} (h : u.next = (some o, u')) :
    u'.readings.length < u.readings.length := by
  obtain rfl : u.next.2 = u' := congrArg Prod.snd h
  obtain ⟨pos, rs⟩ := u
  cases rs with
  | nil => exact absurd (congrArg Prod.fst h).symm (Option.some_ne_none o)
  | cons r rest =>
    have step := fun g p => (nextFrom_reaches g p rest).length_le
    change (nextFrom .blank pos (r :: rest)).2.readings.length < rest.length + 1
    cases r with
    | fault e => exact Nat.lt_succ_self _
    | byte b =>
      rw [nextFrom]
      split
      · exact Nat.lt_succ_of_le (step .blank (pos.step b))
      · split
        · exact Nat.lt_succ_of_le (step (.slash pos) (pos.step b))
        · exact Nat.lt_succ_of_le (token_reaches pos b (pos.step b) rest).length_le

/-- The outcomes found before stand in front, whatever they are. -/
theorem drain_eq (n : Nat) (found : List Outcome) (u : Unread) :
    drain n found u = (found.reverse ++ (drain n [] u).1, (drain n [] u).2) := by
  induction n generalizing found u with
  | zero => simp only [drain, List.reverse_nil, List.append_nil]
  | succ n ih =>
    simp only [drain]
    split
    · simp only [List.reverse_nil, List.append_nil]
    · next o u' _ =>
      rw [ih (o :: found), ih [o]]
      simp only [List.reverse_cons, List.reverse_nil, List.nil_append, List.append_assoc]

private theorem drain_nil (n : Nat) (pos : Position) : drain n [] ⟨pos, []⟩ = ([], ⟨pos, []⟩) := by
  cases n <;> rfl

/-- Any number of rounds that is not below that of the readings gives the same. -/
theorem drain_eq_drain {m n : Nat} {u : Unread} (hm : u.readings.length ≤ m)
    (hn : u.readings.length ≤ n) : drain m [] u = drain n [] u := by
  induction m generalizing n u with
  | zero =>
    obtain ⟨pos, rs⟩ := u
    obtain rfl : rs = [] := List.eq_nil_of_length_eq_zero (Nat.le_zero.mp hm)
    rw [drain_nil, drain_nil]
  | succ m ih =>
    cases n with
    | zero =>
      obtain ⟨pos, rs⟩ := u
      obtain rfl : rs = [] := List.eq_nil_of_length_eq_zero (Nat.le_zero.mp hn)
      rw [drain_nil, drain_nil]
    | succ n =>
      simp only [drain]
      split
      · rfl
      · next o u' hu =>
        have hlt := length_next_lt hu
        rw [drain_eq m, drain_eq n, ih (n := n) (u := u') (by omega) (by omega)]

/-- Where nothing is found any more, there are no outcomes. -/
theorem outcomes_of_next_none {u u' : Unread} (h : u.next = (none, u')) : u.outcomes = [] := by
  rw [outcomes, drain_eq_drain (Nat.le_refl _) (Nat.le_succ _)]
  simp only [drain, h, List.reverse_nil]

/-- The outcomes are the first one and those of what it leaves unread. -/
theorem outcomes_of_next_some {u u' : Unread} {o : Outcome} (h : u.next = (some o, u')) :
    u.outcomes = o :: u'.outcomes := by
  have hlt := length_next_lt h
  rw [outcomes, drain_eq_drain (Nat.le_refl _) (Nat.le_succ _)]
  simp only [drain, h]
  rw [drain_eq, drain_eq_drain (n := u'.readings.length) (by omega) (Nat.le_refl _)]
  rfl

/-- There are not more outcomes than readings. -/
theorem length_outcomes_le (u : Unread) : u.outcomes.length ≤ u.readings.length := by
  generalize hn : u.readings.length = n
  induction n using Nat.strongRecOn generalizing u with
  | ind n ih =>
    rcases hu : u.next with ⟨_ | o, u'⟩
    · rw [outcomes_of_next_none hu]
      exact Nat.zero_le _
    · have hlt := length_next_lt hu
      rw [hn] at hlt
      have hle := ih _ hlt u' rfl
      rw [outcomes_of_next_some hu, List.length_cons]
      omega

end JackStack.Unread
