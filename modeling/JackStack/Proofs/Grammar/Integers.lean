import JackStack.Proofs.Grammar.Marks
import JackStack.Proofs.Grammar.Pieces

/-!
# Every integer that is read is looked at

In the script of a class an integer is always a marked token, and nothing else is looked at as an
integer. So the integers among the tokens of any part of a script are those that its actions look
at, in order, and an integer of a source that recognition has read has its action among those that
were reported, with the place of the integer.
-/

namespace JackStack

/-- The value of an integer. -/
def Token.value? : Token → Option UInt32
  | integer value => some value
  | _ => none

/-- The value of the integer that an action looks at. -/
def Action.looked? : Action → Option UInt32
  | checkInteger value _ => some value
  | _ => none

/-- What without its place is a look at an integer is one. -/
theorem Action.eq_checkInteger_of_withPos {x : Action} {value : UInt32}
    (h : x.withPos .start = .checkInteger value .start) : ∃ pos, x = .checkInteger value pos := by
  cases x <;> cases h
  exact ⟨_, rfl⟩

/-- Actions without their places split where the actions themselves do. What is left out in front of
an action are scans. -/
theorem Action.exists_of_unplaced {xs front back : List Action} {a : Action}
    (h : unplaced xs = front ++ a :: back) :
    ∃ ys x zs, xs = ys ++ x :: zs ∧ unplaced ys = front ∧ x.withPos .start = a := by
  obtain ⟨left, right, hsplit, hfront, hright⟩ := List.map_eq_append_iff.mp h
  obtain ⟨x, tail, rfl, hx, -⟩ := List.map_eq_cons_iff.mp hright
  obtain ⟨ys, more, rfl, hys, hmore⟩ := List.filter_eq_append_iff.mp hsplit
  obtain ⟨scans, zs, rfl, hscans, -, -⟩ := List.filter_eq_cons_iff.mp hmore
  refine ⟨ys ++ scans, x, zs, by simp, ?_, hx⟩
  have hnone : scans.filter (! ·.isScan) = [] := List.filter_eq_nil_iff.mpr hscans
  rw [unplaced, withoutScans, List.filter_append, hnone, List.append_nil, hys, hfront]

namespace Tree

/-! ## Scripts -/

/-- The part is an integer exactly if it is looked at as one. -/
def Item.Fair (i : Item) : Prop := i.token?.bind Token.value? = i.action?.bind Action.looked?

/-- A script of parts each of which is fair. -/
def Fair (script : List Item) : Prop := ∀ i ∈ script, i.Fair

@[simp] theorem fair_append {front back : List Item} :
    Fair (front ++ back) ↔ Fair front ∧ Fair back := List.forall_mem_append

/-- The integers of a script are those that its actions look at. -/
theorem Fair.values_eq {script : List Item} (h : Fair script) :
    (tokensOf script).filterMap Token.value? = (actionsOf script).filterMap Action.looked? := by
  rw [tokensOf, actionsOf, List.filterMap_filterMap, List.filterMap_filterMap]
  exact List.filterMap_congr h

/-- An integer among the tokens of a script is marked. -/
theorem Fair.exists_marked {script : List Item} (h : Fair script) {value : UInt32}
    {front back : List Token} (htokens : tokensOf script = front ++ .integer value :: back) :
    ∃ lead rest, script = lead ++ .marked (.integer value) :: rest ∧ tokensOf lead = front := by
  obtain ⟨left, right, rfl, hfront, hright⟩ := List.filterMap_eq_append_iff.mp htokens
  obtain ⟨skipped, i, rest, rfl, hskipped, hi, -⟩ := List.filterMap_eq_cons_iff.mp hright
  have hfair : i.Fair := h i (by simp)
  have hmarked : i = .marked (.integer value) := by
    cases i with
    | token t =>
      cases hi
      cases hfair
    | marked m =>
      cases m <;> cases hi
      rfl
    | report a => cases hi
  refine ⟨left ++ skipped, rest, by rw [hmarked, List.append_assoc], ?_⟩
  have hnone : skipped.filterMap Item.token? = [] := List.filterMap_eq_nil_iff.mpr hskipped
  rw [tokensOf_append, tokensOf, tokensOf, hnone, List.append_nil, hfront]

/-- The plain parts of classes and the constants are fair. -/
theorem Item.fair_of_inClass {i : Item} (h : i.inClass = true ∨ i.isConstant = true) : i.Fair := by
  cases i with
  | token t =>
    cases t with
    | integer value => exact absurd h nofun
    | _ => rfl
  | marked m => cases m <;> rfl
  | report a =>
    cases a with
    | checkInteger value pos => exact absurd h nofun
    | _ => rfl

/-- In the script of a class the integers are looked at, and nothing else as one. -/
theorem Class.fair (c : Class) : Fair c.script := fun i hi => i.fair_of_inClass (c.made.mem i hi)

end Tree

/-! ## Integers that have been read -/

/-- Two places of a list are one if they count and the same was counted before them. -/
theorem eq_of_filterMap_eq {α β : Type} {f : α → Option β} {xs ys xs' ys' : List α} {x y : α}
    (h : xs ++ x :: xs' = ys ++ y :: ys') (hx : (f x).isSome) (hy : (f y).isSome)
    (hf : xs.filterMap f = ys.filterMap f) : xs = ys ∧ x = y := by
  obtain ⟨b, hb⟩ := Option.isSome_iff_exists.mp hx
  obtain ⟨b', hb'⟩ := Option.isSome_iff_exists.mp hy
  rcases List.append_eq_append_iff.mp h with ⟨zs, rfl, hzs⟩ | ⟨zs, rfl, hzs⟩
  all_goals
    cases zs with
    | nil =>
      obtain ⟨rfl, -⟩ := List.cons.inj hzs
      exact ⟨by simp, rfl⟩
    | cons z zs =>
      obtain ⟨rfl, -⟩ := List.cons.inj hzs
      simp [hb, hb'] at hf

open JackStack.Tree

/-- An integer that has been read is looked at by an action that names its place, and what was read
and reported before it is the beginning of a script. The action stands at some integer, behind as
many integers as it was reported behind, and so at this one. -/
theorem Syntax.exists_checkInteger {outcomes : List Outcome} {finish : Position}
    {xs more : List Action} {used rest : List Lexeme} {lx : Lexeme} {value : UInt32}
    {c : Tree.Class} {front back : List Item} {ts : List Token}
    (hactions : (parse outcomes finish).actions = xs ++ more)
    (hlexemes : Outcome.lexemes outcomes = used ++ lx :: rest) (hvalue : lx.token = .integer value)
    (hscript : c.script = front ++ back)
    (htokens : tokensOf front = used.map (·.token) ++ .integer value :: ts)
    (hreports : actionsOf front = Action.unplaced xs) :
    ∃ lead tail ys zs, c.script = lead ++ .marked (.integer value) :: tail ∧
      tokensOf lead = used.map (·.token) ∧ actionsOf lead = Action.unplaced ys ∧
      xs = ys ++ .checkInteger value lx.pos :: zs := by
  have hfair := c.fair
  rw [hscript, fair_append] at hfair
  obtain ⟨lead, tail, rfl, hlead⟩ := hfair.1.exists_marked htokens
  rw [actionsOf_append, actionsOf_marked] at hreports
  obtain ⟨ys, x, zs, rfl, hys, hx⟩ := Action.exists_of_unplaced hreports.symm
  obtain ⟨pos, rfl⟩ := Action.eq_checkInteger_of_withPos hx
  rw [List.append_assoc, List.cons_append] at hactions
  obtain ⟨cursor, hshows, used', rest', lx', front', back', m, -, split, place, ⟨c', hscript'⟩,
    looks, token, tokens, actions, -, -⟩ := parse_sighted hactions nofun
  have hmark : m = .integer value := by
    cases m <;> cases looks
    rfl
  have hfair' := c'.fair
  rw [← hscript', fair_append] at hfair'
  have hcount : used'.filterMap (·.token.value?) = used.filterMap (·.token.value?) := by
    have hvalues := hfair'.1.values_eq
    have hvalues' := (fair_append.mp hfair.1).1.values_eq
    rw [tokens, actions, List.filterMap_map] at hvalues
    rw [hlead, ← hys, List.filterMap_map] at hvalues'
    exact hvalues.trans hvalues'.symm
  rw [hshows.lexemes, hlexemes] at split
  obtain ⟨rfl, rfl⟩ := eq_of_filterMap_eq split (f := fun lx => lx.token.value?)
    (by rw [hvalue]; rfl) (by rw [token, hmark]; rfl) hcount.symm
  refine ⟨lead, tail ++ back, ys, zs, ?_, hlead, hys.symm, ?_⟩
  · rw [hscript, List.append_assoc, List.cons_append]
  · rw [Option.some.inj place]

end JackStack
