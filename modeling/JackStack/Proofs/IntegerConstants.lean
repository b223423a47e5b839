import JackStack.Proofs.Grammar.Integers
import JackStack.Proofs.Interruption
import JackStack.Proofs.StringConstants

/-!
# Integer constants

A run of digits, however long it is and however many zeros it begins with, is scanned as the number
that it writes, or as the largest word where the number does not fit. So a compilation that comes
to it as a term refuses it exactly if the number is too large for a constant, and otherwise emits
the number: no digits are so many that they are taken for a small number. Reading the source may
fail anywhere behind the digits.
-/

namespace JackStack

open JackStack.Tree JackStack.Parser

/-! ## Sources whose reading may fail -/

namespace Unread

/-- The lexemes of any source are the first ones of some bytes, and its failure is one of reading or
that of these bytes. -/
theorem exists_bytes (readings : List Reading) : ∃ bytes,
    let source := ofReadings (Reading.ofBytes bytes)
    Outcome.lexemes (ofReadings readings).outcomes <+: Outcome.lexemes source.outcomes ∧
      ∀ e, Outcome.flaw? (ofReadings readings).outcomes = some e →
        e.errorClass = .io ∨ Outcome.flaw? source.outcomes = some e := by
  rcases Reading.ofBytes_or_fault readings with ⟨bytes, rfl⟩ | ⟨bytes, cause, back, rfl⟩
  · exact ⟨bytes, List.prefix_rfl, fun e he => .inr he⟩
  · refine ⟨bytes, ?_⟩
    obtain ⟨common, more, more', hcommon, hcommon'⟩ := outcomes_of_fault .start bytes cause back []
    rw [List.append_nil] at hcommon'
    intro source
    have hlexemes := Outcome.lexemes_of_common common more more' (.io cause)
    rw [← hcommon, ← hcommon'] at hlexemes
    rcases hlexemes with ⟨f, hflaw, hflaw', hequal⟩ | ⟨hflaw, hbegins⟩
    · refine ⟨hequal ▸ List.prefix_rfl, fun e he => .inr ?_⟩
      exact hflaw'.trans (hflaw.symm.trans he)
    · refine ⟨hbegins, fun e he => .inl ?_⟩
      cases hflaw.symm.trans he
      rfl

/-- The lexemes of a source stand one behind the other. -/
theorem lexemes_sorted (readings : List Reading) :
    (Outcome.lexemes (ofReadings readings).outcomes).Pairwise fun l m => l.pos.Before m.pos := by
  obtain ⟨bytes, hbegins, -⟩ := exists_bytes readings
  obtain ⟨more, hmore, -⟩ :=
    Outcome.filterMap_lexeme?_eq (ofReadings (Reading.ofBytes bytes)).outcomes
  have horder := (lexemes_inOrder bytes).sorted
  rw [hmore] at horder
  exact (List.pairwise_append.mp horder).1.sublist hbegins.sublist

/-- A source does not fail by what it means. -/
theorem flaw_not_semantic {readings : List Reading} {e : Error}
    (h : Outcome.flaw? (ofReadings readings).outcomes = some e) : e.errorClass ≠ .semantic := by
  obtain ⟨bytes, -, hfails⟩ := exists_bytes readings
  rcases hfails e h with hio | hflaw
  · rw [hio]
    exact nofun
  · rw [failures_lexical (Outcome.mem_of_flaw? hflaw)]
    exact nofun

end Unread

/-- What recognition makes of a source. -/
abbrev Syntax.parsed (readings : List Reading) : Parse Unit :=
  parse (Unread.ofReadings readings).outcomes (Unread.ofReadings readings).finish

/-- A run fails in carrying out an action, or it carries out all of them and ends as recognition
does. -/
theorem Run.verdict_cases (readings : List Reading) :
    (∃ e, (generate (Syntax.parsed readings).actions).2 = .error e ∧
      (ofReadings readings).verdict = .error e) ∨
    ∃ code g, Generator.Carries {} (Syntax.parsed readings).actions code g ∧
      (ofReadings readings).verdict = (Syntax.parsed readings).outcome.map fun _ => () := by
  rcases hrun : generate (Syntax.parsed readings).actions with ⟨events, e | g⟩
  · refine .inl ⟨e, rfl, ?_⟩
    simp only [ofReadings, hrun]
    rfl
  · refine .inr ⟨Event.instructions events, g, ⟨events, hrun, rfl⟩, ?_⟩
    simp only [ofReadings, hrun]
    rfl

/-- An integer that is not too large is carried out into its code. -/
theorem Generator.carries_integer {value : UInt32} (h : ¬maxConstant < value) (pos : Position)
    (g : Generator) (drawn : List Lexeme) :
    Carries g (.checkInteger value pos :: (drawn.map .scan ++ [.loadInteger value]))
      [.push .constant value] g := by
  have hcheck : g.step (.checkInteger value pos) = .ok (g, []) := if_neg h
  have hload : g.step (.loadInteger value) = .ok (g, emitAll [.push .constant value]) := rfl
  refine (carries_cons_of_ok hcheck).mpr ⟨[.push .constant value], rfl, ?_⟩
  rw [← carries_unplaced, Action.unplaced_append, Action.unplaced_map_scan, List.nil_append]
  exact (carries_cons_of_ok hload).mpr ⟨[], rfl, carries_nil.mpr ⟨rfl, rfl⟩⟩

/-! ## Coming to an integer -/

/-- The compilation of a source comes to a token: the source is scanned up to it, none of the
lexemes before it is blamed, and the token is not refused as one that does not belong there. -/
structure ComesTo (readings : List Reading) (used : List Lexeme) (pos : Position)
    (ahead : List Reading) : Prop where
  scanned : (Unread.ofReadings readings).outcomes =
    used.map .lexeme ++ Unread.outcomes ⟨pos, ahead⟩
  passed : ∀ e, (Run.ofReadings readings).verdict = .error e → ∀ lx ∈ used, e.pos ≠ some lx.pos
  taken : ∀ expected found,
    (Run.ofReadings readings).verdict ≠ .error (.unexpectedToken pos expected found)

/-- A compilation that succeeds comes to every token. -/
theorem comesTo_of_ok {readings ahead : List Reading} {used : List Lexeme} {pos : Position}
    (hscanned : (Unread.ofReadings readings).outcomes =
      used.map .lexeme ++ Unread.outcomes ⟨pos, ahead⟩)
    (hok : (Run.ofReadings readings).verdict = .ok ()) : ComesTo readings used pos ahead := by
  constructor
  case scanned => exact hscanned
  case passed =>
    intro e he
    rw [hok] at he
    cases he
  case taken =>
    intro expected found he
    rw [hok] at he
    cases he

/-- The tokens begin a class in which an integer follows as a term, and carrying out what the class
reports in front of the integer emits the code. -/
def EmitsBefore (tokens : List Token) (value : UInt32) (code : List Instruction) : Prop :=
  ∃ (c : Tree.Class) (lead tail : List Item) (g : Generator),
    c.script = lead ++ .marked (.integer value) :: tail ∧ tokensOf lead = tokens ∧
      Generator.Carries {} (actionsOf lead) code g

/-- Recognition reports an integer, and what it reports before has been carried out and has emitted
code. -/
structure LooksAt (readings : List Reading) (tokens : List Token) (value : UInt32)
    (pos : Position) (code : List Instruction) : Prop where
  emits : EmitsBefore tokens value code
  reported : ∃ xs ys g, (Syntax.parsed readings).actions = xs ++ .checkInteger value pos :: ys ∧
    Generator.Carries {} xs code g

/-- The token of an action that fails is the integer, or it is a lexeme behind the integer. -/
inductive FailsFrom (used behind : List Lexeme) (value : UInt32) (pos : Position)
    (xs : List Action) : Action → Prop where
  | here (c : Tree.Class) (front tail : List Item)
      (script : c.script = front ++ .marked (.integer value) :: tail)
      (tokens : tokensOf front = used.map (·.token))
      (actions : actionsOf front = Action.unplaced xs) :
      FailsFrom used behind value pos xs (.checkInteger value pos)
  | later (x : Action) (c : Tree.Class) (front back : List Item) (ts : List Token) (lx : Lexeme)
      (script : c.script = front ++ back)
      (tokens : tokensOf front = used.map (·.token) ++ .integer value :: ts)
      (actions : actionsOf front = Action.unplaced xs)
      (mem : lx ∈ behind) (place : x.pos? = some lx.pos) : FailsFrom used behind value pos xs x

section Integers

variable {readings ahead : List Reading} {used : List Lexeme} {pos : Position} {behind : Unread}
  {value : UInt32}

namespace ComesTo

variable (h : ComesTo readings used pos ahead)
  (hnext : Unread.next ⟨pos, ahead⟩ = (some (.lexeme ⟨.integer value, pos⟩), behind))
include h hnext

/-- The lexemes of the source: those before the integer, the integer, and those behind it. -/
theorem lexemes_eq :
    Outcome.lexemes (Unread.ofReadings readings).outcomes =
      used ++ ⟨.integer value, pos⟩ :: Outcome.lexemes behind.outcomes := by
  rw [h.scanned, Unread.outcomes_of_next_some hnext, Outcome.lexemes_map_append]
  rfl

/-- The first failure of the source stands behind the integer. -/
theorem flaw_eq : Outcome.flaw? (Unread.ofReadings readings).outcomes =
    Outcome.flaw? behind.outcomes := by
  rw [h.scanned, Unread.outcomes_of_next_some hnext, Outcome.flaw?_map_append]
  rfl

/-- What follows the integer stands at a later place. -/
theorem before_of_mem {lx : Lexeme} (hlx : lx ∈ Outcome.lexemes behind.outcomes) :
    pos.Before lx.pos := by
  have horder := Unread.lexemes_sorted readings
  rw [h.lexemes_eq hnext] at horder
  exact (List.pairwise_cons.mp (List.pairwise_append.mp horder).2.1).1 lx hlx

/-- Where the verdict is that of recognition, the integer has been read. Otherwise recognition would
have refused the integer or a lexeme before it. -/
theorem exists_read (hverdict : (Run.ofReadings readings).verdict =
      (Syntax.parsed readings).outcome.map fun _ => ()) :
    ∃ (c : Tree.Class) (front back : List Item) (ts : List Token), c.script = front ++ back ∧
      tokensOf front = used.map (·.token) ++ .integer value :: ts ∧
      actionsOf front = Action.unplaced (Syntax.parsed readings).actions := by
  have hlexemes := h.lexemes_eq hnext
  rcases hparse : Syntax.parsed readings with ⟨xs, e | r⟩
  · rw [hparse] at hverdict
    change _ = Except.error e at hverdict
    obtain ⟨read, left, c, front, back, hsplit, hscript, htokens, hactions, hstuck⟩ :=
      Syntax.parse_stopped hparse
    rw [hlexemes] at hsplit
    rcases eq_append_cons_cases hsplit.symm with ⟨zs, rfl, -⟩ | ⟨zs, rfl, rfl⟩
    · refine ⟨c, front, back, zs.map (·.token), hscript, ?_, hactions⟩
      rw [htokens, List.map_append, List.map_cons]
    · cases hstuck with
      | refused blamed expected found place =>
        cases zs with
        | nil =>
          rw [place _ rfl] at hverdict
          exact absurd hverdict (h.taken expected found)
        | cons z zs =>
          have hblamed : blamed = z.pos := place z rfl
          exact absurd (congrArg some hblamed) (h.passed _ hverdict z (by simp))
      | broken e met names =>
        obtain ⟨name, hname⟩ := names ⟨.integer value, pos⟩ (by simp)
        cases hname
  · obtain ⟨c, lexemes, houtcomes, htokens, hactions⟩ := Syntax.tokens_of_parse hparse
    rw [houtcomes, Outcome.lexemes_map] at hlexemes
    obtain ⟨htokensOf, hactionsOf⟩ := Class.script_eq c
    refine ⟨c, c.script, [], (Outcome.lexemes behind.outcomes).map (·.token),
      (List.append_nil _).symm, ?_, hactionsOf.trans hactions.symm⟩
    rw [htokensOf, ← htokens, hlexemes, List.map_append, List.map_cons]

/-- No action fails that looks at a lexeme in front of the integer. -/
theorem failsFrom {e : Error} (hverdict : (Run.ofReadings readings).verdict = .error e)
    {xs ys : List Action} {x : Action}
    (hactions : (Syntax.parsed readings).actions = xs ++ x :: ys) {g : Generator}
    (hx : g.step x = .error e) :
    FailsFrom used (Outcome.lexemes behind.outcomes) value pos xs x := by
  obtain ⟨hpos, hplace⟩ := Generator.pos_of_step_error hx
  obtain ⟨cursor, hshows, used', rest', lx', front, back, m, -, split, place, ⟨c, hscript⟩, looks,
    token, tokens, actions, -, -⟩ := Syntax.parse_sighted hactions hplace
  rw [hshows.lexemes, h.lexemes_eq hnext] at split
  rcases eq_append_cons_cases split.symm with ⟨zs, rfl, hzs⟩ | ⟨zs, rfl, hzs⟩
  · refine .later x c front _ (zs.map (·.token)) lx' hscript.symm ?_ actions ?_ place
    · rw [tokens, List.map_append, List.map_cons]
    · rw [hzs]
      simp
  · cases zs with
    | nil =>
      obtain ⟨rfl, -⟩ := List.cons.inj hzs
      have hmark : m = .integer value := by
        cases m <;> cases token
        rfl
      subst hmark
      obtain ⟨pos', rfl⟩ := Action.eq_checkInteger_of_withPos looks
      rw [List.append_nil, Option.some.inj place]
      exact .here c front back hscript.symm tokens actions
    | cons z zs =>
      obtain ⟨rfl, -⟩ := List.cons.inj hzs
      exact absurd (hpos.symm.trans place) (h.passed e hverdict lx' (by simp))

/-- An integer among the tokens that have been read is looked at. -/
theorem looksAt_of_read {xs more : List Action} {code : List Instruction} {g : Generator}
    {c : Tree.Class} {front back : List Item} {ts : List Token}
    (hactions : (Syntax.parsed readings).actions = xs ++ more)
    (hxs : Generator.Carries {} xs code g) (hscript : c.script = front ++ back)
    (htokens : tokensOf front = used.map (·.token) ++ .integer value :: ts)
    (hreports : actionsOf front = Action.unplaced xs) :
    ∃ code, LooksAt readings (used.map (·.token)) value pos code := by
  obtain ⟨lead, tail, ys, zs, hlead, htokens', hreports', rfl⟩ := Syntax.exists_checkInteger
    hactions (h.lexemes_eq hnext) rfl hscript htokens hreports
  obtain ⟨g', code', -, hys, -⟩ := Generator.carries_append.mp hxs
  refine ⟨code', ⟨c, lead, tail, g', hlead, htokens', ?_⟩, ys, zs ++ more, g', ?_, hys⟩
  · rw [hreports']
    exact Generator.carries_unplaced.mpr hys
  · rw [hactions, List.append_assoc, List.cons_append]

/-- A compilation that comes to an integer looks at it. -/
theorem exists_looksAt :
    ∃ code, LooksAt readings (used.map (·.token)) value pos code := by
  rcases Run.verdict_cases readings with ⟨e, hrun, hverdict⟩ | ⟨code, g, hcarries, hverdict⟩
  · obtain ⟨xs, x, ys, code, g, hactions, hxs, hx⟩ := Generator.exists_step_error hrun
    cases h.failsFrom hnext hverdict hactions hx with
    | here c front tail script tokens actions =>
      refine ⟨code, ⟨c, front, tail, g, script, tokens, ?_⟩, xs, ys, g, hactions, hxs⟩
      rw [actions]
      exact Generator.carries_unplaced.mpr hxs
    | later x c front back ts lx script tokens actions =>
      exact h.looksAt_of_read hnext hactions hxs script tokens actions
  · obtain ⟨c, front, back, ts, hscript, htokens, hreports⟩ := h.exists_read hnext hverdict
    exact h.looksAt_of_read hnext (List.append_nil _).symm hcarries hscript htokens hreports

/-- Where no failure follows the integer, its value is wanted next. Otherwise the integer would be
the last lexeme, and so the one that follows it. -/
theorem exists_loadInteger (hbehind : ∀ e, behind.next.1 ≠ some (.failure e))
    {xs ys : List Action}
    (hactions : (Syntax.parsed readings).actions = xs ++ .checkInteger value pos :: ys) :
    ∃ (drawn : List Lexeme) (more : List Action),
      ys = drawn.map .scan ++ .loadInteger value :: more := by
  obtain ⟨c, hshows, used', rest', lx, front, back, m, -, split, place, -, looks, -, -, -, -,
    sequel⟩ := Syntax.parse_sighted hactions nofun
  have hmark : m = .integer value := by
    cases m <;> cases looks
    rfl
  refine sequel (.loadInteger value) (by rw [hmark]; rfl) ?_
  rintro rfl
  rw [hshows.flaw, h.flaw_eq hnext]
  rcases hu : behind.next with ⟨_ | o, u⟩
  · rw [Unread.outcomes_of_next_none hu]
    rfl
  cases o with
  | failure e => exact absurd (congrArg Prod.fst hu) (hbehind e)
  | lexeme next =>
    have hmem : lx ∈ Outcome.lexemes behind.outcomes := by
      rw [hshows.lexemes, h.lexemes_eq hnext, List.append_cons] at split
      rw [Unread.outcomes_of_next_some hu] at split ⊢
      rcases eq_append_cons_cases split with ⟨zs, -, hzs⟩ | ⟨zs, -, hzs⟩
      · exact absurd hzs.symm (List.append_ne_nil_of_right_ne_nil zs (List.cons_ne_nil next _))
      · rw [hzs]
        simp
    have hbefore := h.before_of_mem hnext hmem
    rw [Option.some.inj place] at hbefore
    exact absurd hbefore lx.pos.not_before_self

/-- A failure at the integer that is due to a constant is due to its value. Recognition fails by the
grammar or as scanning does. -/
theorem large_of_verdict {n : UInt32}
    (hverdict : (Run.ofReadings readings).verdict = .error (.intOutOfRange pos n)) :
    maxConstant < value := by
  rcases Run.verdict_cases readings with ⟨e, hrun, hfails⟩ | ⟨code, g, -, hends⟩
  · rw [hverdict] at hfails
    cases hfails
    obtain ⟨xs, x, ys, code, g, hactions, -, hx⟩ := Generator.exists_step_error hrun
    obtain ⟨hpos, -⟩ := Generator.pos_of_step_error hx
    cases h.failsFrom hnext hverdict hactions hx with
    | here =>
      by_contra hsmall
      rw [Generator.step, if_neg hsmall] at hx
      cases hx
    | later x c front back ts lx script tokens actions mem place =>
      have hbefore := h.before_of_mem hnext mem
      rw [← Option.some.inj (hpos.symm.trans place)] at hbefore
      exact absurd hbefore pos.not_before_self
  · rcases hparse : Syntax.parsed readings with ⟨xs, e | r⟩ <;> rw [hverdict, hparse] at hends <;>
      cases hends
    rcases Syntax.flaw_or_syntactic_of_parse hparse with hflaw | hclass
    · exact absurd rfl (Unread.flaw_not_semantic hflaw)
    · cases hclass

end ComesTo

namespace LooksAt

variable {tokens : List Token} {code : List Instruction}

/-- An integer that is too large ends the run, and nothing is emitted for it. -/
theorem refused (h : LooksAt readings tokens value pos code) (hlarge : maxConstant < value) :
    (Run.ofReadings readings).verdict = .error (.intOutOfRange pos value) ∧
      Event.instructions (Run.ofReadings readings).events = code := by
  obtain ⟨xs, ys, g, hactions, hxs⟩ := h.reported
  obtain ⟨hcode, hend⟩ := Generator.run_append_of_carries hxs (.checkInteger value pos :: ys)
  have hstep : g.step (.checkInteger value pos) = .error (.intOutOfRange pos value) :=
    if_pos hlarge
  rw [← hactions, Generator.run_cons_of_error hstep] at hcode hend
  refine ⟨?_, hcode.trans (List.append_nil code)⟩
  simp only [Run.ofReadings, generate, hend]
  rfl

/-- An integer that is not too large is emitted, unless what follows it fails. -/
theorem accepted (h : LooksAt readings tokens value pos code) (hsmall : ¬maxConstant < value)
    (hcomes : ComesTo readings used pos ahead)
    (hnext : Unread.next ⟨pos, ahead⟩ = (some (.lexeme ⟨.integer value, pos⟩), behind))
    (hbehind : ∀ e, behind.next.1 ≠ some (.failure e)) :
    ∃ more, Event.instructions (Run.ofReadings readings).events =
      code ++ .push .constant value :: more := by
  obtain ⟨xs, ys, g, hactions, hxs⟩ := h.reported
  obtain ⟨hcode, -⟩ := Generator.run_append_of_carries hxs (.checkInteger value pos :: ys)
  obtain ⟨drawn, more, rfl⟩ := hcomes.exists_loadInteger hnext hbehind hactions
  have hinteger := Generator.carries_integer hsmall pos g drawn
  obtain ⟨hpush, -⟩ := Generator.run_append_of_carries hinteger more
  rw [List.cons_append, List.append_assoc, List.singleton_append] at hpush
  rw [← hactions, hpush] at hcode
  exact ⟨_, hcode⟩

end LooksAt

end Integers

/-! ## Runs of digits -/

/-- What becomes of a run of digits that is cut off by another byte or the end of the source. It is
scanned as its number, or as the largest word where the number does not fit. A compilation that
comes to it refuses it exactly if the number is too large, and then reports its value and emits
nothing for it; otherwise it emits the number, provided that what follows can be scanned. -/
theorem integer_constant_exact {digits : List UInt8} {rest : List Reading} (hne : digits ≠ [])
    (hdigits : ∀ d ∈ digits, d.isASCIIDigit) (hstop : Unread.CutOff UInt8.isASCIIDigit rest) :
    ∃ value : UInt32, value.toNat = min (Tile.decimal digits) (2 ^ 32 - 1) ∧
      (∀ pos, Unread.next ⟨pos, Reading.ofBytes digits ++ rest⟩ =
        (some (.lexeme ⟨.integer value, pos⟩), ⟨pos.after digits, rest⟩)) ∧
      ∀ readings used pos options, ComesTo readings used pos (Reading.ofBytes digits ++ rest) →
        let report := compile readings {} options
        let emitted := Event.instructions (Run.ofReadings readings).events
        report.output = (codeText options.indent emitted).toUTF8 ∧
        ((∃ n, report.verdict = .error (.intOutOfRange pos n)) ↔ 32767 < Tile.decimal digits) ∧
        ∃ code, EmitsBefore (used.map (·.token)) value code ∧
          (32767 < Tile.decimal digits →
            report.verdict = .error (.intOutOfRange pos value) ∧ emitted = code) ∧
          (Tile.decimal digits ≤ 32767 →
            (∀ e, (Unread.next ⟨pos.after digits, rest⟩).1 ≠ some (.failure e)) →
            ∃ more, emitted = code ++ .push .constant (.ofNat (Tile.decimal digits)) :: more) := by
  have hvalue := toNat_digitsValue digits
  have hscanned := Tile.next_digits hne hdigits hstop
  have hlarge : maxConstant < digitsValue digits ↔ 32767 < Tile.decimal digits := by
    rw [UInt32.lt_iff_toNat_lt, hvalue]
    change 32767 < min _ 4294967295 ↔ _
    omega
  refine ⟨digitsValue digits, hvalue, hscanned, ?_⟩
  intro readings used pos options h report emitted
  obtain ⟨houtput, hverdict⟩ := compile_default readings options
  obtain ⟨code, hlooks⟩ := h.exists_looksAt (hscanned pos)
  have hrefused : 32767 < Tile.decimal digits →
      report.verdict = .error (.intOutOfRange pos (digitsValue digits)) ∧ emitted = code := by
    intro hdecimal
    rw [hverdict]
    exact hlooks.refused (hlarge.mpr hdecimal)
  refine ⟨houtput, ⟨?_, fun hdecimal => ⟨_, (hrefused hdecimal).1⟩⟩, code, hlooks.emits, hrefused,
    ?_⟩
  · rintro ⟨n, hn⟩
    exact hlarge.mp (h.large_of_verdict (hscanned pos) (hverdict.symm.trans hn))
  · intro hdecimal hfollows
    have hsmall : ¬maxConstant < digitsValue digits := by
      rw [hlarge]
      exact Nat.not_lt.mpr hdecimal
    have hexact : UInt32.ofNat (Tile.decimal digits) = digitsValue digits := by
      rw [digitsValue_eq, capped, Nat.min_eq_left (Nat.le_trans hdecimal (by decide))]
    rw [hexact]
    exact hlooks.accepted hsmall h (hscanned pos) hfollows

/-- A function that gives back a constant. -/
def givingBack (digits : String) : List Reading :=
  Reading.ofBytes (utf8 ("class A \x7b function int f() \x7b return " ++ digits ++ "; \x7d \x7d"))

/-- The lexemes in front of the constant. -/
def givingBackLexemes : List Lexeme :=
  [⟨.keyword .classKw, ⟨1, 1⟩⟩, ⟨.identifier "A", ⟨1, 7⟩⟩, ⟨.symbol '\x7b', ⟨1, 9⟩⟩,
    ⟨.keyword .functionKw, ⟨1, 11⟩⟩, ⟨.keyword .intKw, ⟨1, 20⟩⟩, ⟨.identifier "f", ⟨1, 24⟩⟩,
    ⟨.symbol '(', ⟨1, 25⟩⟩, ⟨.symbol ')', ⟨1, 26⟩⟩, ⟨.symbol '\x7b', ⟨1, 28⟩⟩,
    ⟨.keyword .returnKw, ⟨1, 30⟩⟩]

/-- What is left to read behind the constant. -/
def givingBackRest : List Reading := Reading.ofBytes (utf8 "; \x7d \x7d")

theorem givingBackRest_cutOff : Unread.CutOff UInt8.isASCIIDigit givingBackRest := by
  rintro r ⟨⟩
  exact ⟨59, rfl, by decide⟩

theorem givingBack_comesTo_large : ComesTo (givingBack "4294967303") givingBackLexemes ⟨1, 37⟩
    (Reading.ofBytes (utf8 "4294967303") ++ givingBackRest) := by
  have hverdict : (Run.ofReadings (givingBack "4294967303")).verdict =
      .error (.intOutOfRange ⟨1, 37⟩ 4294967295) := by decide +kernel
  constructor
  case scanned => decide +kernel
  case passed =>
    intro e he
    rw [hverdict] at he
    cases he
    decide +kernel
  case taken =>
    intro expected found he
    rw [hverdict] at he
    cases he

theorem givingBack_comesTo_small : ComesTo (givingBack "0032767") givingBackLexemes ⟨1, 37⟩
    (Reading.ofBytes (utf8 "0032767") ++ givingBackRest) :=
  comesTo_of_ok (by decide +kernel) (by decide +kernel)

/-- The number 2³² + 7 is refused and not taken for 7, and leading zeros do no harm. -/
theorem givingBack_compiled :
    Tile.decimal (utf8 "4294967303") = 2 ^ 32 + 7 ∧
      (compile (givingBack "4294967303") {} {}).verdict =
        .error (.intOutOfRange ⟨1, 37⟩ 4294967295) ∧
      ∃ code more, Event.instructions (Run.ofReadings (givingBack "0032767")).events =
        code ++ .push .constant 32767 :: more := by
  have hdecimal : Tile.decimal (utf8 "4294967303") = 2 ^ 32 + 7 := by decide +kernel
  have hdecimal' : Tile.decimal (utf8 "0032767") = 32767 := by decide +kernel
  have hdigits : ∀ d ∈ utf8 "4294967303", d.isASCIIDigit := by decide +kernel
  have hdigits' : ∀ d ∈ utf8 "0032767", d.isASCIIDigit := by decide +kernel
  obtain ⟨value, hvalue, -, hlarge⟩ :=
    integer_constant_exact (by decide +kernel) hdigits givingBackRest_cutOff
  obtain ⟨value', -, -, hsmall⟩ :=
    integer_constant_exact (by decide +kernel) hdigits' givingBackRest_cutOff
  obtain ⟨-, -, before, -, hrefused, -⟩ := hlarge _ _ _ {} givingBack_comesTo_large
  obtain ⟨-, -, code, -, -, haccepted⟩ := hsmall _ _ _ {} givingBack_comesTo_small
  refine ⟨hdecimal, ?_, code, ?_⟩
  · have hcapped : value = 4294967295 := by
      rw [← UInt32.toNat_inj, hvalue, hdecimal]
      rfl
    rw [(hrefused (by rw [hdecimal]; decide)).1, hcapped]
  · have hfollows : ∀ e, (Unread.next ⟨Position.after ⟨1, 37⟩ (utf8 "0032767"),
        givingBackRest⟩).1 ≠ some (.failure e) := by
      have hnext : (Unread.next ⟨Position.after ⟨1, 37⟩ (utf8 "0032767"), givingBackRest⟩).1 =
          some (.lexeme ⟨.symbol ';', ⟨1, 44⟩⟩) := by decide +kernel
      intro e he
      rw [hnext] at he
      cases he
    obtain ⟨more, hmore⟩ := haccepted (Nat.le_of_eq hdecimal') hfollows
    rw [hdecimal'] at hmore
    exact ⟨more, hmore⟩

end JackStack
