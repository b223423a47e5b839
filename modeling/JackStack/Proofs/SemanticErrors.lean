import JackStack.Proofs.Code.Scoping
import JackStack.Proofs.Grammar.Marks
import JackStack.Proofs.SyntaxErrors

/-!
# Semantic errors

A compilation that fails because of a name or a constant blames a token, and rightly so. The token
stands where the error says, the tokens up to it begin a class, and in that class it stands for
what the error complains about: a variable that nothing declares, a second declaration of a name
in its scope, or a constant that is too large. The name that a method has for its receiver is never
a reason, since it is a reserved word and so no identifier of a source.
-/

namespace JackStack

open JackStack.Tree

/-! ## Runs that fail in what they mean -/

/-- A run that fails by a name or a constant fails in carrying out an action. Recognition itself
fails by the grammar or as scanning does. -/
theorem Run.generate_of_semantic {bytes : List UInt8} {e : Error}
    (h : (Run.ofReadings (Reading.ofBytes bytes)).verdict = .error e)
    (he : e.errorClass = .semantic) :
    (generate (Syntax.parse (Unread.ofReadings (Reading.ofBytes bytes)).outcomes
      (Unread.ofReadings (Reading.ofBytes bytes)).finish).actions).2 = .error e := by
  simp only [Run.ofReadings] at h
  rcases hparse : Syntax.parse (Unread.ofReadings (Reading.ofBytes bytes)).outcomes
    (Unread.ofReadings (Reading.ofBytes bytes)).finish with ⟨xs, outcome⟩
  rw [hparse] at h
  rcases hrun : generate xs with ⟨events, e' | g⟩
  · simp only [hrun] at h
    cases h
    rfl
  · simp only [hrun] at h
    cases outcome with
    | ok r => cases h
    | error e' =>
      cases h
      rcases Syntax.flaw_or_syntactic_of_parse hparse with hflaw | hclass
      · have hlexical := Unread.failures_lexical (Outcome.mem_of_flaw? hflaw)
        rw [he] at hlexical
        cases hlexical
      · rw [he] at hclass
        cases hclass

/-! ## Tokens and their tiles -/

namespace Tile

/-- A lexeme in front of the first failure is that of a tile, and what stands before it are the
lexemes of the tiles before. -/
theorem exists_tile_of_lexemes {tiles : List Tile} {pos : Position} {used rest : List Lexeme}
    {lx : Lexeme} (h : Outcome.lexemes (outcomes pos tiles) = used ++ lx :: rest) :
    ∃ front t back, tiles = front ++ t :: back ∧ outcomes pos front = used.map .lexeme ∧
      t.outcome (pos.after (front.flatMap bytes)) = some (.lexeme lx) ∧
      Outcome.lexemes (outcomes ((pos.after (front.flatMap bytes)).after t.bytes) back) = rest := by
  induction tiles generalizing pos used with
  | nil => exact absurd h (List.append_ne_nil_of_right_ne_nil used (List.cons_ne_nil _ _)).symm
  | cons t tiles ih =>
    cases ho : t.outcome pos with
    | none =>
      rw [outcomes, ho] at h
      obtain ⟨front, t', back, rfl, hfront, ht', hback⟩ := ih h
      refine ⟨t :: front, t', back, rfl, ?_, ?_, ?_⟩
      · rw [outcomes, ho, hfront]
        rfl
      · rwa [List.flatMap_cons, Position.after_append]
      · rwa [List.flatMap_cons, Position.after_append]
    | some o =>
      cases o with
      | failure e =>
        rw [outcomes, ho] at h
        exact absurd h (List.append_ne_nil_of_right_ne_nil used (List.cons_ne_nil _ _)).symm
      | lexeme first =>
        rw [outcomes, ho] at h
        cases used with
        | nil =>
          obtain ⟨rfl, hrest⟩ := List.cons.inj h
          exact ⟨[], t, tiles, rfl, rfl, ho, hrest⟩
        | cons l used =>
          obtain ⟨rfl, hused⟩ := List.cons.inj h
          obtain ⟨front, t', back, rfl, hfront, ht', hback⟩ := ih hused
          refine ⟨t :: front, t', back, rfl, ?_, ?_, ?_⟩
          · rw [outcomes, ho, hfront]
            rfl
          · rwa [List.flatMap_cons, Position.after_append]
          · rwa [List.flatMap_cons, Position.after_append]

/-- The outcomes of two pieces of tiles, the second from where the first ended. -/
theorem outcomes_append (front back : List Tile) (pos : Position) :
    outcomes pos (front ++ back) =
      outcomes pos front ++ outcomes (pos.after (front.flatMap bytes)) back := by
  induction front generalizing pos with
  | nil => rfl
  | cons t front ih =>
    rw [List.cons_append, outcomes, outcomes, ih, List.flatMap_cons, Position.after_append,
      List.append_assoc]

/-- Integers are written with digits. -/
theorem eq_integer_of_outcome {t : Tile} {pos : Position} {value : UInt32}
    (h : t.outcome pos = some (.lexeme ⟨.integer value, pos⟩)) :
    ∃ digits, t = .integer digits ∧ value.toNat = min (decimal digits) (UInt32.size - 1) := by
  cases t with
  | integer digits =>
    refine ⟨digits, rfl, ?_⟩
    cases h
    have hlt : min (decimal digits) integerCap < UInt32.size :=
      Nat.lt_of_le_of_lt (Nat.min_le_right _ _) (by decide)
    rw [UInt32.toNat_ofNat_of_lt' hlt]
    rfl
  | _ => cases h

/-- Strings stand between quotes. -/
theorem eq_text_of_outcome {t : Tile} {pos : Position} {content : String}
    (h : t.outcome pos = some (.lexeme ⟨.string content, pos⟩)) : t = .text content := by
  cases t with
  | text content => cases h; rfl
  | _ => cases h

end Tile

/-! ## Sights -/

/-- A marked token of a source: a tile, and a class that begins with the tokens up to this tile, in
whose script the token is marked. -/
structure Sight (bytes : List UInt8) where
  /-- The tiles in front of the token. -/
  before : List Tile
  /-- The tile of the token. -/
  tile : Tile
  /-- The tiles behind the token. -/
  behind : List Tile
  tiling : Tiling (before ++ tile :: behind) bytes
  /-- The lexemes in front of the token. -/
  front : List Lexeme
  scanned : Tile.outcomes .start before = front.map .lexeme
  /-- The class. -/
  tree : Tree.Class
  /-- The script of the class in front of the token. -/
  lead : List Item
  /-- What the token stands for. -/
  mark : Mark
  /-- The script of the class behind the token. -/
  rest : List Item
  script : tree.script = lead ++ .marked mark :: rest
  tokens : tokensOf lead = front.map (·.token)
  token : tile.outcome (Position.start.after (before.flatMap Tile.bytes)) =
    some (.lexeme ⟨mark.token, Position.start.after (before.flatMap Tile.bytes)⟩)

namespace Sight

variable {bytes : List UInt8}

/-- The place at which the token begins. -/
def pos (s : Sight bytes) : Position := Position.start.after (s.before.flatMap Tile.bytes)

/-- The token that follows, unless scanning fails there. -/
def next (s : Sight bytes) : Option Token :=
  (Outcome.lexemes (Tile.outcomes (s.pos.after s.tile.bytes) s.behind)).head?.map (·.token)

/-- The tokens of the source, up to the marked one, begin the class. -/
theorem begins (s : Sight bytes) :
    s.front.map (·.token) ++ [s.mark.token] <+: s.tree.tokens := by
  refine ⟨tokensOf s.rest, ?_⟩
  rw [← (Class.script_eq s.tree).1, s.script, tokensOf_append, s.tokens, tokensOf_marked,
    List.append_assoc]
  rfl

/-- The token is one that a source of this size can hold. -/
theorem plain (s : Sight bytes) : s.mark.token.Plain bytes.length := by
  have houtcomes := s.tiling.outcomes_eq .start
  rw [Tile.outcomes_append, Tile.outcomes, s.token] at houtcomes
  have hmem : .lexeme ⟨s.mark.token, s.pos⟩ ∈
      Unread.outcomes ⟨.start, Reading.ofBytes bytes⟩ := by
    rw [houtcomes]
    simp [pos]
  have hplain := Unread.outcomes_plain hmem
  rwa [Reading.ofBytes, List.length_map] at hplain

/-- The error complains about what the token stands for, and rightly so. -/
inductive Blames (s : Sight bytes) : Error → Prop where
  /-- The target of a `let` or a variable as a term, which nothing declares. -/
  | undefined {name : String} {sub : Subroutine}
      (stands : s.mark = .target name ∨
        s.mark = .operand name ∧ s.next ≠ some (.symbol '(') ∧ s.next ≠ some (.symbol '.'))
      (site : s.tree.Site s.lead s.mark (.body sub))
      (shared : name ∉ s.tree.declarations.map (·.name))
      (own : name ∉ sub.declarations.map (·.name)) : Blames s (.undefined s.pos name)
  /-- A variable of the class with a name that was declared before. -/
  | redefinedShared {kind : VarKind} {type name : String}
      (stands : s.mark = .declared kind type name)
      (site : s.tree.Site s.lead s.mark .shared) (notThis : name ≠ "this")
      (earlier : ∃ kind type, .marked (.declared kind type name) ∈ s.lead) :
      Blames s (.redefined s.pos name)
  /-- A parameter or variable of a subroutine with a name that was declared there before. -/
  | redefinedOwn {kind : VarKind} {type name : String} {sub : Subroutine} {inner : List Item}
      (stands : s.mark = .declared kind type name)
      (site : s.tree.Site s.lead s.mark (.own sub inner)) (notThis : name ≠ "this")
      (earlier : ∃ kind type, .marked (.declared kind type name) ∈ inner) :
      Blames s (.redefined s.pos name)
  /-- An integer that is written too large. -/
  | integer {digits : List UInt8} {value : UInt32} (written : s.tile = .integer digits)
      (large : 32767 < Tile.decimal digits)
      (reported : value.toNat = min (Tile.decimal digits) (UInt32.size - 1)) :
      Blames s (.intOutOfRange s.pos value)
  /-- A string that is too long. -/
  | long {content : String} {value : UInt32} (written : s.tile = .text content)
      (long : 32767 < content.length) (reported : value.toNat = content.length) :
      Blames s (.intOutOfRange s.pos value)
  /-- A string with too large a character; the first one is reported. -/
  | wide {content : String} {front back : List Char} {c : Char} (written : s.tile = .text content)
      (split : content.toList = front ++ c :: back) (small : ∀ x ∈ front, x.toNat ≤ 32767)
      (large : 32767 < c.toNat) : Blames s (.charOutOfRange s.pos c)

/-- What recognition looks at is a marked token of the source. -/
theorem exists_of_sighted {c : Cursor} {xs ys : List Action} {x : Action}
    (hshows : c.lexemes = Outcome.lexemes (Unread.ofReadings (Reading.ofBytes bytes)).outcomes)
    (h : Parser.Sighted Syntax.classScripts c xs x ys) :
    ∃ s : Sight bytes, x.pos? = some s.pos ∧ x.withPos .start = s.mark.action ∧
      actionsOf s.lead = Action.unplaced xs ∧ ∀ name, s.mark = .operand name →
        s.next ≠ some (.symbol '(') ∧ s.next ≠ some (.symbol '.') := by
  obtain ⟨tiles, htiles⟩ := exists_tiling bytes
  obtain ⟨used, rest, lx, front, back, m, -, split, place, ⟨tree, hscript⟩, looks, token, tokens,
    actions, allows, -⟩ := h
  have houtcomes : (Unread.ofReadings (Reading.ofBytes bytes)).outcomes =
    Tile.outcomes .start tiles := htiles.outcomes_eq .start
  rw [split, houtcomes] at hshows
  obtain ⟨before, tile, behind, rfl, hbefore, htile, hbehind⟩ :=
    Tile.exists_tile_of_lexemes hshows.symm
  have hpos := Tile.pos_of_outcome htile
  refine ⟨⟨before, tile, behind, htiles, used, hbefore, tree, front, m, back, hscript.symm, tokens,
    ?_⟩, ?_, looks, actions, ?_⟩
  · rw [htile, ← hpos, ← token]
  · exact place.trans (congrArg some hpos)
  · intro name hm
    have hnext := allows name hm
    rw [← hbehind] at hnext
    simp only [next, pos, ne_eq, Option.map_eq_some_iff, not_exists, not_and]
    exact ⟨fun lx hlx => (hnext lx hlx).1, fun lx hlx => (hnext lx hlx).2⟩

section Blame

variable {s : Sight bytes} {code : List Instruction} {g : Generator}

/-- A declaration fails about a name that was declared before in the same scope. -/
theorem blames_redefined (hg : Generator.Carries {} (actionsOf s.lead) code g) {kind : VarKind}
    {type name : String} (hmark : s.mark = .declared kind type name)
    (hname : name ∈ (g.scopeOf (Generator.ownKind kind)).names) :
    s.Blames (.redefined s.pos name) := by
  have hthis : name ≠ "this" := by
    have hplain := s.plain
    rw [hmark] at hplain
    exact ne_this_of_plain hplain
  obtain ⟨zone, hsite⟩ := Class.site_of_script s.script
  cases zone with
  | shared =>
    obtain ⟨kind', type', name', hmark', hkind⟩ := hsite.declared_of_shared
    rw [hmark] at hmark'
    cases hmark'
    rw [hkind] at hname
    exact .redefinedShared hmark hsite hthis (hsite.exists_marked_of_shared hg hname)
  | own sub inner =>
    obtain ⟨kind', type', name', hmark', hkind⟩ := hsite.declared_of_own
    rw [hmark] at hmark'
    cases hmark'
    rw [hkind] at hname
    exact .redefinedOwn hmark hsite hthis (hsite.exists_marked_of_own hg hname hthis)
  | body sub => exact absurd hmark (hsite.ne_declared_of_body kind type name)

/-- A use fails about a name that is declared neither by the class nor by the subroutine. -/
theorem blames_undefined (hg : Generator.Carries {} (actionsOf s.lead) code g) {name : String}
    (hstands : s.mark = .target name ∨
      s.mark = .operand name ∧ s.next ≠ some (.symbol '(') ∧ s.next ≠ some (.symbol '.'))
    (hsub : name ∉ g.subScope.names) (hclass : name ∉ g.classScope.names) :
    s.Blames (.undefined s.pos name) := by
  have hnot : ∀ kind type name', s.mark ≠ .declared kind type name' := by
    intro kind type name' hmark
    rcases hstands with h | ⟨h, -⟩ <;> rw [hmark] at h <;> cases h
  obtain ⟨zone, hsite⟩ := Class.site_of_script s.script
  cases zone with
  | shared =>
    obtain ⟨kind, type, name', hmark, -⟩ := hsite.declared_of_shared
    exact absurd hmark (hnot kind type name')
  | own sub inner =>
    obtain ⟨kind, type, name', hmark, -⟩ := hsite.declared_of_own
    exact absurd hmark (hnot kind type name')
  | body sub =>
    obtain ⟨hshared, hown⟩ := hsite.names_of_body hg
    rw [hshared] at hclass
    rw [hown] at hsub
    exact .undefined hstands hsite hclass fun h => hsub (List.mem_append_right _ h)

/-- An integer fails when it is written too large. -/
theorem blames_integer {value : UInt32} (hmark : s.mark = .integer value)
    (hvalue : maxConstant < value) : s.Blames (.intOutOfRange s.pos value) := by
  have htoken := s.token
  rw [hmark] at htoken
  obtain ⟨digits, htile, hreported⟩ := Tile.eq_integer_of_outcome htoken
  have hlarge : 32767 < value.toNat := UInt32.lt_iff_toNat_lt.mp hvalue
  exact .integer htile (by omega) hreported

/-- A string fails for its first character that is too large, or for its length. -/
theorem blames_string (hsize : bytes.length < UInt32.size) {content : String}
    (hmark : s.mark = .string content) {e : Error} (he : stringFault content s.pos = some e) :
    s.Blames e := by
  have htoken := s.token
  have hplain : s.mark.token.Plain bytes.length := s.plain
  rw [hmark] at htoken hplain
  have htile := Tile.eq_text_of_outcome htoken
  rcases stringFault_cases content s.pos with ⟨front, c, back, hsplit, hsmall, hlarge, hfault⟩ |
    ⟨-, hfault⟩
  · rw [hfault] at he
    cases he
    exact .wide htile hsplit hsmall hlarge
  · rw [hfault] at he
    split at he
    · next hlong =>
      cases he
      have hlength : content.length < UInt32.size := Nat.lt_of_le_of_lt hplain hsize
      rw [Nat.mod_eq_of_lt hlength] at hlong
      exact .long htile hlong (UInt32.toNat_ofNat_of_lt' hlength)
    · cases he

/-- An action that fails blames the token it looks at. -/
theorem blames_of_step (hsize : bytes.length < UInt32.size) {x : Action}
    (hpos : x.pos? = some s.pos) (hlooks : x.withPos .start = s.mark.action)
    (hnext : ∀ name, s.mark = .operand name →
      s.next ≠ some (.symbol '(') ∧ s.next ≠ some (.symbol '.'))
    (hg : Generator.Carries {} (actionsOf s.lead) code g) {e : Error}
    (he : g.step x = .error e) : s.Blames e := by
  rcases Generator.step_error_cases he with ⟨kind, type, name, pos, rfl, rfl, hname⟩ |
    ⟨name, pos, rfl, rfl, hsub, hclass⟩ | ⟨value, pos, rfl, rfl, hvalue⟩ |
    ⟨content, pos, rfl, hfault⟩
  all_goals cases hpos
  · have hmark : s.mark = .declared kind type name := by
      cases hm : s.mark <;> rw [hm] at hlooks <;> cases hlooks
      rfl
    exact blames_redefined hg hmark hname
  · refine blames_undefined hg ?_ hsub hclass
    cases hm : s.mark with
    | target =>
      rw [hm] at hlooks
      cases hlooks
      exact .inl rfl
    | operand =>
      have hfollows := hnext _ hm
      rw [hm] at hlooks
      cases hlooks
      exact .inr ⟨rfl, hfollows⟩
    | _ =>
      rw [hm] at hlooks
      cases hlooks
  · have hmark : s.mark = .integer value := by
      cases hm : s.mark <;> rw [hm] at hlooks <;> cases hlooks
      rfl
    exact blames_integer hmark hvalue
  · have hmark : s.mark = .string content := by
      cases hm : s.mark <;> rw [hm] at hlooks <;> cases hlooks
      rfl
    exact blames_string hsize hmark hfault

end Blame

end Sight

/-- A semantic error blames the right token. A token of the source begins where the error says, the
tokens up to it begin a class, and the error complains rightly about what the token stands for
there. -/
theorem semantic_error_blames {bytes : List UInt8} (hsize : bytes.length < UInt32.size)
    {sink : Sink} {options : Options} {e : Error}
    (h : (compile (Reading.ofBytes bytes) sink options).verdict = .error e)
    (he : e.errorClass = .semantic) :
    ∃ s : Sight bytes, e.pos = some s.pos ∧
      s.front.map (·.token) ++ [s.mark.token] <+: s.tree.tokens ∧ s.Blames e := by
  have hrun := (Run.error_of_deliverFrom h).resolve_right (by rw [he]; decide)
  have hgenerate := Run.generate_of_semantic hrun he
  obtain ⟨xs, x, ys, code, g, hactions, hxs, hx⟩ := Generator.exists_step_error hgenerate
  have hplace : x.pos? ≠ none := by
    intro hnone
    rcases Generator.step_error_cases hx with ⟨kind, type, name, pos, rfl, -⟩ |
      ⟨name, pos, rfl, -⟩ | ⟨value, pos, rfl, -⟩ | ⟨content, pos, rfl, -⟩ <;> cases hnone
  obtain ⟨c, hshows, hsighted⟩ := Syntax.parse_sighted hactions hplace
  obtain ⟨s, hpos, hlooks, hlead, hnext⟩ := Sight.exists_of_sighted hshows.lexemes hsighted
  have hcarries : Generator.Carries {} (actionsOf s.lead) code g := by
    rw [hlead]
    exact Generator.carries_unplaced.mpr hxs
  have hblames := Sight.blames_of_step hsize hpos hlooks hnext hcarries hx
  refine ⟨s, ?_, s.begins, hblames⟩
  cases hblames <;> rfl

/-- A method whose parameter hides a field and is declared again as a variable. -/
def twiceDeclared : List UInt8 :=
  utf8 "class A \x7b field int a; method void f(int a) \x7b var int a; \x7d \x7d"

/-- The variable is blamed for the parameter and not for the field. -/
theorem twiceDeclared_refused :
    twiceDeclared.length < UInt32.size ∧
      (compile (Reading.ofBytes twiceDeclared) {} {}).verdict =
        .error (.redefined ⟨1, 55⟩ "a") ∧
      ∃ s : Sight twiceDeclared, (Error.redefined ⟨1, 55⟩ "a").pos = some s.pos ∧
        s.front.map (·.token) ++ [s.mark.token] <+: s.tree.tokens ∧
        s.Blames (.redefined ⟨1, 55⟩ "a") := by
  have hsize : twiceDeclared.length < UInt32.size := by decide +kernel
  have hverdict : (compile (Reading.ofBytes twiceDeclared) {} {}).verdict =
      .error (.redefined ⟨1, 55⟩ "a") := by decide +kernel
  exact ⟨hsize, hverdict, semantic_error_blames hsize hverdict rfl⟩

end JackStack
