import JackStack.Proofs.Grammar.Alike

/-!
# Reported names come from the source

The names that can get into the code are those of the class, of its subroutines, of types and of
what is called. Where every identifier in front of a cursor is a name of letters, digits and
underscores, a recogniser reports such names only, also where it fails, and leaves a cursor with
such identifiers.
-/

namespace JackStack

/-- A letter, a digit or the underscore. -/
def isNameChar (c : Char) : Bool := c.isAlphanum || c = '_'

/-- A name, as a hypothesis that the search for the class below can use. -/
class IsName (s : String) : Prop where
  ne_empty : s ≠ ""
  chars : ∀ c ∈ s.toList, isNameChar c

/-- All of them are names. -/
class AllNames (names : List String) : Prop where
  forall_mem : ∀ name ∈ names, IsName name

instance : AllNames [] := ⟨List.forall_mem_nil _⟩

instance (name : String) (names : List String) [IsName name] [h : AllNames names] :
    AllNames (name :: names) :=
  ⟨List.forall_mem_cons.mpr ⟨inferInstance, h.forall_mem⟩⟩

/-- An identifier is a name. -/
def Token.Named : Token → Prop
  | identifier name => IsName name
  | _ => True

/-- The names in an action that can get into the code. -/
@[reducible] def Action.names : Action → List String
  | nameClass name | nameSub name => [name]
  | declare _ type _ _ => [type]
  | call none name _ => [name]
  | call (some owner) name _ => [owner, name]
  | _ => []

/-- The lexemes in front of the first failure are outcomes. -/
theorem Outcome.lexeme_mem {outcomes : List Outcome} {lx : Lexeme}
    (h : lx ∈ Outcome.lexemes outcomes) : .lexeme lx ∈ outcomes := by
  induction outcomes with
  | nil => cases h
  | cons o rest ih =>
    cases o with
    | failure e => cases h
    | lexeme first =>
      rcases List.mem_cons.mp h with rfl | h
      · exact List.mem_cons_self
      · exact List.mem_cons_of_mem _ (ih h)

/-- All identifiers in front of the cursor are names. -/
def Cursor.Named (c : Cursor) : Prop := ∀ lx ∈ c.lexemes, lx.token.Named

namespace Parser

variable {α β : Type}

/-- Where identifiers are names, the recogniser reports names only, leaves a cursor where
identifiers are names, and its value satisfies the condition. -/
def Gives (p : Parser α) (R : α → Prop) : Prop :=
  ∀ c : Cursor, c.Named → (∀ a ∈ (p c).actions, AllNames a.names) ∧
    ∀ a c', (p c).outcome = .ok (a, c') → R a ∧ c'.Named

/-- The recogniser reports names only. -/
class Named (p : Parser α) : Prop where
  gives : p.Gives fun _ => True

/-- The value of one recogniser may be used by the one behind it. -/
theorem Gives.bind {p : Parser α} {f : α → Parser β} {R : α → Prop} {T : β → Prop}
    (hp : p.Gives R) (hf : ∀ a, R a → (f a).Gives T) : (p >>= f).Gives T := by
  intro c hc
  obtain ⟨hactions, houtcome⟩ := hp c hc
  rcases hpc : p c with ⟨xs, e | ⟨a, c'⟩⟩
  · rw [hpc] at hactions
    rw [bind_apply_of_error hpc]
    exact ⟨hactions, nofun⟩
  · rw [hpc] at hactions houtcome
    obtain ⟨ha, hc'⟩ := houtcome a c' rfl
    obtain ⟨hactions', houtcome'⟩ := hf a ha c' hc'
    rw [bind_apply_of_ok hpc]
    exact ⟨List.forall_mem_append.mpr ⟨hactions, hactions'⟩, houtcome'⟩

/-- A recogniser whose value satisfies a condition reports names in any case. -/
theorem Gives.named {p : Parser α} {R : α → Prop} (h : p.Gives R) : Named p :=
  ⟨fun c hc => ⟨(h c hc).1, fun a c' hok => ⟨trivial, ((h c hc).2 a c' hok).2⟩⟩⟩

/-- Behind a value that satisfies a condition only names are reported, if this is so whenever the
condition holds. -/
theorem named_bind {p : Parser α} {f : α → Parser β} {R : α → Prop} (hp : p.Gives R)
    (hf : ∀ a, R a → Named (f a)) : Named (p >>= f) :=
  ⟨hp.bind fun a ha => (hf a ha).gives⟩

theorem pure_gives {R : α → Prop} {a : α} (ha : R a) : (pure a : Parser α).Gives R := by
  intro c hc
  refine ⟨List.forall_mem_nil _, ?_⟩
  rintro b c' ⟨⟩
  exact ⟨ha, hc⟩

/-- A failure gives no value and reports nothing. -/
theorem fail_gives (expected : Expectation) (R : α → Prop) : (fail expected : Parser α).Gives R :=
  fun _ _ => ⟨List.forall_mem_nil _, nofun⟩

/-- The token that a cursor stands on is one of those in front of it. -/
theorem look_gives : look.Gives fun t => ∀ t' ∈ t, t'.Named := by
  intro c hc
  refine ⟨List.forall_mem_nil _, ?_⟩
  rintro t c' ⟨⟩
  refine ⟨fun t ht => ?_, hc⟩
  obtain ⟨lx, hlx, rfl⟩ := Option.map_eq_some_iff.mp ht
  apply hc
  rw [Cursor.lexemes, hlx]
  exact List.mem_append_left _ (List.mem_append_left _ List.mem_cons_self)

/-- Drawn lexemes are no names in the code. -/
theorem allNames_scans (drawn : List Lexeme) :
    ∀ a ∈ drawn.map Action.scan, AllNames a.names := by
  intro a ha
  obtain ⟨lx, -, rfl⟩ := List.mem_map.mp ha
  infer_instance

/-- What draws lexemes leaves some of them. -/
theorem advance_gives : advance.Gives fun _ => True := by
  rintro ⟨current, ahead, pending, finish⟩ hc
  refine ⟨allNames_scans _, ?_⟩
  rintro a c' hok
  refine ⟨trivial, fun lx hlx => hc lx ?_⟩
  rcases ahead with _ | ⟨next, ahead⟩
  · rcases pending with _ | ⟨next | e, pending⟩ <;> cases hok
    · cases hlx
    · exact List.mem_append_right _ hlx
  · cases hok
    rw [Cursor.lexemes, List.append_assoc]
    exact List.mem_append_right _ hlx

/-- Looking ahead draws lexemes that stood in front of the cursor before. -/
theorem peek_gives : peek.Gives fun _ => True := by
  rintro ⟨current, ahead, pending, finish⟩ hc
  refine ⟨allNames_scans _, ?_⟩
  rintro a c' hok
  refine ⟨trivial, fun lx hlx => hc lx ?_⟩
  rcases ahead with _ | ⟨next, ahead⟩
  · rcases pending with _ | ⟨next | e, pending⟩ <;> cases hok
    · exact hlx
    · change lx ∈ current.toList ++ [next] ++ Outcome.lexemes pending at hlx
      simpa [Cursor.lexemes, Outcome.lexemes] using hlx
  · have hpeek : peek ⟨current, next :: ahead, pending, finish⟩ =
        ⟨[], .ok (some next.token, ⟨current, next :: ahead, pending, finish⟩)⟩ := by
      simp [peek, ofDrawn, Cursor.peek, Cursor.draw, Except.map]
    rw [hpeek] at hok
    cases hok
    exact hlx

instance (a : α) : Named (pure a : Parser α) := ⟨pure_gives trivial⟩

instance (expected : Expectation) : Named (fail expected : Parser α) := ⟨fail_gives expected _⟩

instance : Named look := look_gives.named

theorem here_gives : here.Gives fun _ => True := by
  refine fun c hc => ⟨List.forall_mem_nil _, ?_⟩
  rintro p c' ⟨⟩
  exact ⟨trivial, hc⟩

instance : Named here := ⟨here_gives⟩

instance : Named advance := ⟨advance_gives⟩

instance : Named peek := ⟨peek_gives⟩

instance (a : Action) [h : AllNames a.names] : Named (report a) := by
  refine ⟨fun c hc => ⟨List.forall_mem_singleton.mpr h, ?_⟩⟩
  rintro u c' ⟨⟩
  exact ⟨trivial, hc⟩

/-- A recogniser of which the value does not matter, and behind it one of its continuations. -/
theorem Named.bind {p : Parser α} {f : α → Parser β} [h : Named p] (hf : ∀ a, Named (f a)) :
    Named (p >>= f) :=
  named_bind h.gives fun a _ => hf a

/-- A condition that does not depend on the cursor. -/
theorem Named.ite {P : Prop} [Decidable P] {p q : Parser α} (hp : Named p) (hq : Named q) :
    Named (if P then p else q) := by
  split
  · exact hp
  · exact hq

instance (char : Char) : Named (accept char) := by
  unfold accept
  exact .bind fun _ => .ite (.bind fun _ => inferInstance) inferInstance

instance (char : Char) : Named (expect char) := by
  unfold expect
  exact .bind fun _ => .ite inferInstance inferInstance

instance (word : Keyword) : Named (expectKeyword word) := by
  unfold expectKeyword
  exact .bind fun _ => .ite inferInstance inferInstance

/-- What an identifier gives is a name. -/
theorem identifier_gives : identifier.Gives IsName := by
  unfold identifier
  refine look_gives.bind fun token htoken => ?_
  split
  · next name => exact advance_gives.bind fun _ _ => pure_gives (htoken _ rfl)
  · exact fail_gives _ _

instance : Named identifier := identifier_gives.named

instance (test : Option Token → Bool) {round : Parser Unit} [Named round] (limit : Nat) :
    Named (repeatWhile test round limit) := by
  induction limit with
  | zero =>
    unfold repeatWhile
    infer_instance
  | succ limit ih =>
    unfold repeatWhile
    exact .bind fun _ => .ite (.bind fun _ => .bind fun _ => inferInstance) inferInstance

instance {item : Parser Unit} [Named item] (limit : Nat) : Named (commaSeparated item limit) := by
  unfold commaSeparated
  have : Named (do advance; item) := .bind fun _ => inferInstance
  exact .bind fun _ => .bind fun _ => inferInstance

end Parser

/-! ## The grammar -/

namespace Syntax

open JackStack.Parser

section Parameters

variable {p : Parser Unit} [Parser.Named p]

instance : Parser.Named (operation p) := by
  unfold operation
  refine .bind fun token => ?_
  split
  · exact .bind fun _ => .bind fun _ => inferInstance
  · infer_instance

instance (limit : Nat) : Parser.Named (chain p limit) := by
  unfold chain
  exact .bind fun _ => .bind fun _ => inferInstance

instance (limit : Nat) : Parser.Named (arguments p limit) := by
  unfold arguments
  exact .bind fun _ => .ite inferInstance inferInstance

instance (limit : Nat) (name : String) [IsName name] :
    Parser.Named (callWith p limit none name) := by
  unfold callWith
  exact .bind fun _ => .bind fun _ => .bind fun _ => inferInstance

instance (limit : Nat) (owner name : String) [IsName owner] [IsName name] :
    Parser.Named (callWith p limit (some owner) name) := by
  unfold callWith
  exact .bind fun _ => .bind fun _ => .bind fun _ => inferInstance

instance (limit : Nat) : Parser.Named (call p limit) := by
  unfold call
  refine named_bind identifier_gives fun first _ => .bind fun dot => .ite ?_ ?_
  · exact named_bind identifier_gives fun name _ => .bind fun _ => inferInstance
  · exact .bind fun _ => inferInstance

instance (limit : Nat) (name : String) (pos : Position) :
    Parser.Named (named p limit name pos) := by
  unfold named
  refine .bind fun next => .ite inferInstance (.bind fun _ => .bind fun _ => .ite ?_ inferInstance)
  exact .bind fun _ => .bind fun _ => .bind fun _ => .bind fun _ => inferInstance

instance (limit : Nat) (c : Char) : Parser.Named (symbolTerm p limit c) := by
  unfold symbolTerm
  split
  · exact .bind fun _ => .bind fun _ => inferInstance
  · exact .bind fun _ => .bind fun _ => inferInstance
  · exact .bind fun _ => .bind fun _ => inferInstance
  · infer_instance

instance (word : Keyword) : Parser.Named (keywordTerm word) := by
  unfold keywordTerm
  split
  case h_5 => infer_instance
  all_goals exact .bind fun _ => inferInstance

instance (limit : Nat) : Parser.Named (termWith p limit) := by
  unfold termWith
  refine .bind fun pos => .bind fun token => ?_
  split
  case h_3 | h_4 => exact .bind fun _ => .bind fun _ => inferInstance
  all_goals infer_instance

end Parameters

instance (limit : Nat) : Parser.Named (term limit) := by
  induction limit with
  | zero =>
    unfold term
    infer_instance
  | succ limit ih =>
    unfold term
    infer_instance

instance (limit : Nat) : Parser.Named (expression limit) := by
  unfold expression
  infer_instance

instance : Parser.Named closeBlock := by
  unfold closeBlock
  exact .bind fun _ => .ite inferInstance inferInstance

instance {p : Parser Unit} [Parser.Named p] (limit : Nat) : Parser.Named (block p limit) := by
  unfold block
  exact .bind fun _ => .bind fun _ => inferInstance

instance (limit : Nat) (store : Action) [AllNames store.names] :
    Parser.Named (assignment limit store) := by
  unfold assignment
  exact .bind fun _ => .bind fun _ => .bind fun _ => inferInstance

instance (limit : Nat) : Parser.Named (letStatement limit) := by
  unfold letStatement
  refine .bind fun _ => .bind fun pos => .bind fun name => .bind fun _ => .bind fun bracket =>
    .ite ?_ inferInstance
  exact .bind fun _ => .bind fun _ => .bind fun _ => inferInstance

instance {p : Parser Unit} [Parser.Named p] (limit : Nat) : Parser.Named (ifStatement p limit) := by
  unfold ifStatement
  refine .bind fun _ => .bind fun _ => .bind fun _ => .bind fun _ => .bind fun _ => .bind fun _ =>
    .bind fun _ => .bind fun _ => .bind fun token => .ite ?_ ?_
  · exact .bind fun _ => .bind fun _ => .bind fun _ => inferInstance
  · exact .bind fun _ => inferInstance

instance {p : Parser Unit} [Parser.Named p] (limit : Nat) :
    Parser.Named (whileStatement p limit) := by
  unfold whileStatement
  exact .bind fun _ => .bind fun _ => .bind fun _ => .bind fun _ => .bind fun _ => .bind fun _ =>
    .bind fun _ => .bind fun _ => .bind fun _ => inferInstance

instance (limit : Nat) : Parser.Named (doStatement limit) := by
  unfold doStatement
  exact .bind fun _ => .bind fun _ => .bind fun _ => inferInstance

instance (limit : Nat) : Parser.Named (returnStatement limit) := by
  unfold returnStatement
  refine .bind fun _ => .bind fun token => .ite ?_ ?_
  · exact .bind fun _ => .bind fun _ => inferInstance
  · exact .bind fun _ => .bind fun _ => inferInstance

instance (limit : Nat) : Parser.Named (statement limit) := by
  induction limit with
  | zero =>
    unfold statement
    infer_instance
  | succ limit ih =>
    unfold statement
    exact .bind fun token => by split <;> infer_instance

/-- The name of a type is a name. -/
theorem type_gives : type.Gives IsName := by
  unfold type
  refine look_gives.bind fun token htoken => ?_
  split
  · next name hname =>
    refine advance_gives.bind fun _ _ => pure_gives ?_
    unfold typeName? at hname
    split at hname <;> cases hname
    · exact ⟨by decide, List.all_eq_true.mp (by decide)⟩
    · exact ⟨by decide, List.all_eq_true.mp (by decide)⟩
    · exact ⟨by decide, List.all_eq_true.mp (by decide)⟩
    · exact htoken _ rfl
  · exact fail_gives _ _

instance : Parser.Named returnType := by
  unfold returnType
  exact .bind fun _ => .ite inferInstance inferInstance

instance (kind : VarKind) (type : String) [IsName type] :
    Parser.Named (declaration kind type) := by
  unfold declaration
  exact .bind fun pos => .bind fun name => inferInstance

instance (kind : VarKind) (limit : Nat) : Parser.Named (declarations kind limit) := by
  unfold declarations
  exact named_bind type_gives fun type _ => .bind fun _ => inferInstance

instance (limit : Nat) : Parser.Named (classVariables limit) := by
  unfold classVariables
  refine .bind fun token => ?_
  split
  · exact .bind fun _ => inferInstance
  · infer_instance

instance : Parser.Named parameter := by
  unfold parameter
  exact named_bind type_gives fun type _ => inferInstance

instance (limit : Nat) : Parser.Named (parameters limit) := by
  unfold parameters
  exact .bind fun _ => .ite inferInstance (.bind fun _ => inferInstance)

instance (limit : Nat) : Parser.Named (localVariables limit) := by
  unfold localVariables
  exact .bind fun _ => inferInstance

instance (limit : Nat) : Parser.Named (body limit) := by
  unfold body
  exact .bind fun _ => .bind fun _ => .bind fun _ => .bind fun _ => inferInstance

instance (limit : Nat) : Parser.Named (subroutine limit) := by
  unfold subroutine
  refine .bind fun token => ?_
  split
  · exact .bind fun _ => .bind fun _ => .bind fun _ => named_bind identifier_gives fun name _ =>
      .bind fun _ => .bind fun _ => .bind fun _ => .bind fun _ => inferInstance
  · infer_instance

instance (limit : Nat) : Parser.Named (classDeclaration limit) := by
  unfold classDeclaration
  exact .bind fun _ => named_bind identifier_gives fun name _ => .bind fun _ => .bind fun _ =>
    .bind fun _ => .bind fun _ => .bind fun _ => .ite inferInstance inferInstance

instance (limit : Nat) : Parser.Named (program limit) := by
  unfold program
  exact .bind fun _ => .bind fun _ => .ite inferInstance inferInstance

/-- Where all identifiers of a source are names, recognition reports names only. -/
theorem parse_names {outcomes : List Outcome} (finish : Position)
    (h : ∀ lx, .lexeme lx ∈ outcomes → lx.token.Named) :
    ∀ a ∈ (parse outcomes finish).actions, AllNames a.names := by
  have hnamed : Parser.Named (do advance; program outcomes.length : Parser Unit) :=
    .bind fun _ => inferInstance
  refine (hnamed.gives (.before outcomes finish) ?_).1
  intro lx hlx
  exact h lx (Outcome.lexeme_mem hlx)

end Syntax

end JackStack
