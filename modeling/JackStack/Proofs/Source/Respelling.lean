import JackStack.Proofs.Source.Spelling
import Mathlib.Data.List.Forall2
import Mathlib.Logic.Function.Basic

/-!
# Other identifiers in a source

A tile asks of what follows it only whether it begins with this or that byte, and letters are all
the same to it. So an identifier of a source can be replaced by another one, and everything around
it is still read as it was.
-/

namespace JackStack

/-! ## Tokens -/

/-- The second token is the first, or it is an identifier in the place of another one. -/
def Token.Respelled (ρ : String → String) (t t' : Token) : Prop :=
  t' = t ∨ ∃ name, t = .identifier name ∧ t' = .identifier (ρ name)

/-- The second tokens are the first ones, with other identifiers in the place of some. -/
def Respells (ρ : String → String) : List Token → List Token → Prop :=
  List.Forall₂ (Token.Respelled ρ)

namespace Respells

variable {ρ : String → String} {front front' back back' tokens tokens' : List Token}

theorem nil : Respells ρ [] [] := List.Forall₂.nil

theorem same (t : Token) (h : Respells ρ tokens tokens') :
    Respells ρ (t :: tokens) (t :: tokens') :=
  List.Forall₂.cons (.inl rfl) h

theorem name (n : String) (h : Respells ρ tokens tokens') :
    Respells ρ (.identifier n :: tokens) (.identifier (ρ n) :: tokens') :=
  List.Forall₂.cons (.inr ⟨n, rfl, rfl⟩) h

/-- Tokens behind each other are respelled piece by piece. -/
theorem append (hfront : Respells ρ front front') (hback : Respells ρ back back') :
    Respells ρ (front ++ back) (front' ++ back') := List.rel_append hfront hback

/-- Tokens respell themselves. -/
theorem refl (tokens : List Token) : Respells ρ tokens tokens :=
  List.forall₂_same.mpr fun _ _ => .inl rfl

/-- The same tokens behind. -/
theorem snoc (h : Respells ρ tokens tokens') (back : List Token) :
    Respells ρ (tokens ++ back) (tokens' ++ back) := h.append (refl back)

/-- Items in a row are respelled one by one. -/
theorem flatMap {α : Type} {f g : α → List Token} {xs : List α}
    (h : ∀ x ∈ xs, Respells ρ (f x) (g x)) : Respells ρ (xs.flatMap f) (xs.flatMap g) := by
  induction xs with
  | nil => exact .nil
  | cons x xs ih =>
    obtain ⟨hx, hxs⟩ := List.forall_mem_cons.mp h
    exact hx.append (ih hxs)

end Respells

/-! ## The tokens of tiles -/

namespace Tile

/-- A tile is skipped, or it is a token, or it is a flaw. -/
theorem outcome_cases (t : Tile) (pos : Position) :
    (t.outcome pos = none ∧ t.token? = none ∧ t.isFlaw = false) ∨
      (∃ token, t.outcome pos = some (.lexeme ⟨token, pos⟩) ∧ t.token? = some token ∧
        t.isFlaw = false) ∨
      ∃ e, t.outcome pos = some (.failure e) ∧ t.token? = none ∧ t.isFlaw = true := by
  cases t with
  | blank _ | lineComment _ | blockComment _ => exact .inl ⟨rfl, rfl, rfl⟩
  | symbol _ | integer _ | keyword _ | identifier _ | text _ =>
    exact .inr (.inl ⟨_, rfl, rfl, rfl⟩)
  | stray _ | garbled _ | openText _ | openComment _ => exact .inr (.inr ⟨_, rfl, rfl, rfl⟩)

/-- The outcomes of tiles are lexemes when no tile is a flaw, and then those of their tokens. -/
theorem outcomes_lexemes_iff {tiles : List Tile} {tokens : List Token} (pos : Position) :
    (∃ lexemes : List Lexeme, lexemes.map (·.token) = tokens ∧
      outcomes pos tiles = lexemes.map .lexeme) ↔
      (∀ t ∈ tiles, t.isFlaw = false) ∧ tiles.filterMap token? = tokens := by
  induction tiles generalizing pos tokens with
  | nil =>
    constructor
    · rintro ⟨lexemes, rfl, hnil⟩
      rw [List.map_eq_nil_iff.mp hnil.symm]
      exact ⟨nofun, rfl⟩
    · rintro ⟨-, rfl⟩
      exact ⟨[], rfl, rfl⟩
  | cons t tiles ih =>
    rw [List.forall_mem_cons, outcomes]
    rcases t.outcome_cases pos with ⟨ho, ht, hflaw⟩ | ⟨token, ho, ht, hflaw⟩ | ⟨e, ho, -, hflaw⟩
    · rw [ho, List.filterMap_cons_none ht, Option.toList_none, List.nil_append, ih]
      simp [hflaw]
    · rw [ho, List.filterMap_cons_some ht, Option.toList_some, List.singleton_append]
      constructor
      · rintro ⟨_ | ⟨lx, lexemes⟩, rfl, heq⟩
        · cases heq
        obtain ⟨hlx, hlexemes⟩ := List.cons.inj heq
        obtain ⟨hclean, htokens⟩ := (ih (pos.after t.bytes)).mp ⟨lexemes, rfl, hlexemes⟩
        refine ⟨⟨hflaw, hclean⟩, ?_⟩
        rw [htokens, List.map_cons, ← Outcome.lexeme.inj hlx]
      · rintro ⟨⟨-, hclean⟩, rfl⟩
        obtain ⟨lexemes, htokens, hlexemes⟩ := (ih (pos.after t.bytes)).mpr ⟨hclean, rfl⟩
        exact ⟨⟨token, pos⟩ :: lexemes, by rw [List.map_cons, htokens],
          by rw [hlexemes, List.map_cons]⟩
    · rw [ho, hflaw, Option.toList_some, List.singleton_append]
      refine iff_of_false ?_ (by simp)
      rintro ⟨_ | ⟨lx, lexemes⟩, -, heq⟩ <;> cases heq

end Tile

/-- A source scans to the tokens of its tiles, when none of these is a flaw. -/
theorem scansTo_iff_tiling {bytes : ByteArray} {tokens : List Token} :
    ScansTo bytes tokens ↔ ∃ tiles, Tiling tiles bytes.data.toList ∧
      (∀ t ∈ tiles, t.isFlaw = false) ∧ tiles.filterMap Tile.token? = tokens := by
  have hscans : ∀ {tiles}, Tiling tiles bytes.data.toList →
      (ScansTo bytes tokens ↔ (∀ t ∈ tiles, t.isFlaw = false) ∧
        tiles.filterMap Tile.token? = tokens) := by
    intro tiles htiles
    rw [ScansTo, ScansTo.toList_eq_data, ← Tile.outcomes_lexemes_iff .start,
      ← htiles.outcomes_eq .start]
    rfl
  constructor
  · intro h
    obtain ⟨tiles, htiles⟩ := exists_tiling bytes.data.toList
    exact ⟨tiles, htiles, (hscans htiles).mp h⟩
  · rintro ⟨tiles, htiles, h⟩
    exact (hscans htiles).mpr h

/-! ## What follows a tile -/

/-- The bytes begin with a letter. -/
def Lettered (bytes : List UInt8) : Prop := ∃ b ∈ bytes.head?, b.isASCIIAlpha

/-- Both begin with the same byte, or both with a letter. -/
def Akin (rest rest' : List UInt8) : Prop :=
  rest.head? = rest'.head? ∨ Lettered rest ∧ Lettered rest'

namespace Akin

variable {rest rest' : List UInt8}

/-- A test for the first byte that tells no letters apart has one result for both. -/
theorem forall_head {P : UInt8 → Prop}
    (hletter : (∀ b : UInt8, b.isASCIIAlpha → P b) ∨ ∀ b : UInt8, b.isASCIIAlpha → ¬P b)
    (hakin : Akin rest rest') (h : ∀ b ∈ rest.head?, P b) : ∀ b ∈ rest'.head?, P b := by
  rcases hakin with heq | ⟨⟨b, hb, halpha⟩, c, hc, halpha'⟩
  · rwa [← heq]
  · intro d hd
    obtain rfl := Option.mem_unique hc hd
    rcases hletter with hall | hnone
    · exact hall c halpha'
    · exact absurd (h b hb) (hnone b halpha)

/-- Only nothing is akin to nothing. -/
theorem eq_nil (hakin : Akin rest rest') (h : rest = []) : rest' = [] := by
  have hnone := hakin.forall_head (P := fun _ => False) (.inr fun _ _ => id) (by simp [h])
  exact List.head?_eq_none_iff.mp (Option.eq_none_iff_forall_not_mem.mpr hnone)

/-- Where one source has no digit its kin has none. -/
theorem stops_digit (hakin : Akin rest rest') (h : Stops UInt8.isASCIIDigit rest) :
    Stops UInt8.isASCIIDigit rest' :=
  hakin.forall_head (P := (UInt8.isASCIIDigit · = false))
    (.inl (forall_byte (by decide +kernel))) h

/-- Where a word ends in one source it does so in its kin. -/
theorem stops_word (hakin : Akin rest rest') (h : Stops inWord rest) : Stops inWord rest' :=
  hakin.forall_head (P := (inWord · = false)) (.inr (forall_byte (by decide +kernel))) h

/-- Where a slash begins no comment in one source it begins none in its kin. -/
theorem no_comment (hakin : Akin rest rest') (h : ∀ c ∈ rest.head?, c ≠ 47 ∧ c ≠ 42) :
    ∀ c ∈ rest'.head?, c ≠ 47 ∧ c ≠ 42 :=
  hakin.forall_head (P := fun c => c ≠ 47 ∧ c ≠ 42) (.inl (forall_byte (by decide +kernel))) h

end Akin

namespace Tile

/-- A tile fits in front of everything that is akin to what follows it. -/
theorem Fits.of_akin {t : Tile} {rest rest' : List UInt8} (hakin : Akin rest rest')
    (h : t.Fits rest) : t.Fits rest' := by
  cases t with
  | blank b | blockComment body | text content | stray b | garbled content => exact h
  | lineComment body => exact h.imp_right fun hopen => ⟨hopen.1, hakin.eq_nil hopen.2⟩
  | symbol b => exact ⟨h.1, fun hslash => hakin.no_comment (h.2 hslash)⟩
  | integer digits => exact ⟨h.1, h.2.1, hakin.stops_digit h.2.2⟩
  | keyword word => exact ⟨h.1, hakin.stops_word h.2⟩
  | identifier name => exact ⟨⟨h.1.1, hakin.stops_word h.1.2⟩, h.2⟩
  | openText content | openComment body => exact ⟨h.1, hakin.eq_nil h.2⟩

/-! ## Sources -/

/-- The second tile is the first, or one name stands in the place of another. -/
def Respelled (x y : String) (t t' : Tile) : Prop :=
  t' = t ∨ t = .identifier x ∧ t' = .identifier y

/-- The tiles of tokens of which some are spelled in another way. Only the tile of an identifier has
an identifier for its token. -/
theorem exists_respelled {x y : String} {tiles : List Tile} {tokens : List Token}
    (hclean : ∀ t ∈ tiles, t.isFlaw = false)
    (h : Respells (Function.update id x y) (tiles.filterMap token?) tokens) :
    ∃ tiles', List.Forall₂ (Respelled x y) tiles tiles' ∧ (∀ t ∈ tiles', t.isFlaw = false) ∧
      tiles'.filterMap token? = tokens := by
  induction tiles generalizing tokens with
  | nil =>
    cases h
    exact ⟨[], .nil, nofun, rfl⟩
  | cons t tiles ih =>
    obtain ⟨ht, hrest⟩ := List.forall_mem_cons.mp hclean
    cases htoken : t.token? with
    | none =>
      rw [List.filterMap_cons_none htoken] at h
      obtain ⟨tiles', hrel, hclean', htokens⟩ := ih hrest h
      exact ⟨t :: tiles', .cons (.inl rfl) hrel, List.forall_mem_cons.mpr ⟨ht, hclean'⟩,
        by rw [List.filterMap_cons_none htoken, htokens]⟩
    | some token =>
      rw [List.filterMap_cons_some htoken] at h
      cases h with
      | @cons _ token' _ tokens' hfirst htail =>
        obtain ⟨tiles', hrel, hclean', htokens⟩ := ih hrest htail
        have hkeep : ∀ t', Respelled x y t t' → t'.isFlaw = false → t'.token? = some token' →
            ∃ tiles', List.Forall₂ (Respelled x y) (t :: tiles) tiles' ∧
              (∀ t ∈ tiles', t.isFlaw = false) ∧ tiles'.filterMap token? = token' :: tokens' :=
          fun t' hrespelled hflaw ht' =>
            ⟨t' :: tiles', .cons hrespelled hrel, List.forall_mem_cons.mpr ⟨hflaw, hclean'⟩,
              by rw [List.filterMap_cons_some ht', htokens]⟩
        rcases hfirst with rfl | ⟨name, rfl, rfl⟩
        · exact hkeep t (.inl rfl) ht htoken
        · obtain rfl : t = .identifier name := by
            cases t <;> cases htoken
            rfl
          by_cases hname : name = x
          · have hnew : Function.update id x y name = y := by rw [hname, Function.update_self]
            rw [hnew] at hkeep ⊢
            exact hkeep (.identifier y) (.inr ⟨by rw [hname], rfl⟩) rfl rfl
          · have hold : Function.update id x y name = name := Function.update_of_ne hname y id
            rw [hold] at hkeep ⊢
            exact hkeep (.identifier name) (.inl rfl) rfl rfl

end Tile

/-- What is read in the same way with another name in it begins in the same way. -/
theorem Tiling.respelled {x y : String} (hy : (Token.identifier y).Bare) {tiles tiles' : List Tile}
    {bytes : List UInt8} (h : Tiling tiles bytes)
    (hrel : List.Forall₂ (Tile.Respelled x y) tiles tiles') :
    ∃ bytes', Tiling tiles' bytes' ∧ Akin bytes bytes' := by
  induction h generalizing tiles' with
  | nil =>
    cases hrel
    exact ⟨[], .nil, .inl rfl⟩
  | @cons t tiles rest fits tail ih =>
    cases hrel with
    | @cons _ t' _ tiles' hfirst hothers =>
      obtain ⟨rest', htiling, hakin⟩ := ih hothers
      rcases hfirst with rfl | ⟨rfl, rfl⟩
      · obtain ⟨b, front, hbytes, -⟩ := fits.lead
        refine ⟨_, .cons (fits.of_akin hakin) htiling, .inl ?_⟩
        rw [hbytes]
        rfl
      · obtain ⟨⟨⟨b, front, hx, hb, -⟩, hstops⟩, -⟩ := fits
        obtain ⟨b', front', hy', hb', -⟩ := hy.1.1
        refine ⟨_, .cons ⟨⟨hy.1.1, hakin.stops_word hstops⟩, hy.2⟩ htiling, .inr ⟨?_, ?_⟩⟩
        · exact ⟨b, by rw [Tile.bytes, hx]; rfl, hb⟩
        · exact ⟨b', by rw [Tile.bytes, hy']; rfl, hb'⟩

/-- The second source is the first one, in which one name stands in the place of some identifiers
with another name. -/
def Respelling (x y : String) (bytes bytes' : ByteArray) : Prop :=
  ∃ tiles tiles', Tiling tiles bytes.data.toList ∧ Tiling tiles' bytes'.data.toList ∧
    List.Forall₂ (Tile.Respelled x y) tiles tiles'

/-- Identifiers of a source can be replaced where they stand. -/
theorem ScansTo.exists_respelling {x y : String} {bytes : ByteArray} {tokens tokens' : List Token}
    (h : ScansTo bytes tokens) (hy : (Token.identifier y).Bare)
    (hrespells : Respells (Function.update id x y) tokens tokens') :
    ∃ bytes', Respelling x y bytes bytes' ∧ ScansTo bytes' tokens' := by
  obtain ⟨tiles, htiles, hclean, rfl⟩ := scansTo_iff_tiling.mp h
  obtain ⟨tiles', hrel, hclean', htokens⟩ := Tile.exists_respelled hclean hrespells
  obtain ⟨bytes', htiles', -⟩ := htiles.respelled hy hrel
  exact ⟨⟨⟨bytes'⟩⟩, ⟨tiles, tiles', htiles, htiles', hrel⟩,
    scansTo_iff_tiling.mpr ⟨tiles', htiles', hclean', htokens⟩⟩

end JackStack
