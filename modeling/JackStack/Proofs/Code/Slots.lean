import JackStack.Proofs.Code.Reference

/-!
# Slots

A name has a slot exactly when it is declared, and the number of the slot is below the number of
cells that there are for its kind.
-/

namespace JackStack.Tree

/-- The name of a slot is declared. -/
theorem slotAmong_isSome {receivers : Nat} {name : String} {front ds : List Declaration} :
    (slotAmong receivers name front ds).isSome ↔ name ∈ ds.map (·.name) := by
  induction ds generalizing front with
  | nil => simp [slotAmong]
  | cons d ds ih =>
    by_cases h : d.name = name
    · simp [slotAmong, h]
    · simp [slotAmong, h, ih, Ne.symm h]

/-- The names that are declared are those that have a slot. -/
theorem Context.slot?_isSome {ctx : Context} {name : String} :
    (ctx.slot? name).isSome ↔ ctx.Declares name := by
  rw [Context.slot?, Option.isSome_or, Bool.or_eq_true, slotAmong_isSome, slotAmong_isSome,
    Context.Declares]

/-- The number of a slot is below the number of variables of its kind, one of which is declared. -/
theorem slotAmong_bounds {receivers : Nat} {name : String} {front ds : List Declaration} {s : Slot}
    (h : slotAmong receivers name front ds = some s) :
    s.index < (if s.kind = .argument then receivers else 0) + countKind s.kind (front ++ ds) ∧
      ∃ d ∈ ds, d.kind = s.kind := by
  induction ds generalizing front with
  | nil => cases h
  | cons d ds ih =>
    by_cases hname : d.name = name
    · rw [slotAmong, if_pos hname] at h
      cases h
      refine ⟨?_, d, List.mem_cons_self, rfl⟩
      simp only [countKind, List.countP_append, List.countP_cons, decide_true, if_true]
      omega
    · rw [slotAmong, if_neg hname] at h
      obtain ⟨hlt, d', hd', hkind⟩ := ih h
      rw [List.append_assoc] at hlt
      exact ⟨hlt, d', List.mem_cons_of_mem d hd', hkind⟩

/-- The local variables of a subroutine are the names in its groups. -/
theorem Subroutine.countKind_local (s : Subroutine) :
    countKind .local s.declarations = (s.locals.flatMap Group.names).length := by
  have hp : countKind .local (s.parameters.map fun p => ⟨.argument, p.type.text, p.name⟩) = 0 := by
    simp [countKind, List.countP_eq_zero]
  have hl : countKind .local (s.locals.flatMap (Group.declarations .local)) =
      (s.locals.flatMap Group.names).length := by
    rw [countKind, List.countP_eq_length.mpr]
    · simp [List.length_flatMap, Group.declarations]
    · intro d hd
      obtain ⟨group, -, hd⟩ := List.mem_flatMap.mp hd
      obtain ⟨name, -, rfl⟩ := List.mem_map.mp hd
      rfl
  rw [countKind] at hp hl ⊢
  rw [Subroutine.declarations, List.countP_append, hp, hl, Nat.zero_add]

/-! ## Room -/

/-- The number of cells for the variables of a kind, that of the receiver included. -/
def Context.room (ctx : Context) : VarKind → Nat
  | .static => countKind .static ctx.shared
  | .field => countKind .field ctx.shared
  | .argument => ctx.receivers + countKind .argument ctx.own
  | .local => countKind .local ctx.own

/-- There is a cell for every slot, and every cell has a number that fits an operand. -/
structure Context.Roomy (ctx : Context) : Prop where
  bound : ∀ {name : String} {s : Slot}, ctx.slot? name = some s → s.index < ctx.room s.kind
  fits : ∀ kind, ctx.room kind < operandLimit

/-- A class declares static variables and fields. -/
theorem Class.kind_of_mem_declarations {c : Class} {d : Declaration} (h : d ∈ c.declarations) :
    d.kind = .static ∨ d.kind = .field := by
  obtain ⟨⟨sharing, group⟩, -, hd⟩ := List.mem_flatMap.mp h
  cases sharing with
  | static =>
    obtain ⟨name, -, rfl⟩ := List.mem_map.mp hd
    exact .inl rfl
  | field =>
    obtain ⟨name, -, rfl⟩ := List.mem_map.mp hd
    exact .inr rfl

/-- A subroutine declares arguments and local variables. -/
theorem Subroutine.kind_of_mem_declarations {s : Subroutine} {d : Declaration}
    (h : d ∈ s.declarations) : d.kind = .argument ∨ d.kind = .local := by
  rcases List.mem_append.mp h with hd | hd
  · obtain ⟨p, -, rfl⟩ := List.mem_map.mp hd
    exact .inl rfl
  · obtain ⟨group, -, hd⟩ := List.mem_flatMap.mp hd
    obtain ⟨name, -, rfl⟩ := List.mem_map.mp hd
    exact .inr rfl

/-- The slots of a subroutine lie inside the cells that it and its class have. -/
theorem Class.slot?_bound {c : Class} {s : Subroutine} {name : String} {slot : Slot}
    (h : (c.context s).slot? name = some slot) : slot.index < (c.context s).room slot.kind := by
  rcases Option.or_eq_some_iff.mp h with h | ⟨-, h⟩
  · obtain ⟨hlt, d, hd, hkind⟩ := slotAmong_bounds h
    rcases Subroutine.kind_of_mem_declarations hd with hk | hk <;> rw [← hkind, hk] at hlt ⊢ <;>
      simpa [Context.room, Class.context] using hlt
  · obtain ⟨hlt, d, hd, hkind⟩ := slotAmong_bounds h
    rcases Class.kind_of_mem_declarations hd with hk | hk <;> rw [← hkind, hk] at hlt ⊢ <;>
      simpa [Context.room, Class.context] using hlt

/-- Where few variables are declared, every slot fits an operand. -/
theorem Class.roomy {c : Class} {s : Subroutine} (hc : c.declarations.length < operandLimit)
    (hs : s.declarations.length + 1 < operandLimit) : (c.context s).Roomy := by
  refine ⟨Class.slot?_bound, fun kind => ?_⟩
  have hshared : ∀ kind, countKind kind (c.context s).shared ≤ c.declarations.length :=
    fun kind => List.countP_le_length
  have hown : ∀ kind, countKind kind (c.context s).own ≤ s.declarations.length :=
    fun kind => List.countP_le_length
  have hreceivers : (c.context s).receivers ≤ 1 := by
    unfold Context.receivers
    split <;> decide
  cases kind with
  | static => exact Nat.lt_of_le_of_lt (hshared .static) hc
  | field => exact Nat.lt_of_le_of_lt (hshared .field) hc
  | argument =>
    have hlt := hown .argument
    simp only [Context.room]
    omega
  | «local» =>
    have hlt := hown .local
    simp only [Context.room]
    omega

end JackStack.Tree
