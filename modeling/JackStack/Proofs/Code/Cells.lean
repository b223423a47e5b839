import JackStack.Proofs.Code.Declaring
import JackStack.Proofs.Code.Pieces

/-!
# Cells

Every variable has a cell, a place in a segment, and the code of a subroutine reads and writes the
cells that the subroutine and its class have. The number of a variable is bounded by the number of
variables of its kind, so no operand points beyond the cells of its segment; and it counts the
variables of its kind declared before, so variables of one scope never share a cell.
-/

namespace JackStack

open JackStack.Tree

/-! ## Operands in bounds -/

/-- The operand of a push or a pop is below the number of cells of its segment. A segment without
a number holds constants: any of them can be pushed, but nothing can be popped there. -/
def Instruction.InBounds (cells : Segment → Option Nat) : Instruction → Prop
  | push segment index => ∀ n ∈ cells segment, index.toNat < n
  | pop segment index => ∃ n ∈ cells segment, index.toNat < n
  | _ => True

namespace Instruction.InBounds

variable {cells : Segment → Option Nat} {segment : Segment} {index : UInt32} {n : Nat}

/-- A push below the number of cells is in bounds. -/
theorem push (hn : cells segment = some n) (hlt : index.toNat < n) :
    (Instruction.push segment index).InBounds cells := by
  intro m hm
  rw [hn] at hm
  cases hm
  exact hlt

/-- A pop below the number of cells is in bounds. -/
theorem pop (hn : cells segment = some n) (hlt : index.toNat < n) :
    (Instruction.pop segment index).InBounds cells := ⟨n, hn, hlt⟩

/-- Constants are pushed without a bound. -/
theorem constant (h : cells .constant = none) :
    (Instruction.push .constant index).InBounds cells := by
  intro n hn
  rw [h] at hn
  cases hn

end Instruction.InBounds

/-- The operands of all instructions are in bounds. -/
def Bounded (cells : Segment → Option Nat) (code : List Instruction) : Prop :=
  ∀ i ∈ code, i.InBounds cells

namespace Tree

/-- The number of cells of each segment for code inside a context. -/
def Context.cells (ctx : Context) : Segment → Option Nat
  | .constant => none
  | .argument => some (ctx.room .argument)
  | .local => some (ctx.room .local)
  | .static => some (ctx.room .static)
  | .this => some (ctx.room .field)
  | .that => some 1
  | .pointer => some 2
  | .temp => some 1

/-- Each segment has as many cells as there are variables of its kind. -/
theorem Context.cells_segment (ctx : Context) (kind : VarKind) :
    ctx.cells kind.segment = some (ctx.room kind) := by
  cases kind <;> rfl

theorem Slot.push_eq (s : Slot) : s.push = .push s.kind.segment (.ofNat s.index) := by
  obtain ⟨type, kind, index⟩ := s
  cases kind <;> rfl

theorem Slot.pop_eq (s : Slot) : s.pop = .pop s.kind.segment (.ofNat s.index) := by
  obtain ⟨type, kind, index⟩ := s
  cases kind <;> rfl

namespace Context.Roomy

variable {ctx : Context}

/-- The number of a slot, as an operand, is below the number of cells of its kind. -/
theorem toNat_lt (h : ctx.Roomy) {name : String} {s : Slot} (hs : ctx.slot? name = some s) :
    (UInt32.ofNat s.index).toNat < ctx.room s.kind := by
  have hlt := h.bound hs
  have hfits := h.fits s.kind
  rw [UInt32.toNat_ofNat_of_lt' (Nat.lt_trans hlt hfits)]
  exact hlt

/-- The operand of an instruction that computes is in bounds. -/
theorem inBounds_of_computes (h : ctx.Roomy) {i : Instruction} (hi : ctx.Computes i) :
    i.InBounds ctx.cells := by
  cases hi with
  | constant value => exact .constant rfl
  | @«variable» name s found =>
    rw [s.push_eq]
    exact .push (ctx.cells_segment s.kind) (h.toNat_lt found)
  | object => exact .push rfl (by decide)
  | address => exact .pop rfl (by decide)
  | element => exact .push rfl (by decide)
  | arithmetic | call => trivial

/-- The operand of an instruction of a statement is in bounds. -/
theorem inBounds_of_performs (h : ctx.Roomy) {i : Instruction} (hi : ctx.Performs i) :
    i.InBounds ctx.cells := by
  cases hi with
  | computes hi => exact h.inBounds_of_computes hi
  | @«variable» name s found =>
    rw [s.pop_eq]
    exact .pop (ctx.cells_segment s.kind) (h.toNat_lt found)
  | element => exact .pop rfl (by decide)
  | hold => exact .pop rfl (by decide)
  | held => exact .push rfl (by decide)
  | label | goto | ifGoto | ret => trivial

end Context.Roomy

/-- The operands in the body of a subroutine are in bounds: a method has a cell for its receiver
among its arguments. -/
theorem Subroutine.bounded {c : Class} {s : Subroutine} (h : (c.context s).Roomy) (n : Nat) :
    Bounded (c.context s).cells (s.bodyCode c n) := by
  have hprologue : Bounded (c.context s).cells (c.context s).prologue := by
    obtain ⟨kind, returns, name, parameters, locals, body⟩ := s
    cases kind with
    | function => exact List.forall_mem_nil _
    | method =>
      have hreceiver : 0 < (c.context ⟨.method, returns, name, parameters, locals, body⟩).room
          .argument := Nat.lt_add_right _ Nat.zero_lt_one
      exact List.forall_mem_cons.mpr
        ⟨.push rfl hreceiver, List.forall_mem_singleton.mpr (.pop rfl (by decide))⟩
    | constructor =>
      exact List.forall_mem_cons.mpr ⟨.constant rfl, List.forall_mem_cons.mpr
        ⟨trivial, List.forall_mem_singleton.mpr (.pop rfl (by decide))⟩⟩
  have hbody : Bounded (c.context s).cells (blockCode (c.context s) n s.body) :=
    fun i hi => h.inBounds_of_performs (block_performs _ n s.body i hi)
  exact List.forall_mem_append.mpr ⟨hprologue, hbody⟩

/-! ## Cells apart -/

/-- The number of a slot is not below the number of variables of its kind in front. -/
theorem le_index_of_slotAmong {receivers : Nat} {name : String} {front ds : List Declaration}
    {s : Slot} (h : slotAmong receivers name front ds = some s) :
    (if s.kind = .argument then receivers else 0) + countKind s.kind front ≤ s.index := by
  induction ds generalizing front with
  | nil => cases h
  | cons d ds ih =>
    by_cases hname : d.name = name
    · rw [slotAmong, if_pos hname] at h
      cases h
      exact Nat.le_refl _
    · rw [slotAmong, if_neg hname] at h
      have hle := ih h
      rw [countKind, List.countP_append] at hle
      exact Nat.le_trans (Nat.add_le_add_left (Nat.le_add_right _ _) _) hle

/-- A variable declared first has a smaller number than all others of its kind. -/
theorem index_lt_of_slotAmong {receivers : Nat} {name : String} {front ds : List Declaration}
    {d : Declaration} {s : Slot} (h : slotAmong receivers name (front ++ [d]) ds = some s)
    (hkind : d.kind = s.kind) :
    (if d.kind = .argument then receivers else 0) + countKind d.kind front < s.index := by
  have hle := le_index_of_slotAmong h
  rw [← hkind, countKind, List.countP_append, List.countP_singleton] at hle
  simp only [decide_true, if_true] at hle
  rw [countKind]
  omega

/-- Only one name has a slot with this kind and this number. -/
theorem slotAmong_injective {receivers : Nat} {a b : String} {front ds : List Declaration}
    {s t : Slot} (ha : slotAmong receivers a front ds = some s)
    (hb : slotAmong receivers b front ds = some t) (hkind : s.kind = t.kind)
    (hindex : s.index = t.index) : a = b := by
  induction ds generalizing front with
  | nil => cases ha
  | cons d ds ih =>
    by_cases hda : d.name = a <;> by_cases hdb : d.name = b
    · exact hda.symm.trans hdb
    · rw [slotAmong, if_pos hda] at ha
      rw [slotAmong, if_neg hdb] at hb
      cases ha
      exact absurd hindex (Nat.ne_of_lt (index_lt_of_slotAmong hb hkind))
    · rw [slotAmong, if_neg hda] at ha
      rw [slotAmong, if_pos hdb] at hb
      cases hb
      exact absurd hindex.symm (Nat.ne_of_lt (index_lt_of_slotAmong ha hkind.symm))
    · rw [slotAmong, if_neg hda] at ha
      rw [slotAmong, if_neg hdb] at hb
      exact ih ha hb

end Tree

/-- Variables of different kinds are in different segments. -/
theorem VarKind.segment_injective {j k : VarKind} (h : j.segment = k.segment) : j = k := by
  cases j <;> cases k <;> first | rfl | cases h

/-- Where code reaches a variable. -/
def Variable.cell (v : Variable) : Segment × UInt32 := (v.kind.segment, v.index)

/-- The names are different, the scope has a variable for each of them, and no two of them share a
cell. -/
structure Scope.Houses (scope : Scope) (names : List String) : Prop where
  distinct : names.Nodup
  found : ∀ name ∈ names, (scope.find? name).isSome
  apart : ∀ {a b : String} {v w : Variable}, a ∈ names → b ∈ names → scope.find? a = some v →
    scope.find? b = some w → v.cell = w.cell → a = b

/-- A scope houses what it is extended by, as long as the numbers fit their operands. The number of
a slot is not changed by its becoming an operand. -/
theorem Scope.houses_extend (receivers : Nat) {s : Scope} {ds : List Declaration}
    (hcount : ∀ kind, s.members.countP (·.kind = kind) = if kind = .argument then receivers else 0)
    (hnew : ∀ d ∈ ds, d.name ∉ s.names) (hnodup : (ds.map (·.name)).Nodup)
    (hfits : receivers + ds.length < operandLimit) : (s.extend ds).Houses (ds.map (·.name)) := by
  have hslot : ∀ name ∈ ds.map (·.name), ((s.extend ds).find? name).map Variable.data =
      (slotAmong receivers name [] ds).map Slot.data := by
    intro name hname
    obtain ⟨d, hd, rfl⟩ := List.mem_map.mp hname
    apply find?_extend
    · intro kind
      rw [hcount]
      rfl
    · exact find?_eq_none_iff.mpr (hnew d hd)
  have hnumber : ∀ {name v}, name ∈ ds.map (·.name) → (s.extend ds).find? name = some v →
      ∃ t, slotAmong receivers name [] ds = some t ∧ v.kind = t.kind ∧ v.index.toNat = t.index := by
    intro name v hname hv
    have hdata := hslot name hname
    rw [hv] at hdata
    obtain ⟨t, ht, htv⟩ := Option.map_eq_some_iff.mp hdata.symm
    have hlt := (slotAmong_bounds ht).1
    have hle : countKind t.kind ([] ++ ds) ≤ ds.length := List.countP_le_length
    have hindex : t.index < UInt32.size := by
      rw [operandLimit] at hfits
      split at hlt <;> omega
    simp only [Slot.data, Variable.data, Prod.mk.injEq] at htv
    refine ⟨t, ht, htv.2.1.symm, ?_⟩
    rw [← htv.2.2, UInt32.toNat_ofNat_of_lt' hindex]
  refine ⟨hnodup, ?_, ?_⟩
  · intro name hname
    have hsome := congrArg Option.isSome (hslot name hname)
    rw [Option.isSome_map, Option.isSome_map] at hsome
    rw [hsome]
    exact slotAmong_isSome.mpr hname
  · intro a b v w ha hb hv hw hcell
    obtain ⟨s, hs, hskind, hsindex⟩ := hnumber ha hv
    obtain ⟨t, ht, htkind, htindex⟩ := hnumber hb hw
    obtain ⟨hsegment, hindex⟩ := Prod.mk.inj hcell
    apply slotAmong_injective hs ht
    · rw [← hskind, ← htkind, VarKind.segment_injective hsegment]
    · rw [← hsindex, ← htindex, hindex]

namespace Tree

/-- The scope of the class houses the names of the class. -/
theorem Between.houses_class {c : Class} {n : Nat} {g : Generator} (h : Between c n g)
    (hc : c.WellFormed) (hfits : c.Fits) :
    g.classScope.Houses (c.declarations.map (·.name)) := by
  rw [h.classScope]
  apply Scope.houses_extend 0
  · intro kind
    cases kind <;> rfl
  · exact fun _ _ => List.not_mem_nil
  · exact hc.1
  · rw [Nat.zero_add]
    exact hfits.1

/-- Where the body of a subroutine begins, its scope houses the names of the subroutine. -/
theorem houses_inside {c : Class} {s : Subroutine} (hwf : s.WellFormed c) (hfits : s.Fits)
    {g : Generator} (hnew : ∀ d ∈ s.declarations, d.name ∉ (g.freshScope s.kind).names) :
    (inside g s).subScope.Houses (s.declarations.map (·.name)) := by
  apply Scope.houses_extend (c.context s).receivers
  · intro kind
    unfold Generator.freshScope Context.receivers Class.context
    rcases s with ⟨_ | _ | _, _⟩ <;> cases kind <;> rfl
  · exact hnew
  · exact hwf.1
  · have hlimit := hfits.1
    unfold Context.receivers
    split <;> omega

end Tree

end JackStack
