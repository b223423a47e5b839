import JackStack.Proofs.Code.Declaring
import Mathlib.Data.List.Induction
import Mathlib.Data.List.Nodup
import Mathlib.Data.List.Perm.Basic

/-!
# A scope is the list of its declarations

A scope is asked to declare variables and to start anew. Whatever is asked and in whatever order,
everything that can be seen of the scope afterwards is determined by one list: the declarations
it has accepted since it last started anew. The names of the list are taken and no others, a
variable is numbered by those of its kind before it, and the listing by kind and number is the
list itself, arranged by kind.

The invariant that carries this is `serve_eq`: the scope is the empty scope extended by the list,
and no name stands in the list twice.
-/

namespace JackStack

open JackStack.Tree

/-- What a scope can be asked to do. -/
inductive Request where
  /-- Declare a variable. -/
  | declare (d : Declaration)
  /-- Start anew. -/
  | reset
  deriving DecidableEq, Repr

/-- A scope with the declarations that it has accepted since it last started anew. -/
structure Ledger where
  /-- The scope. -/
  scope : Scope := .empty
  /-- The accepted declarations, in order. -/
  accepted : List Declaration := []

namespace Ledger

/-- The scope meets a request: it is what it becomes when a declaration is accepted, and is left
as it is when one is refused. -/
def meet (l : Ledger) : Request → Ledger
  | .declare d =>
    match l.scope.declare? d.kind d.type d.name with
    | some (_, scope) => ⟨scope, l.accepted ++ [d]⟩
    | none => l
  | .reset => {}

/-- A new scope meets requests one after the other. -/
def serve (requests : List Request) : Ledger := requests.foldl meet {}

theorem serve_append_singleton (requests : List Request) (r : Request) :
    serve (requests ++ [r]) = (serve requests).meet r := by
  rw [serve, List.foldl_append, List.foldl_cons, List.foldl_nil, ← serve]

/-- A name declared before is refused, and the ledger stays. -/
theorem meet_declare_of_mem {l : Ledger} {d : Declaration} (h : d.name ∈ l.scope.names) :
    l.meet (.declare d) = l := by
  simp only [meet, Scope.declare?_of_mem h]

/-- A new name is accepted and written down. -/
theorem meet_declare_of_not_mem {l : Ledger} {d : Declaration} (h : d.name ∉ l.scope.names) :
    l.meet (.declare d) = ⟨l.scope.add d, l.accepted ++ [d]⟩ := by
  simp only [meet, Scope.declare?_of_not_mem h]

end Ledger

/-! ## The scope of a list of declarations -/

namespace Scope

theorem extend_append_singleton (s : Scope) (ds : List Declaration) (d : Declaration) :
    s.extend (ds ++ [d]) = (s.extend ds).add d := by
  rw [extend, List.foldl_append, List.foldl_cons, List.foldl_nil, extend]

/-- The names of an extended scope are its own and then those of the declarations. -/
theorem names_extend (s : Scope) (ds : List Declaration) :
    (s.extend ds).names = s.names ++ ds.map (·.name) := by
  induction ds using List.reverseRecOn with
  | nil => simp [extend]
  | append_singleton ds d ih => simp [extend_append_singleton, names_add, ih]

theorem names_extend_empty (ds : List Declaration) :
    (empty.extend ds).names = ds.map (·.name) := by
  rw [names_extend, names, members_empty, List.map_nil, List.nil_append]

theorem countP_extend_empty (ds : List Declaration) (kind : VarKind) :
    (empty.extend ds).members.countP (·.kind = kind) = countKind kind ds := by
  rw [countP_extend, members_empty, List.countP_nil, Nat.zero_add]

/-- From an empty scope on, the count of a kind is the number of its declarations, in 32 bits. -/
theorem count_extend_empty (ds : List Declaration) (kind : VarKind) :
    (empty.extend ds).count kind = UInt32.ofNat (countKind kind ds) := by
  rw [count_eq, countP_extend_empty]

/-- The variable of a declaration with others before it. -/
def numbered (before : List Declaration) (d : Declaration) : Variable :=
  ⟨d.name, d.type, d.kind, UInt32.ofNat (countKind d.kind before)⟩

/-- A last declaration adds the variable that is numbered by those before it. -/
theorem members_extend_append_singleton (ds : List Declaration) (d : Declaration) :
    (empty.extend (ds ++ [d])).members = (empty.extend ds).members ++ [numbered ds d] := by
  rw [extend_append_singleton, add, members_push, count_extend_empty, numbered]

/-- The declaration that a variable comes from. -/
def declarationOf (v : Variable) : Declaration := ⟨v.kind, v.type, v.name⟩

/-- The variables are those of the declarations, in order. -/
theorem map_declarationOf_members (ds : List Declaration) :
    (empty.extend ds).members.map declarationOf = ds := by
  induction ds using List.reverseRecOn with
  | nil => rfl
  | append_singleton ds d ih =>
    rw [members_extend_append_singleton, List.map_append, ih]
    rfl

/-- The variables are those of the declarations, each numbered by the ones before it. The last
declaration is the one looked at, or it stands behind that one. -/
theorem mem_members_extend {ds : List Declaration} {v : Variable} :
    v ∈ (empty.extend ds).members ↔
      ∃ before d after, ds = before ++ d :: after ∧ v = numbered before d := by
  induction ds using List.reverseRecOn with
  | nil => simp [extend]
  | append_singleton ds last ih =>
    rw [members_extend_append_singleton, List.mem_append, ih, List.mem_singleton]
    constructor
    · rintro (⟨before, d, after, rfl, rfl⟩ | rfl)
      · exact ⟨before, d, after ++ [last], by simp, rfl⟩
      · exact ⟨ds, last, [], rfl, rfl⟩
    · rintro ⟨before, d, after, hsplit, rfl⟩
      rcases List.eq_nil_or_concat after with rfl | ⟨after, x, rfl⟩
      · obtain ⟨rfl, rfl⟩ := List.append_singleton_inj.mp hsplit
        exact Or.inr rfl
      · rw [List.concat_eq_append, ← List.cons_append, ← List.append_assoc] at hsplit
        obtain ⟨rfl, rfl⟩ := List.append_singleton_inj.mp hsplit
        exact Or.inl ⟨before, d, after, rfl, rfl⟩

/-- The numbers of a kind run from zero without a gap. -/
theorem map_index_members (ds : List Declaration) (kind : VarKind) :
    ((empty.extend ds).members.filter (·.kind = kind)).map (·.index) =
      (List.range (countKind kind ds)).map UInt32.ofNat := by
  induction ds using List.reverseRecOn with
  | nil => rfl
  | append_singleton ds d ih =>
    rw [members_extend_append_singleton, List.filter_append, List.map_append, ih]
    by_cases h : d.kind = kind
    · have hcount : countKind kind (ds ++ [d]) = countKind kind ds + 1 := by
        simp [countKind, List.countP_append, h]
      rw [hcount, List.range_succ]
      simp [numbered, h]
    · have hcount : countKind kind (ds ++ [d]) = countKind kind ds := by
        simp [countKind, List.countP_append, h]
      rw [hcount]
      simp [numbered, h]

/-- Where names stand once, looking a name up is looking for a variable of that name. -/
theorem find?_eq_some_iff {s : Scope} (h : s.names.Nodup) {name : String} {v : Variable} :
    s.find? name = some v ↔ v ∈ s.members ∧ v.name = name := by
  rw [find?_eq]
  constructor
  · intro hfound
    exact ⟨List.mem_of_find?_eq_some hfound, by simpa using List.find?_some hfound⟩
  · rintro ⟨hmem, rfl⟩
    have hsome : (s.members.find? (·.name == v.name)).isSome := by
      rw [List.find?_isSome]
      exact ⟨v, hmem, by simp⟩
    obtain ⟨w, hw⟩ := Option.isSome_iff_exists.mp hsome
    have hname : w.name = v.name := by simpa using List.find?_some hw
    rw [hw, List.inj_on_of_nodup_map h (List.mem_of_find?_eq_some hw) hmem hname]

/-! ## The listing by kind and number -/

/-- The place of a kind in a listing. -/
def rank (kind : VarKind) : Nat := VarKind.all.idxOf kind

/-- Different kinds have different ranks. -/
theorem rank_injective {a b : VarKind} (h : rank a = rank b) : a = b := by
  revert h
  cases a <;> cases b <;> decide

/-- One variable does not come behind another in a listing: its kind comes earlier, or it is of
the same kind and its number is not larger. -/
def ordered (v w : Variable) : Bool :=
  rank v.kind < rank w.kind || (v.kind = w.kind && v.index ≤ w.index)

/-- Variables are ordered by their kinds and then by their numbers. -/
theorem ordered_iff {v w : Variable} :
    ordered v w = true ↔ rank v.kind < rank w.kind ∨ (v.kind = w.kind ∧ v.index ≤ w.index) := by
  simp [ordered]

theorem ordered_trans (u v w : Variable) (huv : ordered u v = true) (hvw : ordered v w = true) :
    ordered u w = true := by
  rw [ordered_iff] at *
  rcases huv with huv | ⟨huv, hi⟩ <;> rcases hvw with hvw | ⟨hvw, hj⟩
  · exact Or.inl (Nat.lt_trans huv hvw)
  · exact Or.inl (hvw ▸ huv)
  · exact Or.inl (huv ▸ hvw)
  · exact Or.inr ⟨huv.trans hvw, UInt32.le_trans hi hj⟩

theorem ordered_total (v w : Variable) : (ordered v w || ordered w v) = true := by
  rw [Bool.or_eq_true, ordered_iff, ordered_iff]
  rcases Nat.lt_trichotomy (rank v.kind) (rank w.kind) with h | h | h
  · exact Or.inl (Or.inl h)
  · have hkind := rank_injective h
    rcases UInt32.le_total v.index w.index with hi | hi
    · exact Or.inl (Or.inr ⟨hkind, hi⟩)
    · exact Or.inr (Or.inr ⟨hkind.symm, hi⟩)
  · exact Or.inr (Or.inl h)

/-- Variables that do not come behind each other have one kind and one number. -/
theorem data_eq_of_ordered {v w : Variable} (hvw : ordered v w = true)
    (hwv : ordered w v = true) : v.kind = w.kind ∧ v.index = w.index := by
  rw [ordered_iff] at *
  rcases hvw with hvw | ⟨hkind, hi⟩ <;> rcases hwv with hwv | ⟨hkind', hj⟩
  · omega
  · rw [hkind'] at hvw
    omega
  · rw [hkind] at hwv
    omega
  · exact ⟨hkind, UInt32.le_antisymm hi hj⟩

/-- Arranging by kind keeps every variable. -/
theorem entries_perm (s : Scope) : s.entries.Perm s.members := by
  rw [List.perm_iff_count]
  intro v
  simp only [entries, VarKind.all, List.flatMap_cons, List.flatMap_nil, List.append_nil,
    List.count_append]
  have hcount : ∀ kind, (s.members.filter (·.kind = kind)).count v =
      if v.kind = kind then s.members.count v else 0 := by
    intro kind
    by_cases h : v.kind = kind
    · rw [if_pos h]
      exact List.count_filter (by simpa using h)
    · rw [if_neg h, List.count_eq_zero, List.mem_filter]
      rintro ⟨-, hv⟩
      exact h (by simpa using hv)
  simp only [hcount]
  cases v.kind <;> simp

/-- The entries are the variables in another order. -/
theorem mem_entries {s : Scope} {v : Variable} : v ∈ s.entries ↔ v ∈ s.members :=
  s.entries_perm.mem_iff

/-- Among the entries the variables of a kind stand in the order of their declarations. -/
theorem filter_kind_entries (s : Scope) (kind : VarKind) :
    s.entries.filter (·.kind = kind) = s.members.filter (·.kind = kind) := by
  have hfilter : ∀ other, (s.members.filter (·.kind = other)).filter (·.kind = kind) =
      if other = kind then s.members.filter (·.kind = kind) else [] := by
    intro other
    rw [List.filter_filter]
    by_cases h : other = kind
    · simp [h]
    · rw [if_neg h, List.filter_eq_nil_iff]
      intro v _ hv
      simp only [Bool.and_eq_true, decide_eq_true_eq] at hv
      exact h (hv.2.symm.trans hv.1)
  simp only [entries, VarKind.all, List.flatMap_cons, List.flatMap_nil, List.append_nil,
    List.filter_append, hfilter]
  cases kind <;> simp

/-- A scope whose numbers increase within every kind lists its variables in order. -/
theorem entries_ordered {s : Scope}
    (h : ∀ kind, (s.members.filter (·.kind = kind)).Pairwise fun v w => v.index ≤ w.index) :
    s.entries.Pairwise fun v w => ordered v w = true := by
  have hkind : ∀ kind, ∀ v ∈ s.members.filter (·.kind = kind), v.kind = kind := by
    intro kind v hv
    simpa using (List.mem_filter.mp hv).2
  rw [entries, List.pairwise_flatMap]
  constructor
  · intro kind _
    apply (h kind).imp_of_mem
    intro v w hv hw hle
    exact ordered_iff.mpr (Or.inr ⟨(hkind kind v hv).trans (hkind kind w hw).symm, hle⟩)
  · have hranks : VarKind.all.Pairwise fun a b => rank a < rank b := by decide
    apply hranks.imp
    intro a b hlt v hv w hw
    rw [ordered_iff, hkind a v hv, hkind b w hw]
    exact Or.inl hlt

end Scope

/-! ## What a scope shows -/

/-- Everything that can be seen of a scope is what a list of declarations says. -/
structure Scope.Lists (s : Scope) (ds : List Declaration) : Prop where
  /-- A further declaration is accepted exactly when its name is new, and is then numbered by
  those of its kind. -/
  declare : ∀ kind type name, (s.declare? kind type name).map (·.1.toNat) =
    if name ∈ ds.map (·.name) then none else some (countKind kind ds)
  /-- A name is found as it is declared, with the number of those of its kind before it. -/
  find : ∀ name v, s.find? name = some v ↔
    ∃ before d after, ds = before ++ d :: after ∧ d.name = name ∧
      v.name = name ∧ v.type = d.type ∧ v.kind = d.kind ∧ v.index.toNat = countKind d.kind before
  /-- Nothing else is found. -/
  miss : ∀ name, s.find? name = none ↔ name ∉ ds.map (·.name)
  /-- The variables of a kind are counted. -/
  count : ∀ kind, (s.count kind).toNat = countKind kind ds
  /-- Their numbers run from zero without a gap and without a repetition. -/
  dense : ∀ kind, (s.entries.filter (·.kind = kind)).map (·.index.toNat) =
    List.range (s.count kind).toNat
  /-- The size is the number of declarations, and the sum of the counts. -/
  size : s.size = ds.length ∧ s.size = (s.count .static).toNat + (s.count .field).toNat +
    (s.count .argument).toNat + (s.count .local).toNat
  /-- Only the scope of no declarations is empty. -/
  isEmpty : s.isEmpty = ds.isEmpty
  /-- The listing goes by kind and, within a kind, in the order of the declarations. -/
  listing : s.entries.map declarationOf = VarKind.all.flatMap fun kind => ds.filter (·.kind = kind)
  /-- It has every declaration exactly once. -/
  once : (s.entries.map declarationOf).Perm ds
  /-- It is what sorting gives, in whatever order the variables are met at first. -/
  sorted : ∀ met : List Variable, met.Nodup → (∀ v, v ∈ met ↔ s.find? v.name = some v) →
    met.mergeSort ordered = s.entries

namespace Scope

variable {ds : List Declaration}

/-- Numbers that fit the width of an operand are kept by it. -/
theorem map_index_toNat (hfew : ∀ kind, countKind kind ds < UInt32.size) (kind : VarKind) :
    ((empty.extend ds).members.filter (·.kind = kind)).map (·.index.toNat) =
      List.range (countKind kind ds) := by
  have hindex := congrArg (List.map UInt32.toNat) (map_index_members ds kind)
  rw [List.map_map, List.map_map] at hindex
  refine hindex.trans ?_
  conv_rhs => rw [← List.map_id (List.range _)]
  apply List.map_congr_left
  intro n hn
  have hlt : n < UInt32.size := Nat.lt_trans (List.mem_range.mp hn) (hfew kind)
  exact UInt32.toNat_ofNat_of_lt' hlt

/-- Where there are few variables the count is their number. -/
theorem count_extend_toNat (hfew : ∀ kind, countKind kind ds < UInt32.size) (kind : VarKind) :
    ((empty.extend ds).count kind).toNat = countKind kind ds := by
  rw [count_extend_empty, UInt32.toNat_ofNat_of_lt' (hfew kind)]

/-- The size of a scope is the number of its variables. -/
theorem size_eq_length_members (s : Scope) : s.size = s.members.length := by
  rw [size, members, List.length_reverse]

/-- A scope is empty where it has no variables. -/
theorem isEmpty_eq (s : Scope) : s.isEmpty = s.members.isEmpty := by
  rw [isEmpty, members, List.isEmpty_reverse]

theorem length_members_extend (ds : List Declaration) :
    (empty.extend ds).members.length = ds.length := by
  rw [← List.length_map declarationOf, map_declarationOf_members]

/-- Every declaration is of one of the four kinds. -/
theorem length_eq_sum_countKind (ds : List Declaration) :
    ds.length = countKind .static ds + countKind .field ds + countKind .argument ds +
      countKind .local ds := by
  induction ds with
  | nil => rfl
  | cons d ds ih =>
    simp only [countKind, List.countP_cons, List.length_cons] at ih ⊢
    cases d.kind <;> simp <;> omega

/-- The entries are the declarations sorted by kind. -/
theorem map_declarationOf_entries (ds : List Declaration) :
    (empty.extend ds).entries.map declarationOf =
      VarKind.all.flatMap fun kind => ds.filter (·.kind = kind) := by
  rw [entries, List.map_flatMap]
  apply congrArg (fun f => VarKind.all.flatMap f)
  funext kind
  conv_rhs => rw [← map_declarationOf_members ds, List.filter_map]
  rfl

/-- Variables of one kind and one number are one variable. -/
theorem eq_of_ordered (hfew : ∀ kind, countKind kind ds < UInt32.size) {v w : Variable}
    (hv : v ∈ (empty.extend ds).members) (hw : w ∈ (empty.extend ds).members)
    (hvw : ordered v w = true) (hwv : ordered w v = true) : v = w := by
  obtain ⟨hkind, hindex⟩ := data_eq_of_ordered hvw hwv
  have hnodup : (((empty.extend ds).members.filter (·.kind = w.kind)).map
      (·.index.toNat)).Nodup := by
    rw [map_index_toNat hfew]
    exact List.nodup_range
  apply List.inj_on_of_nodup_map hnodup
  · exact List.mem_filter.mpr ⟨hv, by simpa using hkind⟩
  · exact List.mem_filter.mpr ⟨hw, by simp⟩
  · rw [hindex]

/-- However the variables are met, sorting them gives the listing. -/
theorem mergeSort_eq_entries (hfew : ∀ kind, countKind kind ds < UInt32.size) {met : List Variable}
    (hmet : met.Perm (empty.extend ds).members) :
    met.mergeSort ordered = (empty.extend ds).entries := by
  have hsorted : (empty.extend ds).entries.Pairwise fun v w => ordered v w = true := by
    apply entries_ordered
    intro kind
    have hrange : (List.range (countKind kind ds)).Pairwise (· ≤ ·) := List.pairwise_le_range
    rw [← map_index_toNat hfew, List.pairwise_map] at hrange
    exact hrange.imp fun hle => UInt32.le_iff_toNat_le.mpr hle
  have hperm : (met.mergeSort ordered).Perm (empty.extend ds).entries :=
    ((List.mergeSort_perm met ordered).trans hmet).trans (entries_perm _).symm
  apply hperm.eq_of_pairwise _ (List.pairwise_mergeSort ordered_trans ordered_total met) hsorted
  intro v w hv hw
  exact eq_of_ordered hfew (mem_entries.mp (hperm.mem_iff.mp hv)) (mem_entries.mp hw)

/-- The empty scope extended by declarations of different names shows exactly them. -/
theorem lists_extend (hnodup : (ds.map (·.name)).Nodup)
    (hfew : ∀ kind, countKind kind ds < UInt32.size) : (empty.extend ds).Lists ds := by
  have hnames : (empty.extend ds).names.Nodup := by rwa [names_extend_empty]
  have hmiss : ∀ name, (empty.extend ds).find? name = none ↔ name ∉ ds.map (·.name) := by
    intro name
    rw [find?_eq_none_iff, names_extend_empty]
  constructor
  case declare =>
    intro kind type name
    by_cases h : name ∈ ds.map (·.name)
    · rw [if_pos h]
      have hmem : name ∈ (empty.extend ds).names := by rwa [names_extend_empty]
      rw [declare?_of_mem (d := ⟨kind, type, name⟩) hmem, Option.map_none]
    · rw [if_neg h, declare?, (hmiss name).mpr h, Option.map_some, count_extend_toNat hfew]
  case find =>
    intro name v
    rw [find?_eq_some_iff hnames, mem_members_extend]
    constructor
    · rintro ⟨⟨before, d, after, hsplit, rfl⟩, hname⟩
      have hlt : countKind d.kind before < UInt32.size := by
        refine Nat.lt_of_le_of_lt ?_ (hfew d.kind)
        rw [hsplit, countKind, countKind, List.countP_append]
        omega
      exact ⟨before, d, after, hsplit, hname, hname, rfl, rfl, UInt32.toNat_ofNat_of_lt' hlt⟩
    · rintro ⟨before, d, after, hsplit, hd, hname, htype, hkind, hindex⟩
      refine ⟨⟨before, d, after, hsplit, ?_⟩, hname⟩
      obtain ⟨vname, vtype, vkind, vindex⟩ := v
      simp only at hname htype hkind hindex
      rw [numbered, hname, htype, hkind, hd, ← hindex, UInt32.ofNat_toNat]
  case miss => exact hmiss
  case count => exact count_extend_toNat hfew
  case dense =>
    intro kind
    rw [filter_kind_entries, map_index_toNat hfew, count_extend_toNat hfew]
  case size =>
    rw [size_eq_length_members, length_members_extend]
    simp only [count_extend_toNat hfew, true_and]
    exact length_eq_sum_countKind ds
  case isEmpty =>
    rw [isEmpty_eq, Bool.eq_iff_iff, List.isEmpty_iff_length_eq_zero, length_members_extend,
      List.isEmpty_iff_length_eq_zero]
  case listing => exact map_declarationOf_entries ds
  case once =>
    have hperm := (entries_perm (empty.extend ds)).map declarationOf
    rwa [map_declarationOf_members] at hperm
  case sorted =>
    intro met hmet hall
    apply mergeSort_eq_entries hfew
    rw [List.perm_ext_iff_of_nodup hmet (List.Nodup.of_map _ hnames)]
    intro v
    rw [hall, find?_eq_some_iff hnames]
    exact and_iff_left rfl

end Scope

namespace Ledger

/-- The scope is the empty scope extended by the accepted declarations, whose names differ. -/
def Sound (l : Ledger) : Prop :=
  l.scope = Scope.empty.extend l.accepted ∧ (l.accepted.map (·.name)).Nodup

/-- The names of a sound ledger are those accepted. -/
theorem Sound.names_eq {l : Ledger} (h : l.Sound) : l.scope.names = l.accepted.map (·.name) := by
  rw [h.1, Scope.names_extend_empty]

/-- A sound ledger stays sound whatever is asked. -/
theorem Sound.meet {l : Ledger} (h : l.Sound) (r : Request) : (l.meet r).Sound := by
  cases r with
  | declare d =>
    by_cases hd : d.name ∈ l.scope.names
    · rwa [meet_declare_of_mem hd]
    · rw [meet_declare_of_not_mem hd]
      constructor
      · rw [Scope.extend_append_singleton, h.1]
      · rw [List.map_append, List.map_singleton, ← List.concat_eq_append, List.nodup_concat]
        exact ⟨h.names_eq ▸ hd, h.2⟩
  | reset => exact ⟨rfl, List.nodup_nil⟩

/-- Every ledger that serves requests is sound. -/
theorem sound_serve (requests : List Request) : (serve requests).Sound := by
  induction requests using List.reverseRecOn with
  | nil => exact ⟨rfl, List.nodup_nil⟩
  | append_singleton requests r ih =>
    rw [serve_append_singleton]
    exact ih.meet r

/-- A scope is the list of the declarations that it has accepted since it last started anew: all
that can be seen of it is what the list says, a refused declaration changes nothing, and an
accepted one is the new end of the list. -/
theorem serve_lists (requests : List Request)
    (hfew : ∀ kind, countKind kind (serve requests).accepted < UInt32.size) :
    (serve requests).scope.Lists (serve requests).accepted ∧
      ∀ d : Declaration,
        if d.name ∈ (serve requests).accepted.map (·.name) then
          serve (requests ++ [.declare d]) = serve requests
        else (serve (requests ++ [.declare d])).accepted = (serve requests).accepted ++ [d] := by
  have hsound := sound_serve requests
  constructor
  · rw [hsound.1]
    exact Scope.lists_extend hsound.2 hfew
  · intro d
    rw [← hsound.names_eq, serve_append_singleton]
    split
    · next h => exact meet_declare_of_mem h
    · next h => exact congrArg accepted (meet_declare_of_not_mem h)

/-- A name that is taken is refused under any kind, and is free again after a reset. -/
theorem serve_lists_across_reset :
    (serve [.declare ⟨.field, "int", "x"⟩, .reset, .declare ⟨.local, "int", "x"⟩,
        .declare ⟨.argument, "char", "y"⟩, .declare ⟨.argument, "int", "x"⟩,
        .declare ⟨.local, "Point", "p"⟩]).scope.Lists
      [⟨.local, "int", "x"⟩, ⟨.argument, "char", "y"⟩, ⟨.local, "Point", "p"⟩] :=
  (serve_lists [.declare ⟨.field, "int", "x"⟩, .reset, .declare ⟨.local, "int", "x"⟩,
    .declare ⟨.argument, "char", "y"⟩, .declare ⟨.argument, "int", "x"⟩,
    .declare ⟨.local, "Point", "p"⟩] (by intro kind; cases kind <;> decide +kernel)).1

end Ledger

end JackStack
