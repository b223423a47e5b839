import JackStack.Syntax.Action
import JackStack.Text.Column

/-!
# Scopes

A scope is the list of the variables it has accepted, in the order of their declaration. The
variables of a kind are numbered densely from zero, in that order, and a name is accepted once. So
that large scopes are fast, the variables are also kept in a register, in which they are found by
name and counted by kind.
-/

namespace JackStack

/-- The four kinds in the order in which a scope lists them. -/
def VarKind.all : List VarKind := [.static, .field, .argument, .local]

/-- The name of a kind. -/
def VarKind.text : VarKind → String
  | .static => "static"
  | .field => "field"
  | .argument => "argument"
  | .local => "local"

/-- A declared variable. -/
structure Variable where
  /-- The name it is used by. -/
  name : String
  /-- The name of its type. -/
  type : String
  /-- Its kind. -/
  kind : VarKind
  /-- Its number among the variables of its kind. -/
  index : UInt32
  deriving DecidableEq, Repr

/-- Variables arranged by name. -/
inductive NameTree where
  | leaf
  | node (left : NameTree) (entry : Variable) (right : NameTree)
  deriving Repr

namespace NameTree

/-- The variable of a name. -/
def find? (name : String) : NameTree → Option Variable
  | leaf => none
  | node left entry right =>
    if name = entry.name then some entry
    else if name < entry.name then left.find? name
    else right.find? name

/-- Adds a variable, unless there is one of its name. -/
def insert (v : Variable) : NameTree → NameTree
  | leaf => node leaf v leaf
  | node left entry right =>
    if v.name = entry.name then node left entry right
    else if v.name < entry.name then node (left.insert v) entry right
    else node left entry (right.insert v)

/-- A smaller name is looked for on the left. -/
theorem find?_node_left {name : String} {left right : NameTree} {entry : Variable}
    (hne : name ≠ entry.name) (hlt : name < entry.name) :
    (node left entry right).find? name = left.find? name := by
  rw [find?, if_neg hne, if_pos hlt]

/-- A larger name is looked for on the right. -/
theorem find?_node_right {name : String} {left right : NameTree} {entry : Variable}
    (hne : name ≠ entry.name) (hlt : ¬ name < entry.name) :
    (node left entry right).find? name = right.find? name := by
  rw [find?, if_neg hne, if_neg hlt]

/-- An added variable is found unless there is one of its name, and all others as before: it goes
where its name is looked for. -/
theorem find?_insert (t : NameTree) (v : Variable) (name : String) :
    (t.insert v).find? name = (t.find? name).or (if v.name = name then some v else none) := by
  induction t with
  | leaf =>
    rw [insert, find?, find?]
    by_cases hv : v.name = name
    · rw [if_pos hv.symm, if_pos hv]
      rfl
    · rw [if_neg (Ne.symm hv), if_neg hv]
      split <;> rfl
  | node left entry right ihl ihr =>
    by_cases hname : name = entry.name
    · have hfound : ∀ l r, (node l entry r).find? name = some entry := fun l r => if_pos hname
      rw [hfound, Option.some_or, insert]
      split
      · exact hfound _ _
      · split <;> exact hfound _ _
    · by_cases hv : v.name = name
      · have hne : ¬ v.name = entry.name := hv ▸ hname
        rw [insert, if_neg hne, hv]
        by_cases hlt : name < entry.name
        · rw [if_pos hlt, find?_node_left hname hlt, find?_node_left hname hlt, ihl, hv]
        · rw [if_neg hlt, find?_node_right hname hlt, find?_node_right hname hlt, ihr, hv]
      · simp only [if_neg hv, Option.or_none] at ihl ihr ⊢
        have hsides : ∀ l r, l.find? name = left.find? name → r.find? name = right.find? name →
            (node l entry r).find? name = (node left entry right).find? name := fun l r hl hr => by
          rw [find?, find?, hl, hr]
        rw [insert]
        split
        · rfl
        · split
          · exact hsides _ _ ihl rfl
          · exact hsides _ _ rfl ihr

end NameTree

/-- How many variables of each kind there are. -/
structure Tally where
  /-- Those of the kind `static`. -/
  statics : Nat := 0
  /-- Those of the kind `field`. -/
  fields : Nat := 0
  /-- Those of the kind `argument`. -/
  arguments : Nat := 0
  /-- Those of the kind `local`. -/
  locals : Nat := 0
  deriving Repr

namespace Tally

/-- The number of variables of a kind. -/
def count (t : Tally) : VarKind → Nat
  | .static => t.statics
  | .field => t.fields
  | .argument => t.arguments
  | .local => t.locals

/-- Counts one more variable of a kind. -/
def add (t : Tally) : VarKind → Tally
  | .static => { t with statics := t.statics + 1 }
  | .field => { t with fields := t.fields + 1 }
  | .argument => { t with arguments := t.arguments + 1 }
  | .local => { t with locals := t.locals + 1 }

/-- Only the count of the kind added goes up. -/
theorem count_add (t : Tally) (added kind : VarKind) :
    (t.add added).count kind = t.count kind + if added = kind then 1 else 0 := by
  cases added <;> cases kind <;> rfl

end Tally

/-- Variables arranged for looking them up. -/
structure Register where
  /-- The variables by name. -/
  tree : NameTree := .leaf
  /-- Their numbers by kind. -/
  tally : Tally := {}
  deriving Repr

namespace Register

/-- Adds a variable. -/
def add (r : Register) (v : Variable) : Register := ⟨r.tree.insert v, r.tally.add v.kind⟩

/-- The register of variables, the latest one first. -/
def ofLatest : List Variable → Register
  | [] => {}
  | v :: earlier => (ofLatest earlier).add v

/-- The register finds the first variable of a name. -/
theorem find?_ofLatest (latest : List Variable) (name : String) :
    (ofLatest latest).tree.find? name = latest.reverse.find? (·.name == name) := by
  induction latest with
  | nil => rfl
  | cons v earlier ih =>
    rw [List.reverse_cons, List.find?_append, ← ih, ofLatest, add, NameTree.find?_insert]
    by_cases h : v.name = name <;> simp [h]

/-- The register counts the variables of a kind. -/
theorem count_ofLatest (latest : List Variable) (kind : VarKind) :
    (ofLatest latest).tally.count kind = latest.reverse.countP (·.kind = kind) := by
  induction latest with
  | nil => cases kind <;> rfl
  | cons v earlier ih =>
    rw [List.reverse_cons, List.countP_append, ← ih, ofLatest, add, Tally.count_add]
    by_cases h : v.kind = kind <;> simp [h]

end Register

/-- A scope of variables. -/
structure Scope where
  /-- The accepted variables, the latest one first. -/
  latest : List Variable
  /-- The same variables, arranged for looking them up. -/
  register : Register
  registered : register = .ofLatest latest

namespace Scope

/-- A scope is determined by its variables, the latest first. -/
theorem eq_of_latest {s s' : Scope} (h : s.latest = s'.latest) : s = s' := by
  obtain ⟨latest, register, rfl⟩ := s
  obtain ⟨latest', register', rfl⟩ := s'
  cases h
  rfl

instance : DecidableEq Scope := fun s s' =>
  decidable_of_iff (s.latest = s'.latest) ⟨eq_of_latest, congrArg latest⟩

/-- The accepted variables, in the order of their declaration. -/
def members (s : Scope) : List Variable := s.latest.reverse

instance : Repr Scope := ⟨fun s => reprPrec s.members⟩

/-- The scope without variables. -/
def empty : Scope := ⟨[], {}, rfl⟩

/-- The scope with one more variable. -/
def push (s : Scope) (v : Variable) : Scope :=
  ⟨v :: s.latest, s.register.add v, by rw [s.registered, Register.ofLatest]⟩

@[simp] theorem members_empty : empty.members = [] := rfl

@[simp] theorem members_push (s : Scope) (v : Variable) :
    (s.push v).members = s.members ++ [v] := List.reverse_cons

/-- The variable of a name. -/
def find? (s : Scope) (name : String) : Option Variable := s.register.tree.find? name

/-- Looking up a name in the tree of names finds what is found among the variables. -/
theorem find?_eq (s : Scope) (name : String) :
    s.find? name = s.members.find? (·.name == name) := by
  rw [find?, s.registered, Register.find?_ofLatest, members]

/-- The number of variables of a kind, in the width of an operand. -/
def count (s : Scope) (kind : VarKind) : UInt32 := UInt32.ofNat (s.register.tally.count kind)

/-- The count of a kind is the number of its variables, in 32 bits. -/
theorem count_eq (s : Scope) (kind : VarKind) :
    s.count kind = UInt32.ofNat (s.members.countP (·.kind = kind)) := by
  rw [count, s.registered, Register.count_ofLatest, members]

/-- The number of variables. -/
def size (s : Scope) : Nat := s.latest.length

/-- There are no variables. -/
def isEmpty (s : Scope) : Bool := s.latest.isEmpty

/-- Declares a variable and gives its number; none when the name is taken. -/
def declare? (s : Scope) (kind : VarKind) (type name : String) : Option (UInt32 × Scope) :=
  match s.find? name with
  | some _ => none
  | none =>
    let index := s.count kind
    some (index, s.push ⟨name, type, kind, index⟩)

/-- A declaration is refused exactly when the name is taken. -/
theorem declare?_eq_none_iff (s : Scope) (kind : VarKind) (type name : String) :
    s.declare? kind type name = none ↔ (s.find? name).isSome := by
  unfold declare?
  split
  · next h => simp only [h, Option.isSome_some]
  · next h => simp only [h, Option.isSome_none, reduceCtorEq, Bool.false_eq_true]

/-- The variables by kind and, within a kind, in the order of their declaration. -/
def entries (s : Scope) : List Variable :=
  VarKind.all.flatMap fun kind => s.members.filter (·.kind = kind)

/-- One row of the table: four columns aligned to the right. -/
def row (name type kind index : String) : String :=
  Text.alignRight 10 name ++ " | " ++ Text.alignRight 8 type ++ " | " ++
    Text.alignRight 8 kind ++ " | " ++ Text.alignRight 3 index ++ "\n"

/-- The table of the variables, as the log shows it. -/
def table (s : Scope) : String :=
  let head := row "Name" "Type" "Kind" "#" ++ "".pushn '-' 38 ++ "\n"
  s.entries.foldl (fun text v => text ++ row v.name v.type v.kind.text (toString v.index.toNat)) head

end Scope

end JackStack
