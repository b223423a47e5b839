import JackStack.Proofs.Source.Spelling
import Mathlib.Data.String.Basic

/-!
# The order of texts is that of their bytes

Characters are compared by their code points, and the encoding keeps that order: of two characters
the smaller one has the smaller byte where their bytes first differ. So texts are ordered like their
bytes.
-/

namespace JackStack

/-- The numbers differ somewhere, and in the first place where they do the first one is smaller. -/
def Below : List Nat → List Nat → Prop
  | x :: xs, y :: ys => x < y ∨ x = y ∧ Below xs ys
  | _, _ => False

/-- The bytes of a code point. -/
def scalarBytes (v : Nat) : List Nat :=
  if v ≤ 0x7f then [v]
  else if v ≤ 0x7ff then [v / 64 % 0x20 + 0xc0, v % 0x40 + 0x80]
  else if v ≤ 0xffff then [v / 4096 % 0x10 + 0xe0, v / 64 % 0x40 + 0x80, v % 0x40 + 0x80]
  else [v / 262144 % 0x08 + 0xf0, v / 4096 % 0x40 + 0x80, v / 64 % 0x40 + 0x80, v % 0x40 + 0x80]

/-- The bytes of a character are those of its scalar value. -/
theorem utf8EncodeChar_eq (c : Char) :
    String.utf8EncodeChar c = (scalarBytes c.toNat).map UInt8.ofNat := by
  unfold String.utf8EncodeChar scalarBytes
  change (if c.toNat ≤ 0x7f then _ else if c.toNat ≤ 0x7ff then _ else
    if c.toNat ≤ 0xffff then _ else _) = _
  simp only [apply_ite (List.map UInt8.ofNat)]
  rfl

/-- The bytes of a scalar value fit a byte. -/
theorem scalarBytes_lt (v : Nat) : ∀ b ∈ scalarBytes v, b < 256 := by
  unfold scalarBytes
  split
  · simp only [List.mem_singleton, forall_eq]
    omega
  split
  · simp only [List.mem_cons, List.not_mem_nil, or_false, forall_eq_or_imp, forall_eq]
    omega
  split
  · simp only [List.mem_cons, List.not_mem_nil, or_false, forall_eq_or_imp, forall_eq]
    omega
  · simp only [List.mem_cons, List.not_mem_nil, or_false, forall_eq_or_imp, forall_eq]
    omega

/-- The bytes of scalar values compare as the values do: each has one to four bytes, and the first
of them tells how many there are. -/
theorem scalarBytes_below {v w : Nat} (h : v < w) (hw : w < 0x110000) :
    Below (scalarBytes v) (scalarBytes w) := by
  have hdigits : ∀ n : Nat, n / 64 / 64 = n / 4096 ∧ n / 4096 / 64 = n / 262144 := fun n =>
    ⟨Nat.div_div_eq_div_mul n 64 64, Nat.div_div_eq_div_mul n 4096 64⟩
  have hvd := hdigits v
  have hwd := hdigits w
  have htop : v / 262144 % 8 = v / 262144 ∧ w / 262144 % 8 = w / 262144 := by omega
  unfold scalarBytes
  split_ifs <;> simp only [Below] <;> omega

/-- The order that the bytes decide is kept whatever follows them. -/
theorem Below.lt {xs ys : List Nat} (h : Below xs ys) (hxs : ∀ x ∈ xs, x < 256)
    (hys : ∀ y ∈ ys, y < 256) (front back : List UInt8) :
    xs.map UInt8.ofNat ++ front < ys.map UInt8.ofNat ++ back := by
  induction xs generalizing ys with
  | nil => exact h.elim
  | cons x xs ih =>
    cases ys with
    | nil => exact h.elim
    | cons y ys =>
      obtain ⟨hx, hxs⟩ := List.forall_mem_cons.mp hxs
      obtain ⟨hy, hys⟩ := List.forall_mem_cons.mp hys
      apply List.cons_lt_cons_iff.mpr
      rcases h with hxy | ⟨heq, hrest⟩
      · left
        rwa [UInt8.lt_iff_toNat_lt, UInt8.toNat_ofNat_of_lt' hx, UInt8.toNat_ofNat_of_lt' hy]
      · exact .inr ⟨congrArg UInt8.ofNat heq, ih hrest hxs hys⟩

/-- A smaller character decides the order of the bytes, whatever follows. -/
theorem utf8EncodeChar_lt {c d : Char} (h : c < d) (front back : List UInt8) :
    String.utf8EncodeChar c ++ front < String.utf8EncodeChar d ++ back := by
  have hd : d.toNat < 0x110000 := by
    have hvalid : d.toNat.isValidChar := d.valid
    unfold Nat.isValidChar at hvalid
    omega
  rw [utf8EncodeChar_eq, utf8EncodeChar_eq]
  exact (scalarBytes_below h hd).lt (scalarBytes_lt _) (scalarBytes_lt _) front back

/-- A smaller text has smaller bytes. -/
theorem utf8_lt {s t : String} (h : s < t) : utf8 s < utf8 t := by
  rw [utf8_eq_flatMap, utf8_eq_flatMap]
  have hlist : List.Lex (· < ·) s.toList t.toList := h
  generalize s.toList = cs, t.toList = ds at hlist
  induction hlist with
  | @nil d ds =>
    obtain ⟨b, bs, hd⟩ := List.exists_cons_of_ne_nil (String.utf8EncodeChar_ne_nil (c := d))
    rw [List.flatMap_cons, hd]
    exact List.nil_lt_cons _ _
  | rel hcd => exact utf8EncodeChar_lt hcd _ _
  | @cons c cs ds _ ih => exact List.append_left_lt ih

end JackStack
