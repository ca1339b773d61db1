import HiveRK.Machine.Memory

/-!
# Records in memory

`BytesAt m a bs` says that the byte string `bs` lies in memory from `a` on. A record is the
concatenation of its fields, so `bytesAt_append` takes it apart, and `BytesAt.load` reads the
field that is a number.
-/

namespace Machine

/-- The `n` low bytes of `v`, lowest first. -/
def littleEndian : Nat → Nat → List Byte
  | 0, _ => []
  | n + 1, v => BitVec.ofNat 8 v :: littleEndian n (v / 256)

@[simp] theorem length_littleEndian (n v : Nat) : (littleEndian n v).length = n := by
  induction n generalizing v with
  | zero => rfl
  | succ n ih => rw [littleEndian, List.length_cons, ih]

def BytesAt (m : Mem) (a : Nat) (bs : List Byte) : Prop := loadBytes m a bs.length = bs

instance (m : Mem) (a : Nat) (bs : List Byte) : Decidable (BytesAt m a bs) :=
  inferInstanceAs (Decidable (loadBytes m a bs.length = bs))

theorem loadBytes_succ (m : Mem) (a n : Nat) :
    loadBytes m a (n + 1) = m (u32 a) :: loadBytes m (a + 1) n := by
  simp only [loadBytes, List.range_succ_eq_map, List.map_cons, List.map_map, Nat.add_zero]
  refine congrArg _ (List.map_congr_left fun i _ => ?_)
  simp only [Function.comp_apply, Nat.succ_eq_add_one]
  rw [Nat.add_assoc, Nat.add_comm 1]

theorem bytesAt_nil (m : Mem) (a : Nat) : BytesAt m a [] := rfl

theorem bytesAt_cons {m : Mem} {a : Nat} {b : Byte} {bs : List Byte} :
    BytesAt m a (b :: bs) ↔ m (u32 a) = b ∧ BytesAt m (a + 1) bs := by
  rw [BytesAt, List.length_cons, loadBytes_succ, List.cons.injEq]
  exact Iff.rfl

theorem bytesAt_append {m : Mem} {a : Nat} {bs cs : List Byte} :
    BytesAt m a (bs ++ cs) ↔ BytesAt m a bs ∧ BytesAt m (a + bs.length) cs := by
  induction bs generalizing a with
  | nil => exact (and_iff_right (bytesAt_nil m a)).symm
  | cons b bs ih =>
      rw [List.cons_append, bytesAt_cons, bytesAt_cons, ih, and_assoc, List.length_cons,
        Nat.add_assoc, Nat.add_comm 1]

/-- The number in a field. -/
theorem BytesAt.load {m : Mem} {a n v : Nat} (h : BytesAt m a (littleEndian n v))
    (fits : v < 256 ^ n) : load n m a = v := by
  induction n generalizing a v with
  | zero =>
      rw [Nat.pow_zero] at fits
      rw [Machine.load]
      omega
  | succ n ih =>
      obtain ⟨first, rest⟩ := bytesAt_cons.mp h
      rw [Nat.pow_succ] at fits
      rw [Machine.load, first, ih rest (by omega), BitVec.toNat_ofNat]
      omega

end Machine
