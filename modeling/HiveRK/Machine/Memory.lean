import Mathlib.Algebra.Group.Int.Defs
import Mathlib.Algebra.GroupWithZero.Nat
import Mathlib.Data.List.Basic
import Mathlib.Logic.Function.Basic
import Mathlib.Tactic.Common

/-!
# Byte-addressed memory with 32-bit addresses

Machine words are natural numbers reduced modulo `2 ^ 32`. A memory maps every
address to a byte; an access at a larger number wraps, as the hardware's address
bus does. `load n` and `store n` are the little-endian accesses of `n` bytes, so
one lemma about each covers all widths.

The frame lemmas speak about single cells. `AgreeOn` and `WritesWithin` are the
two forms in which later proofs use them: a range that was kept, and a range
outside of which nothing changed.
-/

namespace Machine

/-- The value a 32-bit register holds after a computation with result `n`. -/
def u32 (n : Nat) : Nat := n % 2 ^ 32

theorem u32_lt (n : Nat) : u32 n < 2 ^ 32 := Nat.mod_lt _ (by decide)

theorem u32_of_lt {n : Nat} (h : n < 2 ^ 32) : u32 n = n := Nat.mod_eq_of_lt h

@[simp] theorem u32_zero : u32 0 = 0 := rfl

@[simp] theorem u32_u32 (n : Nat) : u32 (u32 n) = u32 n := Nat.mod_mod _ _

abbrev Byte := BitVec 8

/-- The contents of every byte; only addresses below `2 ^ 32` are ever accessed. -/
abbrev Mem := Nat → Byte

/-- The `n`-byte little-endian number at `a`. -/
def load : Nat → Mem → Nat → Nat
  | 0, _, _ => 0
  | n + 1, m, a => (m (u32 a)).toNat + 256 * load n m (a + 1)

/-- Write the low `n` bytes of `v` at `a`, lowest byte first. -/
def store : Nat → Mem → Nat → Nat → Mem
  | 0, m, _, _ => m
  | n + 1, m, a, v =>
      store n (Function.update m (u32 a) (BitVec.ofNat 8 v)) (a + 1) (v / 256)

abbrev load8 := load 1
abbrev load16 := load 2
abbrev load32 := load 4
abbrev store8 := store 1
abbrev store16 := store 2
abbrev store32 := store 4

/-- Copy a byte string to `a`, as a byte loop does. -/
def storeBytes : Mem → Nat → List Byte → Mem
  | m, _, [] => m
  | m, a, b :: bs => storeBytes (Function.update m (u32 a) b) (a + 1) bs

/-- The `n` bytes from `a` on. -/
def loadBytes (m : Mem) (a n : Nat) : List Byte :=
  (List.range n).map fun i => m (u32 (a + i))

@[simp] theorem loadBytes_length (m : Mem) (a n : Nat) : (loadBytes m a n).length = n := by
  simp [loadBytes]

theorem getElem_loadBytes {m : Mem} {a n i : Nat} (h : i < (loadBytes m a n).length) :
    (loadBytes m a n)[i] = m (u32 (a + i)) := by
  simp [loadBytes]

/-! ### Values read back -/

theorem load_lt (n : Nat) (m : Mem) (a : Nat) : load n m a < 256 ^ n := by
  induction n generalizing a with
  | zero => simp [load]
  | succ n ih =>
      have low := (m (u32 a)).isLt
      have high := ih (a + 1)
      rw [load, Nat.pow_succ]
      omega

theorem load32_lt (m : Mem) (a : Nat) : load32 m a < 2 ^ 32 := load_lt 4 m a

theorem load8_eq (m : Mem) (a : Nat) : load8 m a = (m (u32 a)).toNat := rfl

/-- A load depends only on the cells it reads. -/
theorem load_congr {m m' : Mem} {n a b : Nat}
    (h : ∀ i < n, m' (u32 (b + i)) = m (u32 (a + i))) : load n m' b = load n m a := by
  induction n generalizing a b with
  | zero => rfl
  | succ n ih =>
      have first : m' (u32 b) = m (u32 a) := h 0 (Nat.succ_pos n)
      have rest : load n m' (b + 1) = load n m (a + 1) := by
        apply ih
        intro i hi
        simpa only [Nat.add_assoc, Nat.add_comm 1] using h (i + 1) (by omega)
      rw [load, load, first, rest]

/-- A store changes no cell it does not name. -/
theorem store_of_ne {n : Nat} {m : Mem} {a v x : Nat} (h : ∀ i < n, x ≠ u32 (a + i)) :
    store n m a v x = m x := by
  induction n generalizing m a v with
  | zero => rfl
  | succ n ih =>
      have first : x ≠ u32 a := h 0 (Nat.succ_pos n)
      have rest : ∀ i < n, x ≠ u32 (a + 1 + i) := by
        intro i hi
        simpa only [Nat.add_assoc, Nat.add_comm 1] using h (i + 1) (by omega)
      rw [store, ih rest, Function.update_of_ne first]

/-- A store that does not wrap changes only the cells from `a` to `a + n`. -/
theorem store_outside {n : Nat} {m : Mem} {a v x : Nat} (fits : a + n ≤ 2 ^ 32)
    (h : x < a ∨ a + n ≤ x) : store n m a v x = m x := by
  apply store_of_ne
  intro i hi
  rw [u32_of_lt (by omega)]
  omega

/-- What was stored is what a load of the same width reads, also across the last address. -/
theorem load_store {n : Nat} (m : Mem) (a v : Nat) (short : n ≤ 2 ^ 32) :
    load n (store n m a v) a = v % 256 ^ n := by
  induction n generalizing m a v with
  | zero => simp [load, Nat.mod_one]
  | succ n ih =>
      have low : store n (Function.update m (u32 a) (BitVec.ofNat 8 v)) (a + 1) (v / 256) (u32 a)
          = BitVec.ofNat 8 v := by
        rw [store_of_ne, Function.update_self]
        intro i hi
        rw [u32, u32]
        omega
      have high := ih (Function.update m (u32 a) (BitVec.ofNat 8 v)) (a + 1) (v / 256) (by omega)
      have wide : v % 256 ^ (n + 1) = v % 256 + 256 * (v / 256 % 256 ^ n) := by
        rw [Nat.pow_succ, Nat.mul_comm (256 ^ n), Nat.mod_mul]
      rw [store, load, low, high, wide]
      rfl

theorem load_store_same {n : Nat} (m : Mem) {a : Nat} (v : Nat) (fits : a + n ≤ 2 ^ 32) :
    load n (store n m a v) a = v % 256 ^ n := load_store m a v (by omega)

theorem load_store_self {n : Nat} (m : Mem) {a v : Nat} (fits : a + n ≤ 2 ^ 32)
    (hv : v < 256 ^ n) : load n (store n m a v) a = v := by
  rw [load_store_same m v fits, Nat.mod_eq_of_lt hv]

/-- Accesses to disjoint ranges commute in the only sense needed: the load is unaffected. -/
theorem load_store_of_disjoint {n k : Nat} (m : Mem) {a b v : Nat} (ha : a + n ≤ 2 ^ 32)
    (hb : b + k ≤ 2 ^ 32) (h : a + n ≤ b ∨ b + k ≤ a) :
    load n (store k m b v) a = load n m a := by
  apply load_congr
  intro i hi
  apply store_outside hb
  rw [u32_of_lt (by omega)]
  omega

/-- Storing what is there changes nothing. -/
theorem store_load (n : Nat) (m : Mem) (a : Nat) : store n m a (load n m a) = m := by
  induction n generalizing a with
  | zero => rfl
  | succ n ih =>
      have low := (m (u32 a)).isLt
      have byte : BitVec.ofNat 8 ((m (u32 a)).toNat + 256 * load n m (a + 1)) = m (u32 a) := by
        apply BitVec.eq_of_toNat_eq
        rw [BitVec.toNat_ofNat]
        omega
      have rest : ((m (u32 a)).toNat + 256 * load n m (a + 1)) / 256 = load n m (a + 1) := by omega
      rw [load, store, byte, rest, Function.update_eq_self, ih]

/-- Equal loads have read equal cells. -/
theorem eq_of_load_eq {n : Nat} {m m' : Mem} {a i : Nat} (h : load n m a = load n m' a)
    (hi : i < n) : m (u32 (a + i)) = m' (u32 (a + i)) := by
  induction n generalizing a i with
  | zero => omega
  | succ n ih =>
      have low := (m (u32 a)).isLt
      have low' := (m' (u32 a)).isLt
      rw [load, load] at h
      cases i with
      | zero => exact BitVec.eq_of_toNat_eq (by rw [Nat.add_zero]; omega)
      | succ i =>
          have rest := ih (show load n m (a + 1) = load n m' (a + 1) by omega)
            (show i < n by omega)
          rwa [Nat.add_assoc, Nat.add_comm 1] at rest

/-! ### The cells of an access -/

/-- `x` is one of the `n` cells from `a` on. Behind the last address comes the first. -/
def Cells (a n x : Nat) : Prop := ∃ i < n, x = u32 (a + i)

instance (a n x : Nat) : Decidable (Cells a n x) :=
  inferInstanceAs (Decidable (∃ i < n, x = u32 (a + i)))

theorem Cells.mono {a n k x : Nat} (h : Cells a n x) (more : n ≤ k) : Cells a k x := by
  obtain ⟨i, hi, rfl⟩ := h
  exact ⟨i, by omega, rfl⟩

theorem cells_iff {a n x : Nat} (fits : a + n ≤ 2 ^ 32) : Cells a n x ↔ a ≤ x ∧ x < a + n := by
  constructor
  · rintro ⟨i, hi, rfl⟩
    rw [u32_of_lt (by omega)]
    omega
  · rintro ⟨lo, hi⟩
    refine ⟨x - a, by omega, ?_⟩
    rw [u32_of_lt (by omega)]
    omega

/-- The cells of two adjacent accesses. -/
theorem cells_add {a n k x : Nat} : Cells a (n + k) x ↔ Cells a n x ∨ Cells (a + n) k x := by
  constructor
  · rintro ⟨i, hi, rfl⟩
    by_cases first : i < n
    · exact .inl ⟨i, first, rfl⟩
    · exact .inr ⟨i - n, by omega, by rw [show a + n + (i - n) = a + i by omega]⟩
  · rintro (⟨i, hi, rfl⟩ | ⟨i, hi, rfl⟩)
    · exact ⟨i, by omega, rfl⟩
    · exact ⟨n + i, by omega, by rw [Nat.add_assoc]⟩

theorem store_off {n : Nat} {m : Mem} {a v x : Nat} (h : ¬ Cells a n x) : store n m a v x = m x :=
  store_of_ne fun i hi same => h ⟨i, hi, same⟩

/-- A stored 0 clears every cell. -/
theorem store_zero {n : Nat} {m : Mem} {a x : Nat} (h : Cells a n x) : store n m a 0 x = 0 := by
  induction n generalizing m a with
  | zero =>
      obtain ⟨i, hi, _⟩ := h
      omega
  | succ n ih =>
      rw [store]
      by_cases later : Cells (a + 1) n x
      · exact ih later
      · rw [Nat.add_comm, cells_add] at h
        obtain ⟨i, hi, rfl⟩ := h.resolve_right later
        obtain rfl : i = 0 := by omega
        rw [store_off later, Nat.add_zero, Function.update_self]
        rfl

/-! ### Byte strings -/

theorem storeBytes_outside {m : Mem} {a x : Nat} {bs : List Byte} (fits : a + bs.length ≤ 2 ^ 32)
    (h : x < a ∨ a + bs.length ≤ x) : storeBytes m a bs x = m x := by
  induction bs generalizing m a with
  | nil => rfl
  | cons b bs ih =>
      rw [List.length_cons] at fits h
      rw [storeBytes, ih (by omega) (by omega), Function.update_of_ne]
      rw [u32_of_lt (by omega)]
      omega

theorem storeBytes_inside {m : Mem} {a i : Nat} {bs : List Byte} (fits : a + bs.length ≤ 2 ^ 32)
    (hi : i < bs.length) : storeBytes m a bs (a + i) = bs[i] := by
  induction bs generalizing m a i with
  | nil => simp at hi
  | cons b bs ih =>
      rw [List.length_cons] at fits hi
      cases i with
      | zero =>
          rw [storeBytes, storeBytes_outside (by omega) (.inl (by omega)), Nat.add_zero,
            u32_of_lt (by omega), Function.update_self]
          rfl
      | succ i =>
          rw [storeBytes, ← Nat.add_assoc, Nat.add_right_comm, ih (by omega) (by omega)]
          rfl

theorem loadBytes_store_of_disjoint {n k : Nat} (m : Mem) {a b v : Nat} (ha : a + n ≤ 2 ^ 32)
    (hb : b + k ≤ 2 ^ 32) (h : a + n ≤ b ∨ b + k ≤ a) :
    loadBytes (store k m b v) a n = loadBytes m a n := by
  refine List.map_congr_left fun i hi => store_outside hb ?_
  have hin := List.mem_range.mp hi
  rw [u32_of_lt (by omega)]
  omega

theorem loadBytes_storeBytes (m : Mem) {a : Nat} {bs : List Byte} (fits : a + bs.length ≤ 2 ^ 32) :
    loadBytes (storeBytes m a bs) a bs.length = bs := by
  apply List.ext_getElem (by simp)
  intro i _ hi
  rw [getElem_loadBytes, u32_of_lt (by omega), storeBytes_inside fits hi]

/-- Two memories have the same bytes from `a` exactly when they agree there. -/
theorem loadBytes_eq_iff {m : Mem} {a : Nat} {bs : List Byte} (fits : a + bs.length ≤ 2 ^ 32) :
    loadBytes m a bs.length = bs ↔ ∀ (i : Nat) (hi : i < bs.length), m (a + i) = bs[i] := by
  constructor
  · intro h i hi
    have hl : i < (loadBytes m a bs.length).length := by simpa using hi
    have read := getElem_loadBytes hl
    simp only [h] at read
    rw [read, u32_of_lt (by omega)]
  · intro h
    apply List.ext_getElem (by simp)
    intro i _ hi
    rw [getElem_loadBytes, u32_of_lt (by omega), h i hi]

/-! ### Ranges kept and ranges written -/

/-- `m'` has the bytes of `m` in the `n` cells from `a` on. -/
def AgreeOn (m m' : Mem) (a n : Nat) : Prop :=
  ∀ x, a ≤ x → x < a + n → m' x = m x

/-- `m'` differs from `m` at most in the `n` cells from `a` on. -/
def WritesWithin (m m' : Mem) (a n : Nat) : Prop :=
  ∀ x, x < a ∨ a + n ≤ x → m' x = m x

namespace AgreeOn

variable {m m' m'' : Mem} {a n : Nat}

theorem refl (m : Mem) (a n : Nat) : AgreeOn m m a n := fun _ _ _ => rfl

theorem trans (h : AgreeOn m m' a n) (h' : AgreeOn m' m'' a n) : AgreeOn m m'' a n :=
  fun x lo hi => (h' x lo hi).trans (h x lo hi)

theorem mono {b k : Nat} (h : AgreeOn m m' a n) (lo : a ≤ b) (hi : b + k ≤ a + n) :
    AgreeOn m m' b k :=
  fun x hx hx' => h x (by omega) (by omega)

theorem loadBytes {b k : Nat} (h : AgreeOn m m' a n) (fits : b + k ≤ 2 ^ 32) (lo : a ≤ b)
    (hi : b + k ≤ a + n) : Machine.loadBytes m' b k = Machine.loadBytes m b k := by
  refine List.map_congr_left fun i hi' => ?_
  have hik := List.mem_range.mp hi'
  rw [u32_of_lt (by omega)]
  exact h (b + i) (by omega) (by omega)

/-- Loads inside an agreed range agree. -/
theorem load {b k : Nat} (h : AgreeOn m m' a n) (fits : b + k ≤ 2 ^ 32) (lo : a ≤ b)
    (hi : b + k ≤ a + n) : Machine.load k m' b = Machine.load k m b := by
  apply load_congr
  intro i hi'
  rw [u32_of_lt (by omega)]
  exact h (b + i) (by omega) (by omega)

end AgreeOn

namespace WritesWithin

variable {m m' m'' : Mem} {a n : Nat}

theorem refl (m : Mem) (a n : Nat) : WritesWithin m m a n := fun _ _ => rfl

theorem trans (h : WritesWithin m m' a n) (h' : WritesWithin m' m'' a n) :
    WritesWithin m m'' a n :=
  fun x hx => (h' x hx).trans (h x hx)

theorem mono {b k : Nat} (h : WritesWithin m m' a n) (lo : b ≤ a) (hi : a + n ≤ b + k) :
    WritesWithin m m' b k :=
  fun x hx => h x (by omega)

theorem store {k b v : Nat} (fits : b + k ≤ 2 ^ 32) (lo : a ≤ b) (hi : b + k ≤ a + n) :
    WritesWithin m (Machine.store k m b v) a n :=
  fun x hx => store_outside fits (by omega)

/-- One more store inside the range. -/
theorem andStore {k b v : Nat} (h : WritesWithin m m' a n) (fits : b + k ≤ 2 ^ 32) (lo : a ≤ b)
    (hi : b + k ≤ a + n) : WritesWithin m (Machine.store k m' b v) a n :=
  h.trans (.store fits lo hi)

theorem storeBytes {bs : List Byte} {b : Nat} (fits : b + bs.length ≤ 2 ^ 32) (lo : a ≤ b)
    (hi : b + bs.length ≤ a + n) : WritesWithin m (Machine.storeBytes m b bs) a n :=
  fun x hx => storeBytes_outside fits (by omega)

theorem agreeOn {b k : Nat} (h : WritesWithin m m' a n) (off : b + k ≤ a ∨ a + n ≤ b) :
    AgreeOn m m' b k :=
  fun x lo hi => h x (by omega)

/-- Loads outside a written range are unaffected. -/
theorem load {b k : Nat} (h : WritesWithin m m' a n) (fits : b + k ≤ 2 ^ 32)
    (off : b + k ≤ a ∨ a + n ≤ b) : Machine.load k m' b = Machine.load k m b :=
  (h.agreeOn off).load fits (Nat.le_refl _) (Nat.le_refl _)

end WritesWithin

/-- `m` with the `n` cells from `a` on taken from `m'`. -/
def patched (m m' : Mem) (a n : Nat) : Mem := fun x => if a ≤ x ∧ x < a + n then m' x else m x

section Patched

variable {m m' : Mem} {a b n : Nat}

theorem patched_within (m m' : Mem) (a n : Nat) : WritesWithin m (patched m m' a n) a n :=
  fun _ off => if_neg (by omega)

/-- Where nothing else differs, that is `m'`. -/
theorem WritesWithin.patched_eq (h : WritesWithin m m' a n) : patched m m' a n = m' := by
  funext x
  rw [patched]
  split_ifs with inside
  · rfl
  · exact (h x (by omega)).symm

/-- Bytes that are stored in front of these cells. -/
theorem storeBytes_patched {bytes : List Byte} (before : b + bytes.length ≤ a)
    (fits : a + n ≤ 2 ^ 32) :
    storeBytes (patched m m' a n) b bytes = patched (storeBytes m b bytes) m' a n := by
  funext x
  by_cases stored : b ≤ x ∧ x < b + bytes.length
  · obtain ⟨i, rfl⟩ : ∃ i, x = b + i := ⟨x - b, by omega⟩
    rw [patched, if_neg (by omega), storeBytes_inside (by omega) (by omega),
      storeBytes_inside (by omega) (by omega)]
  · rw [storeBytes_outside (by omega) (by omega), patched, patched,
      storeBytes_outside (by omega) (by omega)]

end Patched

/-- `m'` differs from `m` at most in the cells with `P`. -/
def WritesOnly (P : Nat → Prop) (m m' : Mem) : Prop :=
  ∀ x, ¬ P x → m' x = m x

namespace WritesOnly

variable {P Q : Nat → Prop} {m m' m'' : Mem}

theorem refl (P : Nat → Prop) (m : Mem) : WritesOnly P m m := fun _ _ => rfl

theorem trans (h : WritesOnly P m m') (h' : WritesOnly P m' m'') : WritesOnly P m m'' :=
  fun x hx => (h' x hx).trans (h x hx)

theorem mono (h : WritesOnly P m m') (sub : ∀ x, P x → Q x) : WritesOnly Q m m' :=
  fun x hx => h x fun px => hx (sub x px)

theorem agreeOn {a n : Nat} (h : WritesOnly P m m')
    (off : ∀ x, a ≤ x → x < a + n → ¬ P x) : AgreeOn m m' a n :=
  fun x lo hi => h x (off x lo hi)

end WritesOnly

theorem WritesWithin.only {P : Nat → Prop} {m m' : Mem} {a n : Nat} (h : WritesWithin m m' a n)
    (inside : ∀ x, a ≤ x → x < a + n → P x) : WritesOnly P m m' :=
  fun x hx => h x (by
    by_contra within
    exact hx (inside x (by omega) (by omega)))

end Machine
