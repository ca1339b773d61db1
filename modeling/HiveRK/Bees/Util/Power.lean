import HiveRK.Bees.Util.FixedWidth
import Mathlib.Data.Nat.Prime.Basic

/-!
# Powers

The loop of `pow` adds the base to itself, so for an exponent from 1 on it doubles the base
once less than the exponent says. This is the power in a few cases only, which
`doubling_modEq_iff` lists.
-/

namespace HiveRK.Util

open Machine ValueType

section Doubling

variable {w b c d e : Nat}

theorem not_doubling_odd (pos : 0 < w) (hd : 0 < d) (odd : Odd b) :
    ¬ b * 2 ^ d ≡ b ^ (d + 1) [MOD 2 ^ w] := by
  intro same
  have parity : b * 2 ^ d % 2 = b ^ (d + 1) % 2 :=
    same.of_dvd (dvd_pow_self 2 (Nat.ne_of_gt pos))
  have even : b * 2 ^ d % 2 = 0 :=
    Nat.mod_eq_zero_of_dvd (Dvd.dvd.mul_left (dvd_pow_self 2 (Nat.ne_of_gt hd)) b)
  rw [even, Nat.odd_iff.mp odd.pow] at parity
  exact Nat.zero_ne_one parity

/-- For an even base the two differ by a product. -/
theorem doubling_even_iff (some : 0 < c) :
    2 * c * 2 ^ d ≡ (2 * c) ^ (d + 1) [MOD 2 ^ w] ↔ 2 ^ w ∣ 2 ^ (d + 1) * c * (c ^ d - 1) := by
  have left : 2 * c * 2 ^ d = 2 ^ (d + 1) * c := by
    rw [Nat.pow_succ]
    ring
  have right : (2 * c) ^ (d + 1) = 2 ^ (d + 1) * c * c ^ d := by
    rw [Nat.mul_pow, Nat.pow_succ c]
    ring
  have one : 1 ≤ c ^ d := Nat.one_le_pow d c some
  rw [left, right, Nat.modEq_iff_dvd' (Nat.le_mul_of_pos_right _ one), Nat.mul_sub_one]

theorem odd_dvd_iff {x y : Nat} (odd : Odd y) : 2 ^ w ∣ x * y ↔ 2 ^ w ∣ x :=
  Nat.Coprime.dvd_mul_right (odd.coprime_two_left.pow_left w)

/-- When doubling is raising to a power. A base that 4 divides does so where both are 0, twice
an odd number where the odd one has the power 1, and an odd base never. -/
theorem doubling_modEq_iff (pos : 0 < w) (two : 2 ≤ e) :
    b * 2 ^ (e - 1) ≡ b ^ e [MOD 2 ^ w] ↔
      b % 4 = 0 ∧ 2 ^ w ∣ b * 2 ^ (e - 1) ∨
        b % 4 = 2 ∧ 2 ^ w ∣ 2 ^ e * ((b / 2) ^ (e - 1) - 1) := by
  obtain ⟨d, rfl⟩ : ∃ d, e = d + 1 := ⟨e - 1, by omega⟩
  rw [Nat.add_sub_cancel]
  by_cases odd : b % 2 = 1
  · refine iff_of_false (not_doubling_odd pos (by omega) (Nat.odd_iff.mpr odd)) ?_
    omega
  · obtain ⟨c, rfl⟩ : ∃ c, b = 2 * c := ⟨b / 2, by omega⟩
    by_cases none : c = 0
    · subst none
      refine iff_of_true ?_ (.inl ⟨rfl, ?_⟩)
      · rw [Nat.mul_zero, Nat.zero_mul, Nat.zero_pow (Nat.succ_pos d)]
      · rw [Nat.mul_zero, Nat.zero_mul]
        exact Nat.dvd_zero _
    · have some : 0 < c := Nat.pos_of_ne_zero none
      rw [doubling_even_iff some, Nat.mul_div_cancel_left c (by decide)]
      by_cases twice : c % 2 = 1
      · have mod : 2 * c % 4 = 2 := by omega
        rw [Nat.mul_right_comm, odd_dvd_iff (Nat.odd_iff.mpr twice), mod]
        simp
      · have mod : 2 * c % 4 = 0 := by omega
        have even : Even c := Nat.even_iff.mpr (by omega)
        have odd : Odd (c ^ d - 1) :=
          Nat.Even.sub_odd (Nat.one_le_pow d c some) (even.pow_of_ne_zero (by omega)) odd_one
        rw [odd_dvd_iff odd, mod, show 2 * c * 2 ^ d = 2 ^ (d + 1) * c by rw [Nat.pow_succ]; ring]
        simp

end Doubling

section Loop

variable {t : ValueType} {num1 : Nat} {m : Mem}

/-- `*num1 += *num1`. -/
def double (t : ValueType) (num1 : Nat) (m : Mem) : Mem :=
  store t.bytes m num1 (load t.bytes m num1 + load t.bytes m num1)

theorem pow_bytes (t : ValueType) : 256 ^ t.bytes = 2 ^ t.width := by
  cases t with
  | U32 | I32 | U16 | I16 | U8 | I8 => rfl

theorem base_lt (t : ValueType) (m : Mem) (num1 : Nat) : load t.bytes m num1 < 2 ^ t.width :=
  pow_bytes t ▸ load_lt t.bytes m num1

/-- Every iteration doubles the base. -/
theorem load_double (r : Nat) : load t.bytes ((double t num1)^[r] m) num1 =
    load t.bytes m num1 * 2 ^ r % 2 ^ t.width := by
  induction r with
  | zero =>
      rw [Nat.pow_zero, Nat.mul_one]
      exact (Nat.mod_eq_of_lt (base_lt t m num1)).symm
  | succ r ih =>
      have short : t.bytes ≤ 2 ^ 32 := by
        cases t with
        | U32 | I32 | U16 | I16 | U8 | I8 => decide
      rw [Function.iterate_succ_apply', double, load_store _ _ _ short, pow_bytes, ih,
        ← Nat.add_mod, ← Nat.mul_two, Nat.pow_succ, Nat.mul_assoc]

/-- The loop runs until `s` is the limit, if the type has all numbers up to it. -/
theorem powLoop_eq {limit i r fuel : Nat} (left : i + r = limit)
    (fits : ∀ j ≤ limit, t.convert j = j) (enough : r < fuel) (iterations : Nat) :
    powLoop t num1 limit fuel i m iterations =
      .ok ((double t num1)^[r] m, iterations + r) := by
  induction fuel generalizing i r m iterations with
  | zero => exact absurd enough (Nat.not_lt_zero r)
  | succ fuel ih =>
      rw [powLoop]
      cases r with
      | zero => rw [if_neg (by omega), Nat.add_zero, Function.iterate_zero, id]
      | succ r =>
          have next : t.convert ((i : Int) + 1) = (i + 1 : Nat) := fits (i + 1) (by omega)
          rw [if_pos (by omega), next, Function.iterate_succ_apply]
          have rest := ih (m := double t num1 m) (i := i + 1) (r := r) (by omega) (by omega)
            (iterations + 1)
          rw [Nat.add_assoc, Nat.add_comm 1] at rest
          exact rest

end Loop

section Command

variable {t : ValueType} {m : Mem} {num1 e fuel : Nat} {n : Int}

theorem ofCode_code (t : ValueType) : ofCode t.code = some t := by
  cases t with
  | U32 | I32 | U16 | I16 | U8 | I8 => rfl

/-- A number up to a value of the type is one, too. -/
theorem convert_le {j : Int} (low : 0 ≤ j) (high : j ≤ t.convert n) : t.convert j = j := by
  cases t with
  | U32 =>
      have less := Int.emod_lt_of_pos n (show (0 : Int) < 4294967296 by decide)
      exact Int.emod_eq_of_lt low (Int.lt_of_le_of_lt high less)
  | U16 =>
      have less := Int.emod_lt_of_pos n (show (0 : Int) < 65536 by decide)
      exact Int.emod_eq_of_lt low (Int.lt_of_le_of_lt high less)
  | U8 =>
      have less := Int.emod_lt_of_pos n (show (0 : Int) < 256 by decide)
      exact Int.emod_eq_of_lt low (Int.lt_of_le_of_lt high less)
  | I32 =>
      rw [convert_I32] at high ⊢
      omega
  | I16 =>
      rw [convert_I16] at high ⊢
      omega
  | I8 =>
      rw [convert_I8] at high ⊢
      omega

/-- The number of doublings for an exponent. The unsigned `num2-1` of the exponent 0 wraps. -/
def rounds (t : ValueType) (e : Nat) : Nat := if e = 0 ∧ t = U32 then 2 ^ 32 - 1 else e - 1

/-- Every type but one has its values in an `int`. -/
theorem convert_lt (narrow : t ≠ U32) (n : Int) : t.convert n < 2147483648 := by
  cases t with
  | U32 => exact absurd rfl narrow
  | U16 =>
      show n % 65536 < 2147483648
      omega
  | U8 =>
      show n % 256 < 2147483648
      omega
  | I32 => exact (convert_I32_range n).2
  | I16 =>
      rw [convert_I16]
      omega
  | I8 =>
      rw [convert_I8]
      omega

theorem promoted_eq (narrow : t ≠ U32) : t.promoted = I32 := by
  cases t with
  | U32 => exact absurd rfl narrow
  | I32 | U16 | I16 | U8 | I8 => rfl

/-- Unless the exponent is an `int` 0, `num2-1` is the number of rounds. -/
theorem limit_eq (value : t.convert n = e) (loops : e ≠ 0 ∨ t = U32) :
    t.promoted.convert ((e : Int) - 1) = rounds t e := by
  by_cases wraps : e = 0 ∧ t = U32
  · rw [rounds, if_pos wraps, wraps.1, wraps.2]
    rfl
  · have pos : 1 ≤ e := Nat.pos_of_ne_zero fun zero =>
      wraps ⟨zero, loops.resolve_left (not_not.mpr zero)⟩
    rw [rounds, if_neg wraps, Nat.cast_sub pos]
    by_cases word : t = U32
    · subst word
      have whole : U32.convert ((e : Int) - 1) = (e : Int) - 1 :=
        convert_le (n := n) (by omega) (by omega)
      rw [show U32.promoted = U32 from rfl, whole]
      omega
    · have less := convert_lt word n
      rw [promoted_eq word, convert_I32]
      omega

theorem rounds_fits (value : t.convert n = e) :
    ∀ j ≤ rounds t e, t.convert j = j := by
  intro j hj
  rw [rounds] at hj
  split_ifs at hj with wraps
  · rw [wraps.2]
    exact Int.emod_eq_of_lt (by omega) (show (j : Int) < 4294967296 by omega)
  · by_cases zero : e = 0
    · obtain rfl : j = 0 := by omega
      exact convert_le (n := n) (Int.le_refl 0) (by omega)
    · exact convert_le (n := n) (by omega) (by omega)

theorem pow_eq (value : t.convert n = e) (enough : rounds t e < fuel) :
    pow fuel m t.code num1 n = .ok ((double t num1)^[rounds t e] m, rounds t e) := by
  have form : pow fuel m t.code num1 n =
      powLoop t num1 (t.promoted.convert ((e : Int) - 1)) fuel (0 : Nat) m 0 := by
    rw [pow, ofCode_code]
    simp only [value, Int.not_lt.mpr (Int.natCast_nonneg e), if_false]
    rfl
  rw [form]
  by_cases loops : e ≠ 0 ∨ t = U32
  · rw [limit_eq value loops, powLoop_eq (Nat.zero_add _) (rounds_fits value) enough,
      Nat.zero_add]
  · obtain ⟨zero, narrow⟩ := not_or.mp loops
    obtain rfl := not_not.mp zero
    have limit : t.promoted.convert (((0 : Nat) : Int) - 1) = -1 := by
      rw [promoted_eq narrow]
      rfl
    obtain ⟨fuel, rfl⟩ := Nat.exists_eq_add_of_le' (Nat.zero_lt_of_lt enough)
    rw [limit, powLoop, if_neg (by decide), rounds, if_neg fun wraps => narrow wraps.2]
    rfl

end Command

section Results

variable {t : ValueType} {m : Mem} {num1 e : Nat} {n : Int}

/-- `pow` returns, with the power of the base in its place, after at most as many iterations
as the exponent says. -/
def Powers (t : ValueType) (m : Mem) (num1 : Nat) (exponent : Int) : Prop :=
  ∃ m' iterations,
    (∃ enough, ∀ fuel > enough, pow fuel m t.code num1 exponent = .ok (m', iterations)) ∧
    load t.bytes m' num1 =
      load t.bytes m num1 ^ (t.convert exponent).toNat % 2 ^ t.width ∧
    iterations ≤ (t.convert exponent).toNat

/-- The bases and exponents for which doubling is enough. -/
def Doubles (t : ValueType) (base : Nat) : Nat → Prop
  | 0 => base = 1 ∧ t ≠ U32
  | 1 => True
  | e + 2 =>
      base % 4 = 0 ∧ 2 ^ t.width ∣ base * 2 ^ (e + 1) ∨
        base % 4 = 2 ∧ 2 ^ t.width ∣ 2 ^ (e + 2) * ((base / 2) ^ (e + 1) - 1)

/-- What `pow` leaves decides. -/
theorem powers_iff (value : t.convert n = e) :
    Powers t m num1 n ↔
      load t.bytes m num1 * 2 ^ rounds t e ≡ load t.bytes m num1 ^ e [MOD 2 ^ t.width] ∧
        rounds t e ≤ e := by
  rw [Powers, value, Int.toNat_natCast]
  constructor
  · rintro ⟨m', iterations, ⟨enough, run⟩, result, bound⟩
    have same := (run (enough + rounds t e + 1) (by omega)).symm.trans
      (pow_eq value (by omega))
    obtain ⟨rfl, rfl⟩ := Prod.mk.inj (Except.ok.inj same)
    rw [load_double] at result
    exact ⟨result, bound⟩
  · rintro ⟨result, bound⟩
    exact ⟨_, _, ⟨rounds t e, fun fuel enough => pow_eq value enough⟩,
      (load_double _).trans result, bound⟩

theorem width_pos (t : ValueType) : 0 < t.width := by
  cases t with
  | U32 | I32 | U16 | I16 | U8 | I8 => decide

theorem powers_iff_doubles (value : t.convert n = e) :
    Powers t m num1 n ↔ Doubles t (load t.bytes m num1) e := by
  have base := base_lt t m num1
  rw [powers_iff value]
  generalize load t.bytes m num1 = b at base
  match e with
  | 0 =>
      by_cases word : t = U32
      · subst word
        refine iff_of_false (fun h => absurd h.2 (by decide)) (fun h => h.2 rfl)
      · have one : 1 < 2 ^ t.width := Nat.one_lt_two_pow (Nat.ne_of_gt (width_pos t))
        rw [rounds, if_neg fun wraps => word wraps.2, Doubles, and_iff_left (Nat.le_refl 0),
          and_iff_left word, Nat.zero_sub, Nat.pow_zero, Nat.pow_zero, Nat.mul_one, Nat.ModEq,
          Nat.mod_eq_of_lt base, Nat.mod_eq_of_lt one]
  | 1 =>
      rw [rounds, if_neg fun wraps => absurd wraps.1 (by decide)]
      refine iff_of_true ⟨?_, Nat.zero_le 1⟩ trivial
      rw [Nat.sub_self, Nat.pow_zero, Nat.mul_one, Nat.pow_one]
  | e + 2 =>
      rw [rounds, if_neg fun wraps => absurd wraps.1 (Nat.succ_ne_zero _),
        and_iff_left (Nat.sub_le _ _)]
      exact doubling_modEq_iff (width_pos t) (by omega)

end Results

/-- For an exponent that is not negative `pow` leaves the power of the base, if and only if
the exponent and the base are among those for which doubling is enough. -/
theorem pow_power_iff (t : ValueType) (m : Mem) (num1 : Nat) (exponent : Int)
    (nonneg : 0 ≤ t.convert exponent) :
    Powers t m num1 exponent ↔
      Doubles t (load t.bytes m num1) (t.convert exponent).toNat :=
  powers_iff_doubles (Int.toNat_of_nonneg nonneg).symm

/-- 2 to the power 5. -/
theorem pow_power_iff_two : Powers I32 (store 4 (fun _ => 0) 0 2) 0 5 := by
  refine (pow_power_iff I32 _ 0 5 (by decide)).mpr (.inr ?_)
  decide

/-- 3 to the power 2 is 6, and 3 to the unsigned power 0 takes `2 ^ 32 - 1` iterations. -/
theorem pow_power_fails :
    (pow 3 (store 4 (fun _ => 0) 0 3) I32.code 0 2).toOption.map
        (fun result => (load 4 result.1 0, result.2)) = some (6, 1) ∧
      ¬ Powers I32 (store 4 (fun _ => 0) 0 3) 0 2 ∧
      (∀ m num1 fuel, 2 ^ 32 - 1 < fuel →
        ∃ m', pow fuel m U32.code num1 0 = .ok (m', 2 ^ 32 - 1)) ∧
      ∀ m num1, ¬ Powers U32 m num1 0 := by
  have zero : U32.convert 0 = (0 : Nat) := rfl
  refine ⟨by decide, ?_, fun m num1 fuel enough => ⟨_, pow_eq zero enough⟩, fun m num1 powers => ?_⟩
  · rw [powers_iff_doubles (show I32.convert 2 = (2 : Nat) from rfl)]
    simp only [Doubles]
    decide
  · exact ((powers_iff_doubles zero).mp powers).2 rfl

end HiveRK.Util
