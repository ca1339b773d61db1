import HiveRK.Bees.Util.Decimal
import HiveRK.Queen.Control.Basic

/-!
# The numbers of the core

`int_to_string` negates a negative number and then collects its digits. The most negative
`int` is its own negation, so nothing is collected for it and only the sign is written.
`num_to_str` has a case for it.
-/

namespace HiveRK.Control

open Machine Numeral Util ValueType

section Prints

variable {v : Int}

theorem intToString_eq (fuel : Nat) (some : v ≠ 0) (buf : Buffer) :
    intToString fuel v buf =
      (signedDigitLoop fuel (if v < 0 then I32.convert (-v) else v) []).map fun temp =>
        copyBack (if v < 0 then temp ++ [minus] else temp) buf := by
  rw [intToString, if_neg some]
  cases digits : signedDigitLoop fuel (if v < 0 then I32.convert (-v) else v) [] with
  | error stop =>
      simp only [digits]
      rfl
  | ok temp =>
      simp only [digits]
      rfl

/-- Every other `int` is written as its numeral. -/
theorem intToString_prints (low : -2147483648 < v) (high : v < 2147483648) (buf : Buffer) :
    Prints (fun fuel => intToString fuel v) buf (decimal.intString minus v) := by
  by_cases none : v = 0
  · have digit : decimal.intString minus 0 = [zero] := decimal_zero
    rw [none, digit]
    exact ⟨_, zero_wrote buf, fun fuel _ => rfl⟩
  · have magnitude : (if v < 0 then I32.convert (-v) else v) = (v.natAbs : Int) := by
      rw [convert_I32]
      split_ifs <;> omega
    refine ⟨copyBack (if v < 0 then (Nat.digits 10 v.natAbs).map digitChar ++ [minus]
      else (Nat.digits 10 v.natAbs).map digitChar) buf, ?_, fun fuel enough => ?_⟩
    · have digits : ((Nat.digits 10 v.natAbs).map digitChar).reverse =
          decimal.string 1 v.natAbs := reverse_digits decimal (Int.natAbs_ne_zero.mpr none)
      have wrote := copyBack_wrote (if v < 0 then (Nat.digits 10 v.natAbs).map digitChar ++ [minus]
        else (Nat.digits 10 v.natAbs).map digitChar) buf
      rw [apply_ite List.reverse, List.reverse_append, digits] at wrote
      exact wrote
    · show intToString fuel v buf = _
      rw [intToString_eq fuel none, magnitude, signedDigitLoop_digits (by omega) enough]
      rfl

/-- The most negative `int` is written as a sign. -/
theorem intToString_least (buf : Buffer) :
    Prints (fun fuel => intToString fuel (-2147483648)) buf [minus] := by
  refine ⟨copyBack [minus] buf, copyBack_wrote [minus] buf, fun fuel enough => ?_⟩
  obtain ⟨fuel, rfl⟩ := Nat.exists_eq_succ_of_ne_zero (Nat.ne_of_gt (Nat.zero_lt_of_lt enough))
  show intToString (fuel + 1) (-2147483648) buf = _
  have wrapped : I32.convert (- -2147483648) = -2147483648 := by decide
  rw [intToString_eq _ (by decide), if_pos (by decide), wrapped, signedDigitLoop,
    if_neg (by decide)]
  rfl

theorem numeral_least : decimal.intString minus (-2147483648) =
    [minus, 0x32, 0x31, 0x34, 0x37, 0x34, 0x38, 0x33, 0x36, 0x34, 0x38] := by
  have digits : Nat.digits 10 2147483648 = [8, 4, 6, 3, 8, 4, 7, 4, 1, 2] := by norm_num
  have form : decimal.intString minus (-2147483648) = minus :: decimal.string 1 2147483648 := rfl
  rw [form, ← reverse_digits decimal (by decide), digits]
  rfl

/-- Behind the sign there is a NUL in one string and a 2 in the other. -/
theorem intToString_least_differs {n : Int} (least : I32.convert n = -2147483648) {buf : Buffer}
    {s : List Byte} (prints : Prints (fun fuel => intToString fuel (I32.convert n)) buf s) :
    ¬ Prints (fun fuel => numToStr fuel I32.code n) buf s := by
  intro prints'
  have digits := numToStr_I32 n buf
  rw [least] at prints digits
  rw [numeral_least] at digits
  obtain ⟨b, wrote, sign⟩ := prints.wrote (intToString_least buf)
  obtain ⟨b', wrote', digits⟩ := prints'.wrote digits
  have second := (wrote.chars 1).trans (wrote'.chars 1).symm
  have nul : b.chars 1 = 0 := sign.chars 1
  have two : b'.chars 1 = 0x32 := digits.chars 1
  rw [nul, two] at second
  exact absurd second (by decide)

end Prints

/-- `int_to_string` writes the string that `num_to_str` writes, and fits in 20 bytes with it,
if and only if the number is not the most negative `int`. -/
theorem intToString_same_iff (n : Int) (buf : Buffer) :
    (∃ s, s.length < 20 ∧ Prints (fun fuel => intToString fuel (I32.convert n)) buf s ∧
      Prints (fun fuel => numToStr fuel I32.code n) buf s) ↔ I32.convert n ≠ -2147483648 := by
  constructor
  · rintro ⟨s, -, prints, prints'⟩ least
    exact intToString_least_differs least prints prints'
  · intro inner
    obtain ⟨low, high⟩ := convert_I32_range n
    exact ⟨_, Nat.lt_of_le_of_lt (intString_length (convert_range n).1) (by decide),
      intToString_prints (lt_of_le_of_ne low (Ne.symm inner)) high buf, numToStr_I32 n buf⟩

/-- Of -2147483648 nothing but the sign is written. -/
theorem intToString_same_fails :
    (∀ buf, Prints (fun fuel => intToString fuel (I32.convert (-2147483648))) buf [minus]) ∧
      (∀ buf, Prints (fun fuel => numToStr fuel I32.code (-2147483648)) buf
        [minus, 0x32, 0x31, 0x34, 0x37, 0x34, 0x38, 0x33, 0x36, 0x34, 0x38]) ∧
      ∀ buf s, Prints (fun fuel => intToString fuel (I32.convert (-2147483648))) buf s →
        ¬ Prints (fun fuel => numToStr fuel I32.code (-2147483648)) buf s := by
  have least : I32.convert (-2147483648) = -2147483648 := by decide
  refine ⟨fun buf => ?_, fun buf => ?_, fun buf s => intToString_least_differs least⟩
  · rw [least]
    exact intToString_least buf
  · have digits := numToStr_I32 (-2147483648) buf
    rwa [least, numeral_least] at digits

end HiveRK.Control
