import HiveRK.Bees.Util.Strings

/-!
# Decimal strings

`num_to_str` writes the canonical numeral of a 32-bit value; the most negative one is written
as the largest value, whose last digit is then incremented. A narrow signed value is masked
before its sign is looked at, so a negative one loses its sign.
-/

namespace HiveRK.Util

open Machine Numeral ValueType

/-! ### Conversions -/

section Conversions

theorem convert_I32 (n : Int) : I32.convert n =
    if n % 4294967296 < 2147483648 then n % 4294967296 else n % 4294967296 - 4294967296 :=
  Int.bmod_def n 4294967296

theorem convert_I16 (n : Int) : I16.convert n =
    if n % 65536 < 32768 then n % 65536 else n % 65536 - 65536 :=
  Int.bmod_def n 65536

theorem convert_I8 (n : Int) : I8.convert n = if n % 256 < 128 then n % 256 else n % 256 - 256 :=
  Int.bmod_def n 256

theorem convert_word {v : Int} (low : -2147483648 ≤ v) (high : v < 2147483648) :
    I32.convert (word v) = v := by
  rw [convert_I32, word]
  omega

/-- A conversion keeps the bits of the type. -/
theorem convert_emod (t : ValueType) (n : Int) :
    t.convert n % 2 ^ t.width = n % 2 ^ t.width := by
  rw [convert]
  split_ifs
  · have kept := @Int.bmod_emod n (2 ^ t.width)
    rwa [Int.natCast_pow] at kept
  · exact Int.emod_emod_of_dvd n (Int.dvd_refl _)

/-- A mask of ones keeps the low bits. -/
theorem word_and (n : Int) {k : Nat} (short : k ≤ 32) :
    word n &&& 2 ^ k - 1 = (n % 2 ^ k).toNat := by
  have divides : (2 : Int) ^ k ∣ 2 ^ 32 := pow_dvd_pow 2 short
  have low : 0 ≤ n % 2 ^ 32 := Int.emod_nonneg n (by decide)
  rw [Nat.and_two_pow_sub_one_eq_mod, word, ← Int.emod_emod_of_dvd n divides,
    Int.toNat_emod low (Int.pow_nonneg (by decide))]
  rfl

end Conversions

section Unsigned

/-- The digits of a number that is not 0, copied back. -/
theorem reverse_digits {b n : Nat} (A : Alphabet Byte b) (hn : n ≠ 0) :
    ((Nat.digits b n).map A.char).reverse = A.string 1 n := by
  rw [← List.map_reverse, ← numeral_of_ne hn]
  rfl

theorem string_ne_nil (n : Nat) : decimal.string 1 n ≠ [] := fun none =>
  numeral_ne_nil 10 Nat.zero_lt_one n (List.map_eq_nil_iff.mp none)

theorem decimal_zero : decimal.string 1 0 = [zero] := by
  rw [Alphabet.string, numeral_zero]
  rfl

theorem numToStrUnsigned_prints {num : Nat} (fits : num < 2 ^ 32) (buf : Buffer) :
    Prints (fun fuel => numToStrUnsigned fuel num) buf (decimal.string 1 num) := by
  by_cases hn : num = 0
  · refine ⟨(buf.set 0 zero).set 1 0, ?_, fun fuel _ => if_pos hn⟩
    rw [hn, decimal_zero]
    exact zero_wrote buf
  · refine ⟨copyBack ((Nat.digits 10 num).map digitChar) buf, ?_, fun fuel enough => ?_⟩
    · have wrote := copyBack_wrote ((Nat.digits 10 num).map digitChar) buf
      rwa [show digitChar = decimal.char from rfl, reverse_digits decimal hn] at wrote
    · have digits := digitLoop_eq (show 1 < 10 by decide) digitChar
        (show num < 10 ^ 10 by omega)
        (Nat.lt_trans (by decide) enough) []
      show numToStrUnsigned fuel num buf = _
      rw [numToStrUnsigned, if_neg hn, digits]
      rfl

end Unsigned

section Signed

variable {num v : Int} {buf : Buffer} {min max size : Nat}

/-- The end of `num_to_str_signed`. -/
def finish (add1 : Byte) (buf : Buffer) (temp : List Byte) : Buffer :=
  (copyBack temp buf).set (temp.length - 1)
    ((copyBack temp buf).chars (temp.length - 1) + add1)

theorem finish_eq (add1 : Byte) (buf : Buffer) (temp : List Byte) :
    (let (buf, j) := copyLoop temp temp.length 0 buf
      let buf := buf.set j 0
      (.ok (buf.set (j - 1) (buf.chars (j - 1) + add1)) : Exec Buffer)) =
      .ok (finish add1 buf temp) := by
  have last := copyLoop_snd temp temp.length 0 buf
  rw [Nat.zero_add] at last
  simp only [finish, copyBack, last]

/-- The last character of the string, which is the first one of `temp`, grows by `add1`. -/
theorem finish_wrote (add1 c : Byte) (buf : Buffer) (temp : List Byte) :
    Wrote buf (temp.reverse ++ [c + add1]) (finish add1 buf (c :: temp)) := by
  have back := copyBack_wrote (c :: temp) buf
  have last : (copyBack (c :: temp) buf).chars temp.length = c := by
    rw [back.chars, List.reverse_cons, if_pos (by simp), List.getD_append_right _ _ _ _ (by simp)]
    simp
  have form : finish add1 buf (c :: temp) =
      (copyBack (c :: temp) buf).set temp.length
        ((copyBack (c :: temp) buf).chars temp.length + add1) := rfl
  have wrote := back.set (show temp.length < (c :: temp).reverse.length by simp) (c + add1)
  rw [List.reverse_cons, List.set_append_right _ _ (by simp)] at wrote
  rw [form, last]
  simpa using wrote

theorem finish_wrote_zero {temp : List Byte} (some : temp ≠ []) (buf : Buffer) :
    Wrote buf temp.reverse (finish 0 buf temp) := by
  obtain ⟨c, rest, rfl⟩ := List.exists_cons_of_ne_nil some
  have wrote := finish_wrote 0 c buf rest
  rwa [show c + 0 = c from BitVec.add_zero c, ← List.reverse_cons] at wrote

/-- The function behind its mask. -/
theorem numToStrSigned_eq (fuel : Nat) (value : I32.convert (word num &&& size : Nat) = v)
    (some : v ≠ 0) : numToStrSigned fuel num buf min max size =
      (signedDigitLoop fuel (if word v = min then I32.convert max
        else if v < 0 then I32.convert (-v) else v) []).map fun temp =>
          finish (if word v = min then 1 else 0) buf
            (if word v = min ∨ v < 0 then temp ++ [minus] else temp) := by
  rw [numToStrSigned, value]
  show (if v = 0 then _ else _) = _
  rw [if_neg some]
  cases digits : signedDigitLoop fuel (if word v = min then I32.convert max
    else if v < 0 then I32.convert (-v) else v) [] with
  | error stop =>
      simp only [digits]
      rfl
  | ok temp =>
      simp only [digits]
      exact finish_eq _ buf _

theorem signedDigitLoop_digits {n : Nat} (fits : n < 2 ^ 32) {fuel : Nat} (enough : 32 < fuel) :
    signedDigitLoop fuel n [] = .ok ((Nat.digits 10 n).map digitChar) := by
  rw [signedDigitLoop_eq, digitLoop_eq (show 1 < 10 by decide) digitChar
    (show n < 10 ^ 10 by omega) (Nat.lt_trans (by decide) enough), List.nil_append]

theorem digits_ne_nil {n : Nat} (hn : n ≠ 0) : (Nat.digits 10 n).map digitChar ≠ [] := fun none =>
  Nat.digits_ne_nil_iff_ne_zero.mpr hn (List.map_eq_nil_iff.mp none)

/-- A value that is not negative behind its mask is written without a sign. -/
theorem numToStrSigned_prints_nonneg {n : Nat}
    (value : I32.convert (word num &&& size : Nat) = n) (range : n < 2 ^ 31) (inner : n ≠ min)
    (buf : Buffer) :
    Prints (fun fuel buf => numToStrSigned fuel num buf min max size) buf
      (decimal.string 1 n) := by
  by_cases hn : n = 0
  · refine ⟨(buf.set 0 zero).set 1 0, ?_, fun fuel _ => ?_⟩
    · rw [hn, decimal_zero]
      exact zero_wrote buf
    · show numToStrSigned fuel num buf min max size = _
      rw [numToStrSigned, value, hn]
      rfl
  · have same : word (n : Int) = n := by
      rw [word]
      omega
    refine ⟨finish 0 buf ((Nat.digits 10 n).map digitChar), ?_, fun fuel enough => ?_⟩
    · rw [← reverse_digits decimal hn]
      exact finish_wrote_zero (digits_ne_nil hn) buf
    · show numToStrSigned fuel num buf min max size = _
      rw [numToStrSigned_eq fuel value (Int.natCast_ne_zero.mpr hn), same, if_neg inner,
        if_neg inner, if_neg (Int.not_lt.mpr (Int.natCast_nonneg n)),
        signedDigitLoop_digits (by omega) enough]
      simp only [inner, Int.not_lt.mpr (Int.natCast_nonneg n), or_self, if_false]
      rfl

/-- A negative value that is not the least one. -/
theorem numToStrSigned_prints_neg {n : Nat} (hn : 0 < n) (range : n < 2 ^ 31)
    (value : I32.convert (word num &&& size : Nat) = -n) (inner : word (-n) ≠ min)
    (buf : Buffer) :
    Prints (fun fuel buf => numToStrSigned fuel num buf min max size) buf
      (minus :: decimal.string 1 n) := by
  have neg : -(n : Int) < 0 := by omega
  have magnitude : I32.convert (- -(n : Int)) = n := by
    rw [Int.neg_neg, convert_I32]
    omega
  refine ⟨finish 0 buf ((Nat.digits 10 n).map digitChar ++ [minus]), ?_, fun fuel enough => ?_⟩
  · have wrote := finish_wrote_zero (List.append_ne_nil_of_right_ne_nil
      ((Nat.digits 10 n).map digitChar) (List.cons_ne_nil minus [])) buf
    rw [List.reverse_append, show digitChar = decimal.char from rfl,
      reverse_digits decimal (Nat.ne_of_gt hn)] at wrote
    exact wrote
  · show numToStrSigned fuel num buf min max size = _
    rw [numToStrSigned_eq fuel value (Int.ne_of_lt neg), if_neg inner, if_neg inner, if_pos neg,
      magnitude, signedDigitLoop_digits (by omega) enough]
    simp only [neg, or_true, if_true]
    rfl

/-- The least value: the digits of the largest one, and an 8 for its last 7. -/
theorem numToStrSigned_prints_min
    (value : I32.convert (word num &&& size : Nat) = -2147483648) (buf : Buffer) :
    Prints (fun fuel buf => numToStrSigned fuel num buf (word (-2147483648)) 2147483647 size) buf
      (minus :: decimal.string 1 2147483648) := by
  have digits : Nat.digits 10 2147483647 = 7 :: [4, 6, 3, 8, 4, 7, 4, 1, 2] := by norm_num
  have digits' : Nat.digits 10 2147483648 = 8 :: [4, 6, 3, 8, 4, 7, 4, 1, 2] := by norm_num
  have largest : I32.convert ((2147483647 : Nat) : Int) = (2147483647 : Nat) := by decide
  refine ⟨finish 1 buf ((Nat.digits 10 2147483647).map digitChar ++ [minus]), ?_,
    fun fuel enough => ?_⟩
  · have wrote := finish_wrote 1 (digitChar 7) buf
      ([4, 6, 3, 8, 4, 7, 4, 1, 2].map digitChar ++ [minus])
    rw [digits, ← reverse_digits decimal (by decide), digits']
    exact wrote
  · show numToStrSigned fuel num buf _ _ size = _
    rw [numToStrSigned_eq fuel value (by decide), if_pos rfl, if_pos rfl, largest,
      signedDigitLoop_digits (by decide) enough]
    simp only [true_or, if_true]
    rfl

end Signed

/-! ### The command -/

section Results

theorem convert_I32_range (n : Int) :
    -2147483648 ≤ I32.convert n ∧ I32.convert n < 2147483648 := by
  rw [convert_I32]
  omega

/-- A sign and ten digits. -/
theorem intString_length {v : Int} (fits : v.natAbs < 4294967296) :
    (decimal.intString minus v).length ≤ 11 := by
  have digits : (decimal.string 1 v.natAbs).length ≤ 10 := by
    rw [Alphabet.length_string]
    exact length_numeral_le (by decide) (by omega) (by decide)
  rw [Alphabet.intString]
  split_ifs
  · rw [List.length_cons]
    omega
  · omega

theorem convert_range (n : Int) :
    (I32.convert n).natAbs < 4294967296 ∧ (U32.convert n).natAbs < 4294967296 := by
  obtain ⟨low, high⟩ := convert_I32_range n
  have unsigned : U32.convert n = n % 4294967296 := rfl
  rw [unsigned]
  omega

/-- Every `int` is written as its numeral. -/
theorem numToStr_I32 (n : Int) (buf : Buffer) :
    Prints (fun fuel => numToStr fuel I32.code n) buf
      (decimal.intString minus (I32.convert n)) := by
  have form : (fun fuel => numToStr fuel I32.code n) = fun fuel buf =>
      numToStrSigned fuel (I32.convert n) buf (word (-2147483648)) 2147483647 0xFFFFFFFF := rfl
  obtain ⟨low, high⟩ := convert_I32_range n
  generalize I32.convert n = v at low high form
  have value : I32.convert (word v &&& 0xFFFFFFFF : Nat) = v := by
    have kept := word_and v (Nat.le_refl 32)
    rw [show 0xFFFFFFFF = 2 ^ 32 - 1 from rfl, kept]
    exact convert_word low high
  rw [form]
  by_cases least : v = -2147483648
  · rw [least] at value ⊢
    exact numToStrSigned_prints_min value buf
  · by_cases neg : v < 0
    · obtain ⟨n, rfl⟩ : ∃ n : Nat, v = -n := ⟨v.natAbs, by omega⟩
      rw [Alphabet.intString, if_pos neg, Int.natAbs_neg, Int.natAbs_natCast]
      refine numToStrSigned_prints_neg (by omega) (by omega) value ?_ buf
      rw [word, word]
      omega
    · obtain ⟨n, rfl⟩ : ∃ n : Nat, v = n := ⟨v.natAbs, by omega⟩
      rw [Alphabet.intString, if_neg neg, Int.natAbs_natCast]
      refine numToStrSigned_prints_nonneg value (by omega) ?_ buf
      rw [word]
      omega

theorem numToStr_U32 (n : Int) (buf : Buffer) :
    Prints (fun fuel => numToStr fuel U32.code n) buf
      (decimal.intString minus (U32.convert n)) := by
  have value : U32.convert n = (n % 4294967296).toNat := by
    rw [show U32.convert n = n % 4294967296 from rfl]
    omega
  have form : (fun fuel => numToStr fuel U32.code n) = fun fuel =>
      numToStrUnsigned fuel (U32.convert n).toNat := rfl
  rw [form, value, Int.toNat_natCast, Alphabet.intString, if_neg (by omega), Int.natAbs_natCast]
  exact numToStrUnsigned_prints (by omega) buf

theorem narrow_lt {t : ValueType} (narrow : t.width ≤ 16) (n : Int) :
    (n % 2 ^ t.width).toNat < 65536 := by
  have pos : (0 : Int) < 2 ^ t.width := Int.pow_pos (by decide)
  have wide : (2 : Int) ^ t.width ≤ 2 ^ 16 := pow_le_pow_right₀ (by decide) narrow
  have low := Int.emod_nonneg n (Int.ne_of_gt pos)
  have high := Int.emod_lt_of_pos n pos
  omega

/-- The bits of a narrow value, with the mask of its type, are not negative. -/
theorem masked_value (t : ValueType) (narrow : t.width ≤ 16) (n : Int) :
    I32.convert (word (t.convert n) &&& 2 ^ t.width - 1 : Nat) = (n % 2 ^ t.width).toNat := by
  have less := narrow_lt narrow n
  rw [word_and _ (Nat.le_trans narrow (by decide)), convert_emod, convert_I32]
  omega

/-- The least value, as a word, is none of the masked ones. -/
theorem numToStrSigned_narrow {t : ValueType} (narrow : t.width ≤ 16) (n : Int) {min max : Nat}
    (least : 65536 ≤ min) (buf : Buffer) :
    Prints (fun fuel buf => numToStrSigned fuel (t.convert n) buf min max (2 ^ t.width - 1)) buf
      (decimal.string 1 (n % 2 ^ t.width).toNat) := by
  have less := narrow_lt narrow n
  exact numToStrSigned_prints_nonneg (masked_value t narrow n) (by omega) (by omega) buf

/-- A narrow value is written without a sign. -/
theorem numToStr_narrow {t : ValueType} (narrow : t.width ≤ 16) (n : Int) (buf : Buffer) :
    Prints (fun fuel => numToStr fuel t.code n) buf (decimal.string 1 (n % 2 ^ t.width).toNat) := by
  cases t with
  | U32 => exact absurd narrow (by decide)
  | I32 => exact absurd narrow (by decide)
  | U16 => exact numToStrUnsigned_prints (show (n % 65536).toNat < 2 ^ 32 by omega) buf
  | U8 => exact numToStrUnsigned_prints (show (n % 256).toNat < 2 ^ 32 by omega) buf
  | I16 =>
      have form : (fun fuel => numToStr fuel I16.code n) = fun fuel buf =>
        numToStrSigned fuel (I16.convert n) buf (word (-32768)) 32767 0x0000FFFF := rfl
      rw [form]
      exact numToStrSigned_narrow narrow n (by decide) buf
  | I8 =>
      have form : (fun fuel => numToStr fuel I8.code n) = fun fuel buf =>
        numToStrSigned fuel (I8.convert n) buf (word (-128)) 127 0x000000FF := rfl
      rw [form]
      exact numToStrSigned_narrow narrow n (by decide) buf

/-- The 32-bit type with the same sign. -/
def ValueType.wide (t : ValueType) : ValueType := if t.signed then I32 else U32

/-- The bits of the type denote a number that is not negative. -/
def FitsUnsigned (t : ValueType) (n : Int) : Prop :=
  t.signed = true → n % 2 ^ t.width < 2 ^ (t.width - 1)

variable {t : ValueType} {n : Int}

theorem convert_of_fits (fits : FitsUnsigned t n) : t.convert n = n % 2 ^ t.width := by
  cases t with
  | U32 | U16 | U8 => rfl
  | I32 => exact (convert_I32 n).trans (if_pos (fits rfl))
  | I16 => exact (convert_I16 n).trans (if_pos (fits rfl))
  | I8 => exact (convert_I8 n).trans (if_pos (fits rfl))

theorem convert_neg (negative : ¬ FitsUnsigned t n) : t.convert n < 0 := by
  obtain ⟨signed, high⟩ := Classical.not_imp.mp negative
  cases t with
  | U32 | U16 | U8 => exact absurd signed (by decide)
  | I32 =>
      rw [(convert_I32 n).trans (if_neg high)]
      omega
  | I16 =>
      rw [(convert_I16 n).trans (if_neg high)]
      omega
  | I8 =>
      rw [(convert_I8 n).trans (if_neg high)]
      omega

/-- The extension of a value has the same value. -/
theorem convert_wide (t : ValueType) (n : Int) : t.wide.convert (t.convert n) = t.convert n := by
  cases t with
  | U32 => exact Int.emod_emod_of_dvd n (Int.dvd_refl _)
  | U16 =>
      show n % 65536 % 4294967296 = n % 65536
      omega
  | U8 =>
      show n % 256 % 4294967296 = n % 256
      omega
  | I32 =>
      show I32.convert (I32.convert n) = I32.convert n
      rw [convert_I32, convert_I32]
      omega
  | I16 =>
      show I32.convert (I16.convert n) = I16.convert n
      rw [convert_I32, convert_I16]
      omega
  | I8 =>
      show I32.convert (I8.convert n) = I8.convert n
      rw [convert_I32, convert_I8]
      omega

/-- The wide types write the numeral of the value that they are given. -/
theorem numToStr_wide (t : ValueType) (n : Int) (buf : Buffer) :
    Prints (fun fuel => numToStr fuel t.wide.code (t.convert n)) buf
      (decimal.intString minus (t.convert n)) := by
  have value := convert_wide t n
  have code : t.wide = I32 ∨ t.wide = U32 := by
    cases t with
    | U32 | U16 | U8 => exact .inr rfl
    | I32 | I16 | I8 => exact .inl rfl
  obtain signed | unsigned := code
  · have prints := numToStr_I32 (t.convert n) buf
    rwa [← signed, value] at prints
  · have prints := numToStr_U32 (t.convert n) buf
    rwa [← unsigned, value] at prints

/-- A sign is not a digit. -/
theorem digit_minus : decimal.digit minus = none := by decide

/-- Strings that one conversion writes begin with the same character. -/
theorem Prints.first {run : Nat → Buffer → Exec Buffer} {buf : Buffer} {s s' : List Byte}
    (h : Prints run buf s) (h' : Prints run buf s') : s.getD 0 0 = s'.getD 0 0 := by
  obtain ⟨b, wrote, wrote'⟩ := h.wrote h'
  have first := wrote.chars 0
  rwa [if_pos (Nat.zero_le _), wrote'.chars, if_pos (Nat.zero_le _), eq_comm] at first

/-- A narrow value that is negative is not written as the wide one is. -/
theorem numToStr_negative (narrow : t.width ≤ 16) (negative : ¬ FitsUnsigned t n) {buf : Buffer}
    {s : List Byte} (prints : Prints (fun fuel => numToStr fuel t.code n) buf s) :
    ¬ Prints (fun fuel => numToStr fuel t.wide.code (t.convert n)) buf s := by
  intro prints'
  have sign := prints'.first (numToStr_wide t n buf)
  rw [Alphabet.intString, if_pos (convert_neg negative)] at sign
  have first := prints.first (numToStr_narrow narrow n buf)
  have plain : (decimal.string 1 (n % 2 ^ t.width).toNat).head? ≠ some minus :=
    Alphabet.head_string (by decide) digit_minus
  obtain ⟨c, cs, digits⟩ := List.exists_cons_of_ne_nil (string_ne_nil (n % 2 ^ t.width).toNat)
  rw [sign, digits] at first
  rw [digits] at plain
  exact plain (congrArg some first.symm)

end Results

/-- Every 32-bit value is written as its canonical numeral, as a signed one and as an unsigned
one. -/
theorem numToStr_canonical (n : Int) (buf : Buffer) :
    (∃ s, decimal.Canonical minus s (I32.convert n) ∧
      Prints (fun fuel => numToStr fuel I32.code n) buf s) ∧
    (∃ s, decimal.Canonical minus s (U32.convert n) ∧
      Prints (fun fuel => numToStr fuel U32.code n) buf s) :=
  ⟨⟨_, Alphabet.intString_canonical (by decide) digit_minus _, numToStr_I32 n buf⟩,
    ⟨_, Alphabet.intString_canonical (by decide) digit_minus _, numToStr_U32 n buf⟩⟩

/-- A type and the 32-bit type of the same sign write the same string for a value, if and only
if the type is a 32-bit type or the value is not negative. -/
theorem numToStr_same_iff (t : ValueType) (n : Int) (buf : Buffer) :
    (∃ s, Prints (fun fuel => numToStr fuel t.code n) buf s ∧
      Prints (fun fuel => numToStr fuel t.wide.code (t.convert n)) buf s) ↔
      (t.width ≤ 16 → FitsUnsigned t n) := by
  constructor
  · rintro ⟨s, prints, prints'⟩ narrow
    by_contra negative
    exact numToStr_negative narrow negative prints prints'
  · intro fits
    refine ⟨_, ?_, numToStr_wide t n buf⟩
    by_cases narrow : t.width ≤ 16
    · have value := convert_of_fits (fits narrow)
      have low : 0 ≤ n % 2 ^ t.width := Int.emod_nonneg n (Int.ne_of_gt (Int.pow_pos (by decide)))
      have magnitude : (n % 2 ^ t.width).natAbs = (n % 2 ^ t.width).toNat := by omega
      rw [value, Alphabet.intString, if_neg (Int.not_lt.mpr low), magnitude]
      exact numToStr_narrow narrow n buf
    · cases t with
      | U32 => exact numToStr_U32 n buf
      | I32 => exact numToStr_I32 n buf
      | U16 | I16 | U8 | I8 => exact absurd (by decide) narrow

/-- The 16-bit value -1 is written as 65535, and the 32-bit value -1 is not. -/
theorem numToStr_same_fails :
    (∀ buf, Prints (fun fuel => numToStr fuel I16.code (-1)) buf (decimal.string 1 65535)) ∧
      ∀ buf s, Prints (fun fuel => numToStr fuel I16.code (-1)) buf s →
        ¬ Prints (fun fuel => numToStr fuel I32.code (-1)) buf s := by
  have negative : ¬ FitsUnsigned I16 (-1) := fun fits => absurd (fits rfl) (by decide)
  have narrow : I16.width ≤ 16 := by decide
  exact ⟨numToStr_narrow narrow (-1), fun _ _ => numToStr_negative narrow negative⟩

end HiveRK.Util
