import HiveRK.Bees.Util.Decimal

/-!
# Hexadecimal and binary strings

`num_to_hex` and `num_to_bin` mask the number, collect its digits, and put zeros in front of
them until the width of the type is reached. `num_to_hex` returns early for 0, with one digit;
`num_to_bin` has a loop for 0, and writes all digits of every number.
-/

namespace HiveRK.Util

open Machine Numeral ValueType

section Padding

variable {b width : Nat}

/-- The digits and the zeros, copied back. -/
theorem padded_wrote (A : Alphabet Byte b) (first : A.char 0 = zero) (width n : Nat)
    (buf : Buffer) :
    Wrote buf (A.string width n) (copyBack ((Nat.digits b n).map A.char ++
      List.replicate (width - ((Nat.digits b n).map A.char).length) zero) buf) := by
  have wrote := copyBack_wrote ((Nat.digits b n).map A.char ++
    List.replicate (width - ((Nat.digits b n).map A.char).length) zero) buf
  have form : ((Nat.digits b n).map A.char ++
      List.replicate (width - ((Nat.digits b n).map A.char).length) zero).reverse =
        A.string width n := by
    rw [Alphabet.string, numeral, Nat.digitsAppend, List.map_reverse, List.map_append,
      List.map_replicate, first, List.length_map]
  rwa [form] at wrote

/-- The two loops of a conversion, one after the other. -/
theorem padded_prints (A : Alphabet Byte b) (base : 1 < b) (first : A.char 0 = zero) {n : Nat}
    (fits : n < b ^ width) (short : width ≤ 32) (buf : Buffer) :
    Prints (fun fuel buf => do
      let temp ← digitLoop b A.char fuel n []
      let temp ← padLoop width fuel temp
      .ok (copyBack temp buf)) buf (A.string width n) := by
  refine ⟨_, padded_wrote A first width n buf, fun fuel more => ?_⟩
  have enough : width < fuel := Nat.lt_of_le_of_lt short more
  show (digitLoop b A.char fuel n [] >>= fun temp => _) = _
  rw [digitLoop_eq base A.char fits enough]
  show (padLoop width fuel _ >>= fun temp => _) = _
  rw [padLoop_eq (Nat.lt_of_le_of_lt (Nat.sub_le _ _) enough)]
  rfl

end Padding

section Masks

theorem masked_code (t : ValueType) (n : Int) : masked t.code n = (n % 2 ^ t.width).toNat := by
  cases t with
  | U32 | I32 => rfl
  | U16 | I16 => exact word_and n (show 16 ≤ 32 by decide)
  | U8 | I8 => exact word_and n (show 8 ≤ 32 by decide)

theorem masked_lt (t : ValueType) (n : Int) : (n % 2 ^ t.width).toNat < 2 ^ t.width := by
  have pos : (0 : Int) < 2 ^ t.width := Int.pow_pos (by decide)
  have high := Int.emod_lt_of_pos n pos
  rw [Int.toNat_lt (Int.emod_nonneg n (Int.ne_of_gt pos))]
  exact_mod_cast high

theorem width_le (t : ValueType) : t.width ≤ 32 := by
  cases t with
  | U32 | I32 | U16 | I16 | U8 | I8 => decide

theorem le_width (t : ValueType) : 4 ≤ t.width := by
  cases t with
  | U32 | I32 | U16 | I16 | U8 | I8 => decide

/-- A hexadecimal digit stands for four bits. -/
theorem hex_width (t : ValueType) : 16 ^ (t.width / 4) = 2 ^ t.width := by
  cases t with
  | U32 | I32 | U16 | I16 | U8 | I8 => rfl

end Masks

section Hexadecimal

variable {t : ValueType} {n : Int}

theorem numToHex_eq (fuel : Nat) (t : ValueType) (n : Int) (buf : Buffer) :
    numToHex fuel t.code n buf =
      if masked t.code n = 0 then .ok ((buf.set 0 zero).set 1 0)
      else (do
        let temp ← digitLoop 16 hexadecimal.char fuel (masked t.code n) []
        let temp ← padLoop (t.width / 4) fuel temp
        .ok (copyBack temp buf)) := by
  cases t with
  | U32 | I32 | U16 | I16 | U8 | I8 => rfl

/-- A number that is not 0 is written with all digits of its type. -/
theorem numToHex_prints (some : n % 2 ^ t.width ≠ 0) (buf : Buffer) :
    Prints (fun fuel => numToHex fuel t.code n) buf
      (hexadecimal.string (t.width / 4) (n % 2 ^ t.width).toNat) := by
  have pos : (0 : Int) < 2 ^ t.width := Int.pow_pos (by decide)
  have low := Int.emod_nonneg n (Int.ne_of_gt pos)
  have digits : masked t.code n ≠ 0 := by
    rw [masked_code]
    intro zero
    exact some (Int.le_antisymm (Int.toNat_eq_zero.mp zero) low)
  have prints := padded_prints hexadecimal (by decide) rfl
    (show (n % 2 ^ t.width).toNat < 16 ^ (t.width / 4) from hex_width t ▸ masked_lt t n)
    (Nat.le_trans (Nat.div_le_self _ _) (width_le t)) buf
  rw [← masked_code] at prints ⊢
  refine prints.of_eq fun fuel => ?_
  rw [numToHex_eq, if_neg digits]

/-- The early return. -/
theorem numToHex_zero (none : n % 2 ^ t.width = 0) (buf : Buffer) :
    Prints (fun fuel => numToHex fuel t.code n) buf [zero] := by
  refine ⟨_, zero_wrote buf, fun fuel _ => ?_⟩
  have digits : masked t.code n = 0 := by rw [masked_code, none]; rfl
  show numToHex fuel t.code n buf = _
  rw [numToHex_eq, if_pos digits]

end Hexadecimal

section Binary

variable {t : ValueType} {n : Int}

theorem numToBin_eq (fuel bitness : Nat) (t : ValueType) (n : Int) (buf : Buffer) :
    numToBin fuel bitness t.code n buf =
      if masked t.code n = 0 then
        .ok (((List.range t.width).foldl (fun buf s => buf.set s zero) buf).set t.width 0)
      else (do
        let temp ← digitLoop 2 binary.char fuel (masked t.code n) []
        let temp ← padLoop t.width fuel temp
        .ok (copyBack temp buf)) := by
  cases t with
  | U32 | I32 | U16 | I16 | U8 | I8 => rfl

/-- The loop that writes nothing but zeros. -/
theorem zeros_chars (buf : Buffer) (k x : Nat) :
    ((List.range k).foldl (fun buf s => buf.set s zero) buf).chars x =
      if x < k then zero else buf.chars x := by
  induction k with
  | zero => rfl
  | succ k ih =>
      rw [List.range_succ, List.foldl_append, List.foldl_cons, List.foldl_nil]
      by_cases here : x = k
      · rw [here, Buffer.set_chars_self, if_pos (Nat.lt_succ_self k)]
      · rw [Buffer.set_chars_of_ne _ here, ih]
        simp only [show x < k ↔ x < k + 1 by omega]

theorem zeros_written (buf : Buffer) (k x : Nat) :
    x ∈ ((List.range k).foldl (fun buf s => buf.set s zero) buf).written ↔
      x < k ∨ x ∈ buf.written := by
  induction k with
  | zero => exact ⟨.inr, fun h => h.resolve_left (Nat.not_lt_zero x)⟩
  | succ k ih =>
      rw [List.range_succ, List.foldl_append, List.foldl_cons, List.foldl_nil,
        Buffer.mem_set_written, ih, ← or_assoc]
      exact or_congr_left (by omega)

theorem zeros_wrote (buf : Buffer) (k : Nat) :
    Wrote buf (List.replicate k zero)
      (((List.range k).foldl (fun buf s => buf.set s zero) buf).set k 0) := by
  constructor
  · intro i
    rw [List.length_replicate]
    by_cases here : i = k
    · rw [here, Buffer.set_chars_self, if_pos (Nat.le_refl k),
        List.getD_eq_default _ _ (Nat.le_of_eq List.length_replicate)]
    · rw [Buffer.set_chars_of_ne _ here, zeros_chars]
      by_cases inside : i < k
      · rw [if_pos inside, if_pos (Nat.le_of_lt inside),
          List.getD_eq_getElem _ _ (by rwa [List.length_replicate]), List.getElem_replicate]
      · rw [if_neg inside, if_neg (by omega)]
  · intro i
    rw [Buffer.mem_set_written, zeros_written, List.length_replicate, ← or_assoc]
    exact or_congr_left (by omega)

theorem binary_zero (k : Nat) : binary.string k 0 = List.replicate k zero := by
  rw [Alphabet.string, numeral, Nat.digitsAppend, Nat.digits_zero, List.nil_append,
    List.reverse_replicate, List.map_replicate]
  rfl

/-- Every number is written with all bits of its type. -/
theorem numToBin_prints (bitness : Nat) (t : ValueType) (n : Int) (buf : Buffer) :
    Prints (fun fuel => numToBin fuel bitness t.code n) buf
      (binary.string t.width (n % 2 ^ t.width).toNat) := by
  rw [← masked_code]
  by_cases none : masked t.code n = 0
  · rw [none, binary_zero]
    refine ⟨_, zeros_wrote buf t.width, fun fuel _ => ?_⟩
    show numToBin fuel bitness t.code n buf = _
    rw [numToBin_eq, if_pos none]
  · have prints := padded_prints binary (by decide) rfl
      (show masked t.code n < 2 ^ t.width from masked_code t n ▸ masked_lt t n)
      (width_le t) buf
    refine prints.of_eq fun fuel => ?_
    rw [numToBin_eq, if_neg none]

theorem binary_chars (w n : Nat) :
    ∀ c ∈ binary.string w n, c = digitChar 0 ∨ c = digitChar 1 := by
  intro c hc
  obtain ⟨d, hd, rfl⟩ := List.mem_map.mp hc
  have digit : d < 2 := digit_lt (by decide) d hd
  obtain rfl | rfl : d = 0 ∨ d = 1 := by omega
  · exact .inl rfl
  · exact .inr rfl

theorem binary_string_length (t : ValueType) (n : Int) :
    (binary.string t.width (n % 2 ^ t.width).toNat).length = t.width := by
  rw [Alphabet.length_string]
  exact length_numeral (by decide) (masked_lt t n)

/-- `num_to_bin` writes exactly as many binary digits as the type has bits, and a NUL, and
they are the digits of the number. -/
theorem numToBin_faithful (bitness : Nat) (t : ValueType) (n : Int) (buf : Buffer) :
    ∃ s, s.length = t.width ∧ (∀ c ∈ s, c = digitChar 0 ∨ c = digitChar 1) ∧
      binary.read s = some (n % 2 ^ t.width).toNat ∧
      Prints (fun fuel => numToBin fuel bitness t.code n) buf s :=
  have wide : 0 < t.width := Nat.lt_of_lt_of_le (by decide) (le_width t)
  ⟨_, binary_string_length t n, binary_chars _ _,
    Alphabet.read_string (by decide) (numeral_ne_nil 2 wide _), numToBin_prints bitness t n buf⟩

end Binary

section Results

variable {t : ValueType} {n : Int}

theorem hexadecimal_string_length (t : ValueType) (n : Int) :
    (hexadecimal.string (t.width / 4) (n % 2 ^ t.width).toNat).length = t.width / 4 := by
  rw [Alphabet.length_string]
  exact length_numeral (by decide) (hex_width t ▸ masked_lt t n)

/-- A string of digits has no NUL in it. -/
theorem zero_notMem_of_read {s : List Byte} {m : Nat} (reads : hexadecimal.read s = some m) :
    0 ∉ s := fun nul =>
  Alphabet.digit_of_read reads 0 nul (by decide)

/-- 0 is written with one digit, and so not with those of its type. -/
theorem numToHex_short (none : n % 2 ^ t.width = 0) {buf : Buffer} {s : List Byte} {m : Nat}
    (reads : hexadecimal.read s = some m)
    (prints : Prints (fun fuel => numToHex fuel t.code n) buf s) : s = [zero] := by
  obtain ⟨buf', wrote, wrote'⟩ := prints.wrote (numToHex_zero none buf)
  exact wrote.unique wrote' (zero_notMem_of_read reads) (by decide)

end Results

/-- `num_to_hex` writes a number with all upper-case digits of its type, if and only if the
number is not 0 in that type. -/
theorem numToHex_faithful_iff (t : ValueType) (n : Int) (buf : Buffer) :
    (∃ s, s.length = t.width / 4 ∧ hexadecimal.read s = some (n % 2 ^ t.width).toNat ∧
      Prints (fun fuel => numToHex fuel t.code n) buf s) ↔ n % 2 ^ t.width ≠ 0 := by
  constructor
  · rintro ⟨s, length, reads, prints⟩ none
    obtain rfl := numToHex_short none reads prints
    cases t with
    | U32 | I32 | U16 | I16 | U8 | I8 => exact absurd length (by decide)
  · intro some
    have wide : 0 < t.width / 4 := Nat.div_pos (le_width t) (by decide)
    exact ⟨_, hexadecimal_string_length t n,
      Alphabet.read_string (by decide) (numeral_ne_nil 16 wide _), numToHex_prints some buf⟩

/-- The 32-bit value 0 is written as one digit, and not as eight. -/
theorem numToHex_faithful_fails :
    (∀ buf, Prints (fun fuel => numToHex fuel U32.code 0) buf [zero]) ∧
      ∀ buf s, hexadecimal.read s = some 0 →
        Prints (fun fuel => numToHex fuel U32.code 0) buf s → s.length ≠ 8 := by
  refine ⟨numToHex_zero (t := U32) (by decide), fun buf s reads prints => ?_⟩
  rw [numToHex_short (t := U32) (by decide) reads prints]
  decide

end HiveRK.Util
