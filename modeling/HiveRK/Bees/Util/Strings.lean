import HiveRK.Bees.Util.Basic
import HiveRK.Numeral.Basic
import Mathlib.Data.List.GetD

/-!
# What the conversions write

A conversion writes a string and its NUL to the beginning of the buffer. The loops are
described by the digits of the number, so a function is described by the numeral that it
writes. No loop tests its guard more than 33 times, once for each bit and once at its end.
-/

namespace HiveRK.Util

open Machine Numeral

/-- `buf'` is `buf` with the string `s` and a NUL at its beginning. -/
structure Wrote (buf : Buffer) (s : List Byte) (buf' : Buffer) : Prop where
  chars : ∀ i, buf'.chars i = if i ≤ s.length then s.getD i 0 else buf.chars i
  written : ∀ i, i ∈ buf'.written ↔ i ≤ s.length ∨ i ∈ buf.written

/-- The conversion returns, and has written `s`. -/
def Prints (run : Nat → Buffer → Exec Buffer) (buf : Buffer) (s : List Byte) : Prop :=
  ∃ buf', Wrote buf s buf' ∧ ∀ fuel > 32, run fuel buf = .ok buf'

def digitBelow (b : Nat) (c : Byte) : Option Nat :=
  (List.range b).find? fun d => hex.getD d 0 = c

def decimal : Alphabet Byte 10 := ⟨digitChar, digitBelow 10, by decide⟩

def hexadecimal : Alphabet Byte 16 := ⟨fun d => hex.getD d 0, digitBelow 16, by decide⟩

def binary : Alphabet Byte 2 := ⟨digitChar, digitBelow 2, by decide⟩

section Loops

variable {base fuel k num : Nat} {char : Nat → Byte}

/-- The digits are collected from the last one on. -/
theorem digitLoop_eq (wide : 1 < base) (char : Nat → Byte) (fits : num < base ^ k)
    (enough : k < fuel) (temp : List Byte) :
    digitLoop base char fuel num temp = .ok (temp ++ (Nat.digits base num).map char) := by
  induction fuel generalizing num k temp with
  | zero => exact absurd enough (Nat.not_lt_zero k)
  | succ fuel ih =>
      rw [digitLoop]
      by_cases some : num > 0
      · cases k with
        | zero =>
            rw [Nat.pow_zero] at fits
            omega
        | succ k =>
            have less : num / base < base ^ k :=
              Nat.div_lt_of_lt_mul (by rwa [Nat.mul_comm, ← Nat.pow_succ])
            rw [if_pos some, ih less (Nat.lt_of_succ_lt_succ enough),
              Nat.digits_eq_cons_digits_div wide (Nat.ne_of_gt some), List.map_cons,
              List.append_assoc, List.singleton_append]
      · obtain rfl := Nat.eq_zero_of_not_pos some
        rw [if_neg some, Nat.digits_zero, List.map_nil, List.append_nil]

/-- On a number that is not negative the loop of `num_to_str_signed` is the other one. -/
theorem signedDigitLoop_eq (fuel num : Nat) (temp : List Byte) :
    signedDigitLoop fuel num temp = digitLoop 10 digitChar fuel num temp := by
  induction fuel generalizing num temp with
  | zero => rfl
  | succ fuel ih =>
      have quotient : (num : Int).tdiv 10 = (num / 10 : Nat) := rfl
      have remainder : (num : Int).tmod 10 + 0x30 = (num % 10 + 0x30 : Nat) := rfl
      rw [signedDigitLoop, digitLoop, quotient, remainder, BitVec.ofInt_natCast, ih]
      simp only [gt_iff_lt, Int.natCast_pos]
      rfl

theorem padLoop_eq {width : Nat} {temp : List Byte} (enough : width - temp.length < fuel) :
    padLoop width fuel temp = .ok (temp ++ List.replicate (width - temp.length) zero) := by
  induction fuel generalizing temp with
  | zero => exact absurd enough (Nat.not_lt_zero _)
  | succ fuel ih =>
      rw [padLoop]
      split_ifs with short
      · rw [ih (by rw [List.length_append, List.length_singleton]; omega), List.length_append,
          List.length_singleton, List.append_assoc, List.singleton_append, ← List.replicate_succ,
          show width - (temp.length + 1) + 1 = width - temp.length by omega]
      · rw [Nat.sub_eq_zero_of_le (Nat.le_of_not_lt short), List.replicate_zero, List.append_nil]

theorem copyLoop_snd (temp : List Byte) (i j : Nat) (buf : Buffer) :
    (copyLoop temp i j buf).2 = j + i := by
  induction i generalizing j buf with
  | zero => rfl
  | succ i ih => rw [copyLoop, ih, Nat.add_assoc, Nat.add_comm 1]

theorem copyLoop_chars (temp : List Byte) (i j : Nat) (buf : Buffer) (x : Nat) :
    (copyLoop temp i j buf).1.chars x =
      if j ≤ x ∧ x < j + i then temp.getD (j + i - 1 - x) 0 else buf.chars x := by
  induction i generalizing j buf with
  | zero => rw [copyLoop, if_neg (by omega)]
  | succ i ih =>
      rw [copyLoop, ih]
      by_cases here : x = j
      · rw [if_neg (by omega), if_pos (by omega), here, Buffer.set_chars_self,
          show j + (i + 1) - 1 - j = i by omega]
      · rw [Buffer.set_chars_of_ne _ here,
          show j + 1 + i - 1 - x = j + (i + 1) - 1 - x by omega]
        simp only [show j + 1 ≤ x ∧ x < j + 1 + i ↔ j ≤ x ∧ x < j + (i + 1) by omega]

theorem copyLoop_written (temp : List Byte) (i j : Nat) (buf : Buffer) (x : Nat) :
    x ∈ (copyLoop temp i j buf).1.written ↔ (j ≤ x ∧ x < j + i) ∨ x ∈ buf.written := by
  induction i generalizing j buf with
  | zero => exact ⟨.inr, fun h => h.resolve_left (by omega)⟩
  | succ i ih =>
      rw [copyLoop, ih, Buffer.mem_set_written, ← or_assoc]
      exact or_congr_left (by omega)

end Loops

section Writing

variable {buf buf' : Buffer} {s temp : List Byte}

/-- The characters come out in the order of the numeral. -/
theorem copyBack_wrote (temp : List Byte) (buf : Buffer) :
    Wrote buf temp.reverse (copyBack temp buf) := by
  have last := copyLoop_snd temp temp.length 0 buf
  have form : copyBack temp buf = (copyLoop temp temp.length 0 buf).1.set temp.length 0 := by
    rw [Nat.zero_add] at last
    show (copyLoop temp temp.length 0 buf).1.set (copyLoop temp temp.length 0 buf).2 0 = _
    rw [last]
  rw [form]
  constructor
  · intro i
    rw [List.length_reverse]
    by_cases here : i = temp.length
    · rw [here, Buffer.set_chars_self, if_pos (Nat.le_refl _),
        List.getD_eq_default _ _ (Nat.le_of_eq List.length_reverse)]
    · rw [Buffer.set_chars_of_ne _ here, copyLoop_chars]
      by_cases inside : i < temp.length
      · rw [if_pos (by omega), if_pos (Nat.le_of_lt inside), List.getD_eq_getElem _ _ (by omega),
          List.getD_eq_getElem _ _ (by rwa [List.length_reverse]), List.getElem_reverse]
        congr 1
        omega
      · rw [if_neg (by omega), if_neg (by omega)]
  · intro i
    rw [Buffer.mem_set_written, copyLoop_written, List.length_reverse, ← or_assoc]
    exact or_congr_left (by omega)

/-- The early return for 0. -/
theorem zero_wrote (buf : Buffer) : Wrote buf [zero] ((buf.set 0 zero).set 1 0) := by
  constructor
  · intro i
    match i with
    | 0 => rfl
    | 1 => rfl
    | i + 2 =>
        rw [if_neg (by rw [List.length_singleton]; omega)]
        rfl
  · intro i
    simp only [Buffer.mem_set_written, List.length_singleton, ← or_assoc]
    exact or_congr_left (by omega)

theorem nul_wrote (buf : Buffer) : Wrote buf [] (buf.set 0 0) := by
  constructor
  · intro i
    match i with
    | 0 => rfl
    | i + 1 => exact (Buffer.set_chars_of_ne buf (Nat.succ_ne_zero i) 0).trans (if_neg nofun).symm
  · intro i
    rw [Buffer.mem_set_written, List.length_nil, Nat.le_zero]

/-- One more character, and the NUL behind it. -/
theorem Wrote.snoc (wrote : Wrote buf s buf') (ch : Byte) :
    Wrote buf (s ++ [ch]) ((buf'.set s.length ch).set (s.length + 1) 0) := by
  constructor
  · intro i
    rw [List.length_append, List.length_singleton]
    by_cases nul : i = s.length + 1
    · rw [nul, Buffer.set_chars_self, if_pos (Nat.le_refl _), List.getD_eq_default _ _ (by simp)]
    · rw [Buffer.set_chars_of_ne _ nul]
      by_cases last : i = s.length
      · rw [last, Buffer.set_chars_self, if_pos (Nat.le_succ _),
          List.getD_append_right _ _ _ _ (Nat.le_refl _), Nat.sub_self]
        rfl
      · rw [Buffer.set_chars_of_ne _ last, wrote.chars]
        by_cases inside : i < s.length
        · rw [if_pos (Nat.le_of_lt inside), if_pos (by omega), List.getD_append _ _ _ _ inside]
        · rw [if_neg (by omega), if_neg (by omega)]
  · intro i
    rw [Buffer.mem_set_written, Buffer.mem_set_written, wrote.written, List.length_append,
      List.length_singleton, ← or_assoc, ← or_assoc]
    exact or_congr_left (by omega)

/-- One more store to a character of the string. -/
theorem Wrote.set (wrote : Wrote buf s buf') {i : Nat} (inside : i < s.length) (c : Byte) :
    Wrote buf (s.set i c) (buf'.set i c) := by
  constructor
  · intro x
    rw [List.length_set]
    by_cases here : x = i
    · rw [here, Buffer.set_chars_self, if_pos (Nat.le_of_lt inside),
        List.getD_eq_getElem _ _ (by rwa [List.length_set]), List.getElem_set_self]
    · rw [Buffer.set_chars_of_ne _ here, wrote.chars, List.getD_eq_getElem?_getD,
        List.getD_eq_getElem?_getD, List.getElem?_set_ne (Ne.symm here)]
  · intro x
    rw [Buffer.mem_set_written, wrote.written, List.length_set, ← or_assoc]
    exact or_congr_left (by omega)

/-- A buffer determines the string in it. -/
theorem Wrote.unique {s' : List Byte} (wrote : Wrote buf s buf') (wrote' : Wrote buf s' buf')
    (plain : 0 ∉ s) (plain' : 0 ∉ s') : s = s' := by
  have short {s s' : List Byte} (wrote : Wrote buf s buf') (wrote' : Wrote buf s' buf')
      (plain' : 0 ∉ s') : s'.length ≤ s.length := by
    by_contra longer
    have inside : s.length < s'.length := Nat.lt_of_not_le longer
    have nul := wrote.chars s.length
    rw [if_pos (Nat.le_refl _), List.getD_eq_default _ _ (Nat.le_refl _), wrote'.chars,
      if_pos (Nat.le_of_lt inside), List.getD_eq_getElem _ _ inside] at nul
    exact plain' (nul ▸ List.getElem_mem inside)
  have length : s.length = s'.length :=
    Nat.le_antisymm (short wrote' wrote plain) (short wrote wrote' plain')
  refine List.ext_getElem length fun i hi hi' => ?_
  have here := wrote.chars i
  rw [wrote'.chars, if_pos (Nat.le_of_lt hi), if_pos (Nat.le_of_lt hi'),
    List.getD_eq_getElem _ _ hi, List.getD_eq_getElem _ _ hi'] at here
  exact here.symm

theorem Prints.of_eq {run run' : Nat → Buffer → Exec Buffer} (h : Prints run buf s)
    (same : ∀ fuel, run' fuel buf = run fuel buf) : Prints run' buf s := by
  obtain ⟨b, wrote, run⟩ := h
  exact ⟨b, wrote, fun fuel enough => (same fuel).trans (run fuel enough)⟩

/-- Two descriptions of one conversion are about the same buffer. -/
theorem Prints.wrote {run : Nat → Buffer → Exec Buffer} {s' : List Byte} (h : Prints run buf s)
    (h' : Prints run buf s') : ∃ buf', Wrote buf s buf' ∧ Wrote buf s' buf' := by
  obtain ⟨b, wrote, run⟩ := h
  obtain ⟨b', wrote', run'⟩ := h'
  have same := (run 33 (by decide)).symm.trans (run' 33 (by decide))
  exact ⟨b, wrote, Except.ok.inj same ▸ wrote'⟩

end Writing

end HiveRK.Util
