import HiveRK.Bees.Display.Format
import HiveRK.Bees.Display.Print
import HiveRK.Bees.Util.FixedWidth

/-!
# The conversions of `print`

`print` has the utility module write a number to a buffer of 32 bytes on its stack. A decimal
numeral has at most eleven characters and a hexadecimal one eight, but a binary one has 32,
and its NUL is written behind the buffer.
-/

namespace HiveRK.Display

open Machine Numeral

/-- The string of a number. -/
def Directive.numberText (n : Int) : Directive → List Byte
  | decimal | integer => Util.decimal.intString Util.minus (Util.ValueType.I32.convert n)
  | unsigned => Util.decimal.intString Util.minus (Util.ValueType.U32.convert n)
  | hex | pointer =>
      if n % 2 ^ 32 = 0 then [Util.zero]
      else Util.hexadecimal.string 8 (n % 2 ^ 32).toNat
  | binary => Util.binary.string 32 (n % 2 ^ 32).toNat
  | char | string => []

section Numbers

variable {CMD type : Nat} {d : Directive} {n : Int}

/-! The commands and the types, as the utility module knows them. -/

theorem code_I32 : I32 = Util.ValueType.I32.code := rfl

theorem code_U32 : U32 = Util.ValueType.U32.code := rfl

section Commands

variable (fuel bitness type : Nat) (n : Int) (buf : Util.Buffer)

theorem command_one : Util.command fuel bitness 1 type n buf = Util.numToStr fuel type n buf := rfl

theorem command_three : Util.command fuel bitness 3 type n buf = Util.numToHex fuel type n buf :=
  rfl

theorem command_four :
    Util.command fuel bitness 4 type n buf = Util.numToBin fuel bitness type n buf := rfl

end Commands

theorem numToHex_prints (n : Int) (buf : Util.Buffer) :
    Util.Prints (fun fuel => Util.numToHex fuel U32 n) buf (Directive.hex.numberText n) := by
  rw [code_U32]
  by_cases none : n % 2 ^ 32 = 0
  · rw [show Directive.hex.numberText n = [Util.zero] from if_pos none]
    exact Util.numToHex_zero none buf
  · rw [show Directive.hex.numberText n = Util.hexadecimal.string 8 _ from if_neg none]
    exact Util.numToHex_prints none buf

/-- What the utility module writes for a directive. -/
theorem conversion_prints (call : d.conversion = some (CMD, type)) (bitness : Nat) (n : Int)
    (buf : Util.Buffer) :
    Util.Prints (fun fuel => Util.command fuel bitness CMD type n) buf (d.numberText n) := by
  cases d with
  | char | string => exact nomatch call
  | decimal | integer =>
      obtain ⟨rfl, rfl⟩ := Prod.mk.inj (Option.some.inj call)
      rw [code_I32]
      exact (Util.numToStr_I32 n buf).of_eq fun fuel => command_one fuel bitness _ n buf
  | unsigned =>
      obtain ⟨rfl, rfl⟩ := Prod.mk.inj (Option.some.inj call)
      rw [code_U32]
      exact (Util.numToStr_U32 n buf).of_eq fun fuel => command_one fuel bitness _ n buf
  | hex | pointer =>
      obtain ⟨rfl, rfl⟩ := Prod.mk.inj (Option.some.inj call)
      exact (numToHex_prints n buf).of_eq fun fuel => command_three fuel bitness _ n buf
  | binary =>
      obtain ⟨rfl, rfl⟩ := Prod.mk.inj (Option.some.inj call)
      rw [code_U32]
      exact (Util.numToBin_prints bitness .U32 n buf).of_eq fun fuel =>
        command_four fuel bitness _ n buf

/-! The lengths. -/

theorem word_range (n : Int) : (n % 2 ^ 32).toNat < 4294967296 := by
  omega

theorem binary_length (n : Int) : (Directive.binary.numberText n).length = 32 := by
  rw [Directive.numberText, Alphabet.length_string]
  exact length_numeral (by decide) (word_range n)

/-- All other strings fit in. -/
theorem numberText_length (other : d ≠ .binary) (n : Int) : (d.numberText n).length < 32 := by
  obtain ⟨signed, unsigned⟩ := Util.convert_range n
  cases d with
  | binary => exact absurd rfl other
  | char | string => exact Nat.zero_lt_succ 31
  | decimal | integer => exact Nat.lt_of_le_of_lt (Util.intString_length signed) (by decide)
  | unsigned => exact Nat.lt_of_le_of_lt (Util.intString_length unsigned) (by decide)
  | hex | pointer =>
      rw [Directive.numberText]
      split_ifs
      · decide
      · rw [Alphabet.length_string, length_numeral (by decide) (word_range n)]
        decide

/-- The command of the utility module for `d` writes nothing behind the 32 bytes of the buffer. -/
def Fits (d : Directive) (n : Int) : Prop :=
  ∀ CMD type, d.conversion = some (CMD, type) → ∀ bitness chars,
    ∃ buf : Util.Buffer, (∀ fuel > 32, Util.command fuel bitness CMD type n ⟨chars, []⟩ = .ok buf) ∧
      ∀ i ∈ buf.written, i < 32

/-- The indices that a conversion writes. -/
theorem conversion_written (call : d.conversion = some (CMD, type)) (bitness : Nat) (n : Int)
    (chars : Nat → Byte) : ∃ buf : Util.Buffer,
      (∀ fuel > 32, Util.command fuel bitness CMD type n ⟨chars, []⟩ = .ok buf) ∧
        ∀ i, i ∈ buf.written ↔ i ≤ (d.numberText n).length := by
  obtain ⟨buf, wrote, run⟩ := conversion_prints call bitness n ⟨chars, []⟩
  refine ⟨buf, run, fun i => ?_⟩
  rw [wrote.written, or_iff_left List.not_mem_nil]

theorem binary_overflows (n : Int) : ¬ Fits .binary n := by
  intro fits
  obtain ⟨buf, run, inside⟩ := fits 4 U32 rfl 0 fun _ => 0
  obtain ⟨buf', run', written⟩ :=
    conversion_written (show Directive.binary.conversion = some (4, U32) from rfl) 0 n fun _ => 0
  obtain rfl := Except.ok.inj ((run 33 (by decide)).symm.trans (run' 33 (by decide)))
  have behind := inside 32 ((written 32).mpr (Nat.le_of_eq (binary_length n).symm))
  exact absurd behind (by decide)

end Numbers

/-- A conversion fits into the buffer, for a number and so for every number, if and only if it
is not the one of `%b`. -/
theorem conversion_fits_iff (d : Directive) (n : Int) : Fits d n ↔ d ≠ .binary := by
  constructor
  · rintro fits rfl
    exact binary_overflows n fits
  · intro other CMD type call bitness chars
    obtain ⟨buf, run, written⟩ := conversion_written call bitness n chars
    have short := numberText_length other n
    exact ⟨buf, run, fun i hi => Nat.lt_of_le_of_lt ((written i).mp hi) short⟩

/-- The NUL behind the digits of 1 is written behind the buffer. -/
theorem conversion_fits_fails :
    Directive.binary.conversion = some (4, U32) ∧ ¬ Fits .binary 1 ∧
      ∃ buf : Util.Buffer, (∀ fuel > 32, Util.command fuel 0 4 U32 1 ⟨fun _ => 0, []⟩ = .ok buf) ∧
        32 ∈ buf.written := by
  obtain ⟨buf, run, written⟩ :=
    conversion_written (show Directive.binary.conversion = some (4, U32) from rfl) 0 1 fun _ => 0
  exact ⟨rfl, binary_overflows 1, buf, run,
    (written 32).mpr (Nat.le_of_eq (binary_length 1).symm)⟩

end HiveRK.Display
