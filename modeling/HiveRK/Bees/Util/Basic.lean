import HiveRK.Machine.Execution
import HiveRK.Machine.Memory

/-!
# The utility module

`bees/util/util.c` converts numbers to strings, and computes powers. Every function selects
one of six types and converts its arguments to it. A string goes to a buffer, whose
`written` records the index of every character that was stored. The functions collect the
digits in `temp_buffer`, the last digit first; here it is the list of its characters.
-/

namespace HiveRK.Util

open Machine

/-! ### Types -/

/-- The types of `bees/beeUtil.h`. -/
inductive ValueType where
  | U32 | I32 | U16 | I16 | U8 | I8
deriving DecidableEq, Repr

namespace ValueType

def code : ValueType → Nat
  | U32 => 0x5520
  | I32 => 0x4920
  | U16 => 0x5510
  | I16 => 0x4910
  | U8 => 0x5508
  | I8 => 0x4908

/-- The type that `switch(type)` selects. -/
def ofCode (type : Nat) : Option ValueType :=
  [U32, I32, U16, I16, U8, I8].find? fun t => t.code = type

def bytes : ValueType → Nat
  | U32 | I32 => 4
  | U16 | I16 => 2
  | U8 | I8 => 1

def width (t : ValueType) : Nat := 8 * t.bytes

def signed : ValueType → Bool
  | I32 | I16 | I8 => true
  | U32 | U16 | U8 => false

/-- What a variable of the type holds after an assignment of `n`. -/
def convert (t : ValueType) (n : Int) : Int :=
  if t.signed then n.bmod (2 ^ t.width) else n % 2 ^ t.width

/-- The type in which a value of the type is computed with. -/
def promoted : ValueType → ValueType
  | U32 => U32
  | _ => I32

end ValueType

/-- The 32 bits of a number. -/
def word (n : Int) : Nat := (n % 2 ^ 32).toNat

/-! ### Buffers -/

structure Buffer where
  chars : Nat → Byte
  written : List Nat

/-- `buf[i] = c`. -/
def Buffer.set (buf : Buffer) (i : Nat) (c : Byte) : Buffer :=
  ⟨Function.update buf.chars i c, i :: buf.written⟩

@[simp] theorem Buffer.set_chars_self (buf : Buffer) (i : Nat) (c : Byte) :
    (buf.set i c).chars i = c := Function.update_self ..

theorem Buffer.set_chars_of_ne (buf : Buffer) {i x : Nat} (h : x ≠ i) (c : Byte) :
    (buf.set i c).chars x = buf.chars x := Function.update_of_ne h ..

@[simp] theorem Buffer.mem_set_written {buf : Buffer} {i x : Nat} {c : Byte} :
    x ∈ (buf.set i c).written ↔ x = i ∨ x ∈ buf.written := List.mem_cons

/-- The character `0`. -/
def zero : Byte := 0x30

/-- The character `-`. -/
def minus : Byte := 0x2d

/-- The loop that takes the digits of `num` off, with the character of each. -/
def digitLoop (base : Nat) (char : Nat → Byte) : Nat → Nat → List Byte → Exec (List Byte)
  | 0, _, _ => .error .fuel
  | fuel + 1, num, temp =>
      if num > 0 then digitLoop base char fuel (num / base) (temp ++ [char (num % base)])
      else .ok temp

/-- The loop `while(i<width){temp_buffer[i++] = '0';}`. -/
def padLoop (width : Nat) : Nat → List Byte → Exec (List Byte)
  | 0, _ => .error .fuel
  | fuel + 1, temp =>
      if temp.length < width then padLoop width fuel (temp ++ [zero]) else .ok temp

/-- The loop `while(i > 0){ buf[j++] = temp_buffer[--i]; }`, with the last `j`. -/
def copyLoop (temp : List Byte) : Nat → Nat → Buffer → Buffer × Nat
  | 0, j, buf => (buf, j)
  | i + 1, j, buf => copyLoop temp i (j + 1) (buf.set j (temp.getD i 0))

/-- The end of every conversion: the characters are copied back, and a NUL behind them. -/
def copyBack (temp : List Byte) (buf : Buffer) : Buffer :=
  let (buf, j) := copyLoop temp temp.length 0 buf
  buf.set j 0

/-! ### Decimal -/

/-- `digit + '0'`. -/
def digitChar (digit : Nat) : Byte := BitVec.ofNat 8 (digit + 0x30)

def numToStrUnsigned (fuel num : Nat) (buf : Buffer) : Exec Buffer :=
  if num = 0 then .ok ((buf.set 0 zero).set 1 0)
  else do
    let temp ← digitLoop 10 digitChar fuel num []
    .ok (copyBack temp buf)

/-- The digits of an `int`. -/
def signedDigitLoop : Nat → Int → List Byte → Exec (List Byte)
  | 0, _, _ => .error .fuel
  | fuel + 1, num, temp =>
      if num > 0 then
        signedDigitLoop fuel (num.tdiv 10) (temp ++ [BitVec.ofInt 8 (num.tmod 10 + 0x30)])
      else .ok temp

/-- The parameters `min`, `max` and `size` are unsigned, and so is every operation of `num`
with one of them. -/
def numToStrSigned (fuel : Nat) (num : Int) (buf : Buffer) (min max size : Nat) : Exec Buffer :=
  let num := ValueType.I32.convert (word num &&& size : Nat)
  if num = 0 then .ok ((buf.set 0 zero).set 1 0)
  else do
    let atMin := word num = min
    let sign := atMin ∨ num < 0
    let add1 : Byte := if atMin then 1 else 0
    let num :=
      if atMin then ValueType.I32.convert max
      else if num < 0 then ValueType.I32.convert (-num)
      else num
    let temp ← signedDigitLoop fuel num []
    let temp := if sign then temp ++ [minus] else temp
    let (buf, j) := copyLoop temp temp.length 0 buf
    let buf := buf.set j 0
    .ok (buf.set (j - 1) (buf.chars (j - 1) + add1))

def numToStr (fuel type : Nat) (num : Int) (buf : Buffer) : Exec Buffer :=
  match ValueType.ofCode type with
  | some .I32 =>
      numToStrSigned fuel (ValueType.I32.convert num) buf (word (-2147483648)) 2147483647 0xFFFFFFFF
  | some .U32 => numToStrUnsigned fuel (ValueType.U32.convert num).toNat buf
  | some .I16 =>
      numToStrSigned fuel (ValueType.I16.convert num) buf (word (-32768)) 32767 0x0000FFFF
  | some .U16 => numToStrUnsigned fuel (ValueType.U16.convert num).toNat buf
  | some .I8 => numToStrSigned fuel (ValueType.I8.convert num) buf (word (-128)) 127 0x000000FF
  | some .U8 => numToStrUnsigned fuel (ValueType.U8.convert num).toNat buf
  | none => .ok buf

/-! ### Hexadecimal and binary -/

def hex : List Byte := "0123456789ABCDEF".toList.map fun c => BitVec.ofNat 8 c.toNat

/-- `num` with the mask of its type. -/
def masked (type : Nat) (num : Int) : Nat :=
  match ValueType.ofCode type with
  | some .I16 | some .U16 => word num &&& 0x0000FFFF
  | some .I8 | some .U8 => word num &&& 0x000000FF
  | _ => word num

def numToHex (fuel type : Nat) (num : Int) (buf : Buffer) : Exec Buffer :=
  let num := masked type num
  if num = 0 then .ok ((buf.set 0 zero).set 1 0)
  else do
    let temp ← digitLoop 16 (fun digit => hex.getD digit 0) fuel num []
    let temp ← match ValueType.ofCode type with
      | some .I32 | some .U32 => padLoop 8 fuel temp
      | some .I16 | some .U16 => padLoop 4 fuel temp
      | some .I8 | some .U8 => padLoop 2 fuel temp
      | none => .ok temp
    .ok (copyBack temp buf)

/-- `bitness` is not initialised, and no other type sets it. -/
def numToBin (fuel bitness type : Nat) (num : Int) (buf : Buffer) : Exec Buffer :=
  let bitness := match ValueType.ofCode type with
    | some .I32 | some .U32 => 32
    | some .I16 | some .U16 => 16
    | some .I8 | some .U8 => 8
    | none => bitness
  let num := masked type num
  if num = 0 then
    .ok (((List.range bitness).foldl (fun buf s => buf.set s zero) buf).set bitness 0)
  else do
    let temp ← digitLoop 2 digitChar fuel num []
    let temp ← padLoop bitness fuel temp
    .ok (copyBack temp buf)

/-- The exported commands that write a string. -/
def command (fuel bitness CMD type : Nat) (num : Int) (buf : Buffer) : Exec Buffer :=
  match CMD with
  | 1 => numToStr fuel type num buf
  | 3 => numToHex fuel type num buf
  | 4 => numToBin fuel bitness type num buf
  | _ => .ok buf

/-! ### Powers -/

/-- The loop of `pow`, which compares `s` with the value `limit` of `num2-1`, and the number
of its iterations. -/
def powLoop (t : ValueType) (num1 : Nat) (limit : Int) : Nat → Int → Mem → Nat → Exec (Mem × Nat)
  | 0, _, _, _ => .error .fuel
  | fuel + 1, s, m, iterations =>
      if s < limit then
        let m := store t.bytes m num1 (load t.bytes m num1 + load t.bytes m num1)
        powLoop t num1 limit fuel (t.convert (s + 1)) m (iterations + 1)
      else .ok (m, iterations)

/-- The six cases of `pow` differ in nothing but the type. -/
def pow (fuel : Nat) (m : Mem) (type num1 : Nat) (exponent : Int) : Exec (Mem × Nat) :=
  match ValueType.ofCode type with
  | some t =>
      let num2 := t.convert exponent
      let m := if num2 < 0 then store t.bytes m num1 0 else m
      powLoop t num1 (t.promoted.convert (num2 - 1)) fuel 0 m 0
  | none => .ok (m, 0)

end HiveRK.Util
