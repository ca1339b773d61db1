import HiveRK.Machine.Execution
import HiveRK.Machine.Memory

/-!
# The display

`bees/display/display.c`: characters go to the VGA text buffer, two bytes a cell, and the
cursor is kept in two registers of the CRT controller, which return what was last written
to them. Offsets are `int`s, and nothing keeps them inside the buffer; `written` records
the address of every byte that was stored through `vidmem`.

`printStr` and `print` are loops around `printChar`, which is a parameter of theirs here. So
the same loops also say which characters they print, without a display. Strings are given
by their characters, as they are when they are read, and the strings that the utility
module makes of numbers are given by `util`.
-/

namespace HiveRK.Display

open Machine

def VGA_CTRL_REGISTER : Nat := 0x3d4

def VGA_DATA_REGISTER : Nat := 0x3d5

def VGA_OFFSET_LOW : Byte := 0x0f

def VGA_OFFSET_HIGH : Byte := 0x0e

def VIDEO_ADDRESS : Nat := 0xb8000

def MAX_ROWS : Nat := 25

def MAX_COLS : Nat := 80

def DEFAULT_COLOR : Int := 0x02

structure Vga where
  mem : Mem
  index : Byte
  crtc : Byte → Byte
  written : List Nat

def outb (d : Vga) (port : Nat) (data : Byte) : Vga :=
  if port = VGA_CTRL_REGISTER then { d with index := data }
  else if port = VGA_DATA_REGISTER then { d with crtc := Function.update d.crtc d.index data }
  else d

def inb (d : Vga) (port : Nat) : Byte :=
  if port = VGA_DATA_REGISTER then d.crtc d.index else 0

/-- The address of `vidmem[offset]`. -/
def vidmem (offset : Int) : Nat := ((VIDEO_ADDRESS + offset) % 2 ^ 32).toNat

def peek (d : Vga) (offset : Int) : Byte := d.mem (vidmem offset)

/-- `vidmem[offset] = v`. -/
def poke (d : Vga) (offset : Int) (v : Byte) : Vga :=
  { d with mem := Function.update d.mem (vidmem offset) v
           written := vidmem offset :: d.written }

/-- The value of an `int` computation. -/
def int32 (n : Int) : Int := n.bmod (2 ^ 32)

/-! ### The cursor -/

def setCursor (d : Vga) (offset : Int) : Vga :=
  let offset := if offset ≠ 0 then offset.tdiv 2 else offset
  let d := outb d VGA_CTRL_REGISTER VGA_OFFSET_HIGH
  let d := outb d VGA_DATA_REGISTER (BitVec.ofInt 8 (offset >>> (8 : Nat)))
  let d := outb d VGA_CTRL_REGISTER VGA_OFFSET_LOW
  outb d VGA_DATA_REGISTER (BitVec.ofInt 8 offset)

def getCursor (d : Vga) : Vga × Int :=
  let d := outb d VGA_CTRL_REGISTER VGA_OFFSET_HIGH
  let high := inb d VGA_DATA_REGISTER
  let d := outb d VGA_CTRL_REGISTER VGA_OFFSET_LOW
  let low := inb d VGA_DATA_REGISTER
  (d, ((high.toNat <<< 8 + low.toNat : Nat) : Int) * 2)

/-- The command `cursor`, with its three arguments. -/
def cursor (d : Vga) (type x y : Int) : Vga :=
  if type = 0 then
    let cursorX := x.tmod MAX_COLS
    let cursorY := y.tmod MAX_ROWS
    setCursor d (cursorY * MAX_COLS * 2 + cursorX * 2)
  else if type = 1 then
    let (d, offset) := getCursor d
    let cursorY := int32 (y + (offset.tdiv 2).tdiv MAX_COLS)
    let cursorX := int32 (x + (offset.tdiv 2).tmod MAX_COLS)
    let cursorY := cursorY.tmod MAX_ROWS
    let cursorX := cursorX.tmod MAX_COLS
    setCursor d (cursorY * MAX_COLS * 2 + cursorX * 2)
  else if type = 2 then
    let (d, pos) := getCursor d
    let m := store32 d.mem (y % 2 ^ 32).toNat ((pos.tdiv 2).tdiv MAX_COLS).toNat
    { d with mem := store32 m (x % 2 ^ 32).toNat ((pos.tdiv 2).tmod MAX_COLS).toNat }
  else d

/-! ### Characters -/

/-- The second byte of a cell. -/
def colorByte (color : Int) : Byte := BitVec.ofInt 8 (if color < 0 then DEFAULT_COLOR else color)

def setChar (d : Vga) (character : Byte) (offset color : Int) : Vga :=
  if offset.tmod 2 ≠ 0 then d
  else poke (poke d offset character) (offset + 1) (colorByte color)

def shiftUp (d : Vga) : Vga :=
  let d := (List.range (MAX_ROWS * MAX_COLS * 2 - MAX_COLS * 2)).foldl
    (fun d (s : Nat) => poke d s (peek d (s + 160))) d
  (List.range MAX_COLS).foldl (fun d (s : Nat) =>
    poke (poke d (s * 2 + MAX_ROWS * MAX_COLS * 2 - MAX_COLS * 2) 0x20)
      (s * 2 + 1 + MAX_ROWS * MAX_COLS * 2 - MAX_COLS * 2) (BitVec.ofInt 8 DEFAULT_COLOR)) d

def newline : Byte := 0x0a

def backspace : Byte := 0x08

def printChar (d : Vga) (ch : Byte) (color : Int) : Vga :=
  let (d, offset) := getCursor d
  let full := offset ≥ MAX_ROWS * MAX_COLS * 2
  let d := if full then shiftUp d else d
  let offset := if full then offset - 2 * MAX_COLS else offset
  if ch = newline then
    let offset := offset + MAX_COLS * 2
    setCursor d (offset - offset.tmod (2 * MAX_COLS))
  else if ch = backspace then setCursor (setChar d 0x20 (offset - 2) color) (offset - 2)
  else setCursor (setChar d ch offset color) (offset + 2)

def clear (d : Vga) : Vga :=
  let d := (List.range (MAX_COLS * MAX_ROWS)).foldl (fun d (i : Nat) =>
    poke (poke d (i * 2) 0x20) (i * 2 + 1) (BitVec.ofInt 8 DEFAULT_COLOR)) d
  setCursor d 0

/-- The command `putc`. -/
def putc (d : Vga) (ch : Int) : Vga := printChar d (BitVec.ofInt 8 ch) DEFAULT_COLOR

/-! ### Strings -/

/-- The code of an ASCII character. -/
def ascii (c : Char) : Byte := BitVec.ofNat 8 c.toNat

def hexToInt (c : Byte) : Int :=
  if ascii '0' ≤ c ∧ c ≤ ascii '9' then c.toNat - 48
  else if ascii 'a' ≤ c ∧ c ≤ ascii 'f' then c.toNat - 97 + 10
  else if ascii 'A' ≤ c ∧ c ≤ ascii 'F' then c.toNat - 65 + 10
  else -1

def isHexDigit (c : Byte) : Bool :=
  (ascii '0' ≤ c ∧ c ≤ ascii '9') ∨ (ascii 'a' ≤ c ∧ c ≤ ascii 'f') ∨
    (ascii 'A' ≤ c ∧ c ≤ ascii 'F')

def U32 : Nat := 0x5520

def I32 : Nat := 0x4920

/-- The arguments of `print` behind the format, the strings that pointers among them point
to, and what the utility module's command `CMD` writes for a number of a type. -/
structure Inputs where
  args : Nat → Int
  str : Int → Nat → Byte
  util : Nat → Nat → Int → Nat → Byte

section Loops

variable {σ : Type} (printChar : σ → Byte → Int → σ)

/-- The loop of `printStr` from `index` on. -/
def printStr (str : Nat → Byte) (color : Int) : Nat → Nat → σ → Exec σ
  | 0, _, _ => .error .fuel
  | fuel + 1, index, s =>
      if str index = 0 then .ok s
      else printStr str color fuel (index + 1) (printChar s (str index) color)

/-- The colour that the digits behind `%#` select, and the index behind them. -/
def hexColor (str : Nat → Byte) (index : Nat) (color : Int) : Int × Nat :=
  if str index = ascii '$' then (DEFAULT_COLOR, index)
  else if isHexDigit (str index) then
    let txtColor := (hexToInt (str index)).toNat
    if isHexDigit (str (index + 1)) then
      let bgColor := (hexToInt (str (index + 1))).toNat
      (((bgColor <<< 4 &&& 0xF0) ||| (txtColor &&& 0xF) : Nat), index + 2)
    else (((DEFAULT_COLOR.toNat &&& 0xF0) ||| (txtColor &&& 0xF) : Nat), index + 1)
  else (color, index)

/-- The loop of `print` from `index` on. -/
def print (str : Nat → Byte) (inputs : Inputs) : Nat → Nat → Nat → Int → σ → Exec σ
  | 0, _, _, _, _ => .error .fuel
  | fuel + 1, index, argsIndex, color, s =>
      let arg := inputs.args argsIndex
      let number := fun CMD type s => do
        let s ← printStr printChar (inputs.util CMD type arg) color fuel 0 s
        print str inputs fuel (index + 2) (argsIndex + 1) color s
      if str index = 0 then .ok s
      else if str index = ascii '%' then
        let directive := str (index + 1)
        if directive = ascii 'c' then
          print str inputs fuel (index + 2) (argsIndex + 1) color
            (printChar s (BitVec.ofInt 8 arg) color)
        else if directive = ascii 's' then do
          let s ← printStr printChar (inputs.str arg) color fuel 0 s
          print str inputs fuel (index + 2) (argsIndex + 1) color s
        else if directive = ascii 'd' ∨ directive = ascii 'i' then number 1 I32 s
        else if directive = ascii 'u' then number 1 U32 s
        else if directive = ascii 'x' then number 3 U32 s
        else if directive = ascii 'b' then number 4 U32 s
        else if directive = ascii 'p' then
          number 3 U32 (printChar (printChar s (ascii '0') color) (ascii 'x') color)
        else if directive = ascii '#' then
          let next := hexColor str (index + 2) color
          print str inputs fuel next.2 argsIndex next.1 s
        else if directive = ascii '%' then
          print str inputs fuel (index + 2) argsIndex color (printChar s (ascii '%') color)
        else print str inputs fuel (index + 1) argsIndex color (printChar s (ascii '%') color)
      else print str inputs fuel (index + 1) argsIndex color (printChar s (str index) color)

end Loops

end HiveRK.Display
