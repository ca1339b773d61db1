import HiveRK.Bees.Util.Basic

/-!
# The control console

`queen/main.c` has a console for the time before any module runs. `ControlComb` reads
scancodes and edits a line in a buffer of 61 bytes; on Enter it gives the buffer to
`handleCMD`, which has `parseArgs` split it into five buffers of the same size. The core
prints numbers with an `int_to_string` of its own. What is shown while a line is edited
reads the buffer and changes nothing in it; it is left out.
-/

namespace HiveRK.Control

open Machine Util

/-! ### Numbers -/

def intToString (fuel : Nat) (num : Int) (buffer : Buffer) : Exec Buffer :=
  if num = 0 then .ok ((buffer.set 0 zero).set 1 0)
  else do
    let sign := num < 0
    let num := if num < 0 then ValueType.I32.convert (-num) else num
    let temp ← signedDigitLoop fuel num []
    let temp := if sign then temp ++ [minus] else temp
    .ok (copyBack temp buffer)

/-! ### Scancodes -/

def space : Byte := 0x20

/-- The character `\n`. -/
def enter : Byte := 0x0A

/-- The character `\b`. -/
def backspace : Byte := 0x08

/-- The characters of `scancode_to_ascii`. -/
def scancodeToAscii : List (Nat × Char) :=
  [(0x02, '1'), (0x03, '2'), (0x04, '3'), (0x05, '4'), (0x06, '5'), (0x07, '6'), (0x08, '7'),
    (0x09, '8'), (0x0A, '9'), (0x0B, '0'), (0x0C, '-'), (0x0D, '='), (0x1A, '['), (0x1B, ']'),
    (0x27, ';'), (0x28, Char.ofNat 39), (0x29, Char.ofNat 96), (0x2B, Char.ofNat 92),
    (0x33, ','), (0x34, '.'), (0x35, '/'), (0x10, 'q'), (0x11, 'w'), (0x12, 'e'), (0x13, 'r'),
    (0x14, 't'), (0x15, 'y'), (0x16, 'u'), (0x17, 'i'), (0x18, 'o'), (0x19, 'p'), (0x1E, 'a'),
    (0x1F, 's'), (0x20, 'd'), (0x21, 'f'), (0x22, 'g'), (0x23, 'h'), (0x24, 'j'), (0x25, 'k'),
    (0x26, 'l'), (0x2C, 'z'), (0x2D, 'x'), (0x2E, 'c'), (0x2F, 'v'), (0x30, 'b'), (0x31, 'n'),
    (0x32, 'm'), (0x39, ' '), (0x1C, Char.ofNat 10), (0x0E, Char.ofNat 8)]

def scancodeToChar (sc : Byte) : Byte :=
  if sc &&& 0x80 ≠ 0 then 0
  else (scancodeToAscii.lookup sc.toNat).elim 0 fun ch => BitVec.ofNat 8 ch.toNat

/-! ### Words -/

/-- The loop that copies the characters of a word, with the last `i`. -/
def wordLoop (base : Nat → Byte) : Nat → Nat → Nat → Buffer → Exec (Nat × Buffer)
  | 0, _, _, _ => .error .fuel
  | fuel + 1, i, argi, s =>
      if base i ≠ 0 ∧ base i ≠ space then
        wordLoop base fuel (i + 1) (argi + 1) ((s.set argi (base i)).set (argi + 1) 0)
      else .ok (i, s)

/-- The loop `while(base[i]==' '){i++;}`. -/
def spaceLoop (base : Nat → Byte) : Nat → Nat → Exec Nat
  | 0, _ => .error .fuel
  | fuel + 1, i => if base i = space then spaceLoop base fuel (i + 1) else .ok i

/-- The buffers `s1` to `s5` of `parseArgs`. -/
structure Args where
  s1 : Buffer
  s2 : Buffer
  s3 : Buffer
  s4 : Buffer
  s5 : Buffer

def parseArgs (fuel : Nat) (base : Nat → Byte) (s : Args) : Exec Args := do
  let s : Args := ⟨s.s1.set 0 0, s.s2.set 0 0, s.s3.set 0 0, s.s4.set 0 0, s.s5.set 0 0⟩
  let (i, s1) ← wordLoop base fuel 0 0 s.s1
  let s := { s with s1 := s1 }
  let i ← spaceLoop base fuel i
  if base i = 0 then .ok s else
  let (i, s2) ← wordLoop base fuel i 0 s.s2
  let s := { s with s2 := s2 }
  let i ← spaceLoop base fuel i
  if base i = 0 then .ok s else
  let (i, s3) ← wordLoop base fuel i 0 s.s3
  let s := { s with s3 := s3 }
  let i ← spaceLoop base fuel i
  if base i = 0 then .ok s else
  let (i, s4) ← wordLoop base fuel i 0 s.s4
  let s := { s with s4 := s4 }
  let i ← spaceLoop base fuel i
  if base i = 0 then .ok s else
  let (_, s5) ← wordLoop base fuel i 0 s.s5
  .ok { s with s5 := s5 }

/-! ### The line -/

/-- The buffer, the index, and the contents of the buffer at every call of `handleCMD`. -/
structure Console where
  buf : Buffer
  index : Nat
  passed : List (Nat → Byte)

/-- `ControlComb` before the first scancode. The buffer is not initialised. -/
def Console.start (chars : Nat → Byte) : Console := ⟨⟨chars, []⟩, 0, []⟩

/-- What `ControlComb` does with a scancode, and whether it returns then. Of `handleCMD`, which
does not write to the buffer, it sees nothing but the answer. -/
def Console.read (handleCMD : (Nat → Byte) → Bool) (c : Console) (sc : Byte) : Console × Bool :=
  let key := scancodeToChar sc
  if key = 0 then (c, false)
  else if key = backspace then
    if c.index = 0 then (c, false)
    else ({ c with index := c.index - 1, buf := c.buf.set (c.index - 1) 0 }, false)
  else if key = enter then
    if c.index > 0 then
      let c := { c with passed := c.passed ++ [c.buf.chars] }
      if handleCMD c.buf.chars then (c, true)
      else ({ c with buf := c.buf.set 0 0, index := 0 }, false)
    else (c, false)
  else if c.index < 60 then
    ({ c with buf := (c.buf.set c.index key).set (c.index + 1) 0, index := c.index + 1 }, false)
  else (c, false)

/-- `ControlComb` with these scancodes, and those of them that it leaves when it returns. -/
def controlComb (handleCMD : (Nat → Byte) → Bool) : Console → List Byte → Console × List Byte
  | c, [] => (c, [])
  | c, sc :: scs =>
      match c.read handleCMD sc with
      | (c, true) => (c, scs)
      | (c, false) => controlComb handleCMD c scs

end HiveRK.Control
