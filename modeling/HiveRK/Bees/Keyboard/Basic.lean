import HiveRK.Machine.Execution
import HiveRK.RingBuffer.Basic

/-!
# The keyboard

`bees/keyboard/keyboard.c`: the interrupt handler turns scancodes into key events and stores
them in a buffer of 64, from which `get_key` takes them. Each function is given the module's
storage and what it reads from the port.
-/

namespace HiveRK.Keyboard

def KMOD_SHIFT : Nat := 1

def KFLAG_RELEASE : Nat := 1

def makeKeyEvent (ascii scancode mods flags : Nat) : Nat :=
  ascii ||| scancode <<< 8 ||| mods <<< 16 ||| flags <<< 24

structure GlobalData where
  buffer : Nat → Nat
  head : Nat
  tail : Nat
  shift : Nat

/-- The characters of `key_map`. -/
def keys : List (Nat × Char) :=
  [(0x02, '1'), (0x03, '2'), (0x04, '3'), (0x05, '4'), (0x06, '5'), (0x07, '6'), (0x08, '7'),
    (0x09, '8'), (0x0A, '9'), (0x0B, '0'), (0x0C, '-'), (0x0D, '='), (0x10, 'q'), (0x11, 'w'),
    (0x12, 'e'), (0x13, 'r'), (0x14, 't'), (0x15, 'y'), (0x16, 'u'), (0x17, 'i'), (0x18, 'o'),
    (0x19, 'p'), (0x1A, '['), (0x1B, ']'), (0x1E, 'a'), (0x1F, 's'), (0x20, 'd'), (0x21, 'f'),
    (0x22, 'g'), (0x23, 'h'), (0x24, 'j'), (0x25, 'k'), (0x26, 'l'), (0x27, ';'),
    (0x28, Char.ofNat 39), (0x29, Char.ofNat 96), (0x2C, 'z'), (0x2D, 'x'), (0x2E, 'c'),
    (0x2F, 'v'), (0x30, 'b'), (0x31, 'n'), (0x32, 'm'), (0x33, ','), (0x34, '.'), (0x35, '/'),
    (0x39, ' '), (0x0E, Char.ofNat 8), (0x1C, Char.ofNat 10), (0x0F, Char.ofNat 9)]

/-- The characters of `shift_map`. -/
def shiftKeys : List (Nat × Char) :=
  [(0x02, '!'), (0x03, '@'), (0x04, '#'), (0x05, '$'), (0x06, '%'), (0x07, '^'), (0x08, '&'),
    (0x09, '*'), (0x0A, '('), (0x0B, ')'), (0x0C, '_'), (0x0D, '+'), (0x10, 'Q'), (0x11, 'W'),
    (0x12, 'E'), (0x13, 'R'), (0x14, 'T'), (0x15, 'Y'), (0x16, 'U'), (0x17, 'I'), (0x18, 'O'),
    (0x19, 'P'), (0x1A, '{'), (0x1B, '}'), (0x1E, 'A'), (0x1F, 'S'), (0x20, 'D'), (0x21, 'F'),
    (0x22, 'G'), (0x23, 'H'), (0x24, 'J'), (0x25, 'K'), (0x26, 'L'), (0x27, ':'),
    (0x28, Char.ofNat 34), (0x29, '~'), (0x2C, 'Z'), (0x2D, 'X'), (0x2E, 'C'), (0x2F, 'V'),
    (0x30, 'B'), (0x31, 'N'), (0x32, 'M'), (0x33, '<'), (0x34, '>'), (0x35, '?'), (0x39, ' '),
    (0x0E, Char.ofNat 8), (0x1C, Char.ofNat 10), (0x0F, Char.ofNat 9)]

def keyMap (sc : Nat) : Nat := (keys.lookup sc).elim 0 Char.toNat

def shiftMap (sc : Nat) : Nat := (shiftKeys.lookup sc).elim 0 Char.toNat

/-- The state of the shift keys behind a scancode. -/
def shiftAfter (shift sc : Nat) : Nat :=
  if sc &&& 0x7F = 42 ∨ sc &&& 0x7F = 54 then (if sc &&& 0x80 = 0 then 1 else 0) else shift

/-- The event for a scancode, with the new state of the shift keys. -/
def keyEvent (shift sc : Nat) : Nat :=
  makeKeyEvent (if shift ≠ 0 then shiftMap (sc &&& 0x7F) else keyMap (sc &&& 0x7F)) (sc &&& 0x7F)
    (if shift ≠ 0 then KMOD_SHIFT else 0) (if sc &&& 0x80 ≠ 0 then KFLAG_RELEASE else 0)

/-- `interrupt_handler`. It reads the port twice and uses what it read last. -/
def interruptHandler (global : GlobalData) (_scancode sc : Nat) : GlobalData :=
  let shift := shiftAfter global.shift sc
  { buffer := Function.update global.buffer global.head (keyEvent shift sc)
    head := (global.head + 1) % 64
    tail := global.tail
    shift := shift }

/-- What `bee_init` does to the storage. -/
def beeInit (global : GlobalData) : GlobalData := { global with head := 0, tail := 0, shift := 0 }

/-- `get_key`, with what it stores at its output pointer. -/
def getKey (global : GlobalData) : GlobalData × Nat :=
  if global.head = global.tail then (global, 0)
  else ({ global with tail := (global.tail + 1) % 64 }, global.buffer global.tail)

/-- What `is_there_data` stores at its output pointer. -/
def isThereData (global : GlobalData) : Nat := if global.head = global.tail then 0 else 1

end HiveRK.Keyboard
