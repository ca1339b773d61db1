import HiveRK.Machine.Memory

/-!
# The timer

`bees/PIT/PIT.c`: channel 0 of the interval timer divides its clock by a count, and each of
its interrupts is a tick. The module counts the ticks in 32 bits, and `sleep` waits until the
counter has reached a target that it computes from the recorded frequency.

The channel takes its count in two bytes, the low one first.
-/

namespace HiveRK.PIT

open Machine

abbrev Word := BitVec 32

def PIT_CHANNEL0_DATA : Nat := 0x40

def PIT_COMMAND : Nat := 0x43

def PIT_FREQUENCY : Word := 1193182

structure GlobalData where
  ticks : Word
  tickHandler : Word
  freqHz : Word

/-- The count of channel 0, and the low byte of the next one while its high byte is awaited. -/
structure Channel where
  low : Option Byte
  count : BitVec 16

def outb (c : Channel) (port : Nat) (data : Byte) : Channel :=
  if port = PIT_COMMAND then
    -- Bits 7 and 6 select channel 0, and bits 5 and 4 both bytes of the count.
    if data >>> 4 = 3 then { c with low := none } else c
  else if port = PIT_CHANNEL0_DATA then
    match c.low with
    | none => { c with low := some data }
    | some low => ⟨none, data ++ low⟩
  else c

/-- The three writes that set the divisor. -/
def setDivisor (c : Channel) (divisor : BitVec 16) : Channel :=
  let c := outb c PIT_COMMAND 0x36
  let c := outb c PIT_CHANNEL0_DATA ((divisor &&& 0xFF).setWidth 8)
  outb c PIT_CHANNEL0_DATA ((divisor >>> 8 &&& 0xFF).setWidth 8)

structure Timer where
  global : GlobalData
  channel : Channel

/-- Whether a call returns. The division by 0 faults. -/
inductive Outcome where
  | returned
  | divideError
deriving DecidableEq, Repr

/-- The handler that is called for a tick is the second component. -/
def interruptHandler (global : GlobalData) : GlobalData × Option Word :=
  let global := { global with ticks := global.ticks + 1 }
  (global, if global.tickHandler ≠ 0 then some global.tickHandler else none)

def beeInit (c : Channel) : Timer :=
  let frequency : Word := 100
  let global : GlobalData := ⟨0, 0, frequency⟩
  let divisor := (PIT_FREQUENCY / frequency).setWidth 16
  ⟨global, setDivisor c divisor⟩

/-- The target of `sleep`. -/
def targetTicks (global : GlobalData) (ms : Word) : Word :=
  let start := global.ticks
  start + (global.freqHz * ms) / 1000

/-- The guard of the loop in `sleep`. -/
def Waiting (target : Word) (global : GlobalData) : Prop := global.ticks < target

instance (target : Word) : DecidablePred (Waiting target) := fun global =>
  inferInstanceAs (Decidable (global.ticks < target))

def registerHandler (global : GlobalData) (handler : Word) : GlobalData :=
  { global with tickHandler := handler }

/-- What `get_ticks` stores at its output pointer. -/
def getTicks (global : GlobalData) : Word := global.ticks

def setFrequency (t : Timer) (frequency : Word) : Timer × Outcome :=
  let t := { t with global := { t.global with freqHz := frequency } }
  if frequency = 0 then (t, .divideError)
  else
    let divisor := (PIT_FREQUENCY / frequency).setWidth 16
    ({ t with channel := setDivisor t.channel divisor }, .returned)

section Channel

theorem lowByte (x : BitVec 16) : (x &&& 0xFF).setWidth 8 = x.setWidth 8 := by
  rw [BitVec.setWidth_and]
  exact BitVec.and_allOnes

/-- The channel joins the two bytes again, whatever it awaited before. -/
theorem setDivisor_eq (c : Channel) (divisor : BitVec 16) :
    setDivisor c divisor = ⟨none, divisor⟩ := by
  have high : (divisor >>> 8).setWidth 8 = divisor.extractLsb' 8 8 :=
    BitVec.eq_of_toNat_eq (by simp)
  have low : divisor.setWidth 8 = divisor.extractLsb' 0 8 := BitVec.eq_of_toNat_eq (by simp)
  show Channel.mk none ((divisor >>> 8 &&& 0xFF).setWidth 8 ++ (divisor &&& 0xFF).setWidth 8) = _
  rw [lowByte, lowByte, high, low]
  exact congrArg (Channel.mk none) BitVec.extractLsb'_append_extractLsb'

end Channel

end HiveRK.PIT
