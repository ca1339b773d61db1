import HiveRK.Bees.PIT.Basic
import HiveRK.Polling.Basic

/-!
# Sleeping

`sleep` compares the counter with its target, without regard to a wrap. So it waits until the
counter has reached the target from below, and not at all if the target is not above it. That
is the requested number of ticks unless the product of the frequency and the time, or its sum
with the counter, exceeds 32 bits.
-/

namespace HiveRK.PIT

open Machine Polling

/-- A tick. -/
def tick (global : GlobalData) : GlobalData := (interruptHandler global).1

/-- The loop in `sleep` tests its guard at least once between two ticks. -/
def SleepStep (target : Word) : Wait GlobalData → Label → Wait GlobalData → Prop :=
  Step tick fun global => ¬ Waiting target global

section Counter

variable {global : GlobalData} {target : Word} {n : Nat}

theorem ticks_iterate (n : Nat) (global : GlobalData) :
    (tick^[n] global).ticks.toNat = (global.ticks.toNat + n) % 4294967296 := by
  induction n with
  | zero =>
      rw [Function.iterate_zero, id_eq, Nat.add_zero, Nat.mod_eq_of_lt global.ticks.isLt]
  | succ n ih =>
      rw [Function.iterate_succ_apply']
      show ((tick^[n] global).ticks + 1).toNat = _
      rw [BitVec.toNat_add, ih]
      show ((global.ticks.toNat + n) % 4294967296 + 1) % 4294967296 = _
      omega

theorem waiting_iterate (target : Word) (n : Nat) (global : GlobalData) :
    Waiting target (tick^[n] global) ↔
      (global.ticks.toNat + n) % 4294967296 < target.toNat := by
  rw [← ticks_iterate]
  rfl

/-- The loop waits until the counter has reached the target from below. -/
theorem first_iff : First tick (fun global => ¬ Waiting target global) global n ↔
    n = target.toNat - global.ticks.toNat := by
  have bound := target.isLt
  have start := global.ticks.isLt
  have reached : First tick (fun global => ¬ Waiting target global) global
      (target.toNat - global.ticks.toNat) := by
    constructor
    · rw [waiting_iterate]
      omega
    · intro m hm
      rw [not_not, waiting_iterate]
      omega
  constructor
  · exact fun first => first.unique reached
  · rintro rfl
    exact reached

/-- The product and the sum are those of unbounded integers, or the loop waits for another number
of ticks. -/
theorem targetTicks_iff (global : GlobalData) (ms : Word) :
    global.freqHz.toNat * ms.toNat / 1000 =
        (targetTicks global ms).toNat - global.ticks.toNat ↔
      global.freqHz.toNat * ms.toNat < 2 ^ 32 ∧
        global.ticks.toNat + global.freqHz.toNat * ms.toNat / 1000 < 2 ^ 32 := by
  have value : (targetTicks global ms).toNat =
      (global.ticks.toNat + global.freqHz.toNat * ms.toNat % 4294967296 / 1000) % 4294967296 := by
    rw [targetTicks, BitVec.toNat_add, BitVec.toNat_udiv, BitVec.toNat_mul]
    rfl
  have start := global.ticks.isLt
  rw [value]
  generalize global.freqHz.toNat * ms.toNat = product
  omega

/-- With the target behind the counter the first test ends the loop. -/
theorem returns_at_once (behind : ¬ Waiting target global) :
    Runs (SleepStep target) (start global) [.poll] ⟨global, 0, true, some 0⟩ := by
  have step : SleepStep target (start global) .poll ⟨global, 0, true, some 0⟩ :=
    ⟨rfl, (poll_of_done (w := start global) behind).symm⟩
  exact .snoc .nil step

theorem too_early (some : n ≠ 0) : ¬ ReturnsAfter n ⟨global, 0, true, .some 0⟩ := fun returns =>
  some (returns.only 0 rfl).symm

end Counter

/-- `sleep` waits for the requested number of ticks in every run, if and only if the product of
the frequency and the time fits into 32 bits and so does the counter after these ticks. -/
theorem sleep_exact_iff (global : GlobalData) (ms : Word) :
    (∀ labels w, Runs (SleepStep (targetTicks global ms)) (start global) labels w →
        ReturnsAfter (global.freqHz.toNat * ms.toNat / 1000) w) ↔
      global.freqHz.toNat * ms.toNat < 2 ^ 32 ∧
        global.ticks.toNat + global.freqHz.toNat * ms.toNat / 1000 < 2 ^ 32 := by
  rw [← targetTicks_iff, ← first_iff]
  exact returnsAfter_iff

/-- A second at 100 Hz is 100 ticks. When the counter is about to wrap, `sleep` returns at once,
and so it does for a time whose product with the frequency has wrapped. -/
theorem sleep_exact_fails :
    let late : GlobalData := ⟨4294967280, 0, 100⟩
    let long : GlobalData := ⟨0, 0, 100⟩
    Runs (SleepStep (targetTicks late 1000)) (start late) [.poll] ⟨late, 0, true, some 0⟩ ∧
      ¬ ReturnsAfter (100 * 1000 / 1000) ⟨late, 0, true, some 0⟩ ∧
      Runs (SleepStep (targetTicks long 42949673)) (start long) [.poll] ⟨long, 0, true, some 0⟩ ∧
      ¬ ReturnsAfter (100 * 42949673 / 1000) ⟨long, 0, true, some 0⟩ := by
  intro late long
  have wrapped : ¬ Waiting (targetTicks late 1000) late := by decide
  have wrapped' : ¬ Waiting (targetTicks long 42949673) long := by decide
  exact ⟨returns_at_once wrapped, too_early (by decide), returns_at_once wrapped',
    too_early (by decide)⟩

end HiveRK.PIT
