import HiveRK.Bees.PIT.Basic
import HiveRK.Machine.Execution

/-!
# The frequency of the timer

`set_frequency` records every frequency it is given, and programs the low 16 bits of the
quotient. The record matches the channel as long as the quotients fit into 16 bits and are
not 0.
-/

namespace HiveRK.PIT

open Machine

inductive Op where
  | setFrequency (frequency : Word)
  | registerHandler (handler : Word)
  | interrupt

def Timer.apply (t : Timer) : Op → Timer × Outcome
  | .setFrequency frequency => setFrequency t frequency
  | .registerHandler handler =>
      ({ t with global := registerHandler t.global handler }, .returned)
  | .interrupt => ({ t with global := (interruptHandler t.global).1 }, .returned)

def TimerStep (t : Timer) (op : Op) (t' : Timer) : Prop := t' = (t.apply op).1

/-- The programmed count is the quotient for the recorded frequency. -/
structure Matches (t : Timer) : Prop where
  quotient : t.channel.count.toNat = 1193182 / t.global.freqHz.toNat
  positive : 1 ≤ t.channel.count.toNat
  fits : t.channel.count.toNat ≤ 65535

/-- The operation does not divide by 0, and the record matches after it. -/
def Answered (t : Timer) (op : Op) (t' : Timer) : Prop :=
  (t.apply op).2 = .returned ∧ Matches t'

/-- A frequency whose quotient fits into 16 bits and is not 0. -/
def InRange : Op → Prop
  | .setFrequency frequency => 19 ≤ frequency.toNat ∧ frequency.toNat ≤ 1193182
  | .registerHandler _ | .interrupt => True

section Calls

variable {t : Timer} {op : Op}

theorem divisor_toNat (frequency : Word) :
    ((PIT_FREQUENCY / frequency).setWidth 16).toNat = 1193182 / frequency.toNat % 65536 := by
  rw [BitVec.toNat_setWidth, BitVec.toNat_udiv]
  rfl

/-- The count after a division that does not fault. -/
theorem setFrequency_count (t : Timer) {frequency : Word} (some : frequency ≠ 0) :
    (setFrequency t frequency).1.channel.count.toNat = 1193182 / frequency.toNat % 65536 := by
  rw [setFrequency, if_neg some]
  show (setDivisor t.channel ((PIT_FREQUENCY / frequency).setWidth 16)).count.toNat = _
  rw [setDivisor_eq]
  exact divisor_toNat frequency

/-- The quotients that are not 0 and fit into 16 bits. -/
theorem quotient_iff {frequency : Nat} (some : frequency ≠ 0) :
    1193182 / frequency % 65536 = 1193182 / frequency ∧ 1 ≤ 1193182 / frequency % 65536 ↔
      19 ≤ frequency ∧ frequency ≤ 1193182 := by
  have positive := Nat.pos_of_ne_zero some
  have least : 1 ≤ 1193182 / frequency ↔ frequency ≤ 1193182 := Nat.one_le_div_iff positive
  have most : 1193182 / frequency < 65536 ↔ 1193182 < 65536 * frequency :=
    Nat.div_lt_iff_lt_mul positive
  omega

theorem setFrequency_answered_iff (t : Timer) (frequency : Word) :
    Answered t (.setFrequency frequency) (setFrequency t frequency).1 ↔
      InRange (.setFrequency frequency) := by
  by_cases zero : frequency = 0
  · have faults : (setFrequency t frequency).2 = .divideError := by
      rw [setFrequency, if_pos zero]
    refine iff_of_false (fun answered => ?_) fun range => ?_
    · exact nomatch faults.symm.trans answered.1
    · rw [InRange, zero] at range
      exact absurd range.1 (by decide)
  · have returned : (setFrequency t frequency).2 = .returned := by
      rw [setFrequency, if_neg zero]
    have recorded : (setFrequency t frequency).1.global.freqHz = frequency := by
      rw [setFrequency, if_neg zero]
    have count := setFrequency_count t zero
    rw [InRange, ← quotient_iff fun h => zero (BitVec.eq_of_toNat_eq h)]
    constructor
    · rintro ⟨_, quotient, positive, _⟩
      rw [count] at quotient positive
      rw [recorded] at quotient
      exact ⟨quotient, positive⟩
    · rintro ⟨quotient, positive⟩
      refine ⟨returned, ?_, ?_, ?_⟩
      · rw [count, recorded, quotient]
      · rw [count]
        exact positive
      · rw [count]
        exact Nat.le_of_lt_succ (Nat.mod_lt _ (by decide))

/-- The count of `bee_init` is that of `set_frequency` with 100. -/
theorem beeInit_matches (c : Channel) : Matches (beeInit c) :=
  ((setFrequency_answered_iff ⟨⟨0, 0, 0⟩, c⟩ 100).mpr ⟨by decide, by decide⟩).2

theorem answered_iff (before : Matches t) : Answered t op (t.apply op).1 ↔ InRange op := by
  cases op with
  | setFrequency frequency => exact setFrequency_answered_iff t frequency
  | registerHandler handler =>
      exact iff_of_true ⟨rfl, before.quotient, before.positive, before.fits⟩ trivial
  | interrupt => exact iff_of_true ⟨rfl, before.quotient, before.positive, before.fits⟩ trivial

end Calls

/-- After `bee_init` the record matches the channel. In a run from there no call divides by 0 and
the record matches in every state, if and only if every frequency in it is in range. -/
theorem frequency_matches_iff (c : Channel) :
    Matches (beeInit c) ∧ ∀ ops t,
      Runs (fun t op t' => TimerStep t op t' ∧ Answered t op t') (beeInit c) ops t ↔
        Runs (fun t op t' => TimerStep t op t' ∧ InRange op) (beeInit c) ops t := by
  have start := beeInit_matches c
  refine ⟨start, fun ops t => ⟨fun run => ?_, fun run => ?_⟩⟩
  · refine (run.imp Matches start ?_).1
    rintro t op _ before ⟨rfl, answered⟩
    exact ⟨⟨rfl, (answered_iff before).mp answered⟩, answered.2⟩
  · refine (run.imp Matches start ?_).1
    rintro t op _ before ⟨rfl, range⟩
    have answered := (answered_iff before).mpr range
    exact ⟨⟨rfl, answered⟩, answered.2⟩

/-- At 10 Hz the quotient is 119318, and 53782 is programmed. The frequency 0 is divided by. -/
theorem frequency_matches_fails :
    let t := beeInit ⟨none, 0⟩
    (t.apply (.setFrequency 10)).1.channel.count = 53782 ∧
      (t.apply (.setFrequency 10)).1.global.freqHz = 10 ∧
      ¬ Matches (t.apply (.setFrequency 10)).1 ∧
      (t.apply (.setFrequency 0)).2 = .divideError := by
  refine ⟨by decide, by decide, fun same => ?_, by decide⟩
  exact absurd same.quotient (by decide)

end HiveRK.PIT
