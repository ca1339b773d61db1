import HiveRK.Machine.Execution
import Mathlib.Logic.Function.Iterate

/-!
# Polling for a condition

A loop polls a condition on a state until it holds, and the state changes by events only. The
loop polls at least once between two events, so it sees the state after each of them. It
returns at the first event after which the condition holds, and this determines the number of
events it waits for.
-/

namespace Polling

open Machine

inductive Label where
  | event
  | poll
deriving DecidableEq, Repr

structure Wait (σ : Type) where
  state : σ
  /-- The number of events since the loop began. -/
  elapsed : Nat
  /-- The condition was polled since the last event. -/
  polled : Bool
  /-- The number of events before the loop returned. -/
  returned : Option Nat

variable {σ : Type}

def start (s : σ) : Wait σ := ⟨s, 0, false, none⟩

section Steps

variable (next : σ → σ) (done : σ → Prop) [DecidablePred done]

def event (w : Wait σ) : Wait σ :=
  { w with state := next w.state, elapsed := w.elapsed + 1, polled := false }

def poll (w : Wait σ) : Wait σ :=
  { w with polled := true, returned := if done w.state then some w.elapsed else none }

/-- The loop polls until it returns, and once at least before each event. -/
def Step (w : Wait σ) : Label → Wait σ → Prop
  | .event, w' => (w.polled = true ∨ w.returned ≠ none) ∧ w' = event next w
  | .poll, w' => w.returned = none ∧ w' = poll done w

end Steps

/-- After `n` events the condition holds for the first time. -/
structure First (next : σ → σ) (done : σ → Prop) (s : σ) (n : Nat) : Prop where
  holds : done (next^[n] s)
  early : ∀ m < n, ¬ done (next^[m] s)

/-- The loop returns after `n` events and not at another time: it has returned when it has
polled after the `n`-th event. -/
structure ReturnsAfter (n : Nat) (w : Wait σ) : Prop where
  only : ∀ k, w.returned = some k → k = n
  late : n < w.elapsed ∨ (n = w.elapsed ∧ w.polled = true) → w.returned = some n

/-- The loop is still waiting, and not for an event that has occurred, or it has returned. -/
def Waits (next : σ → σ) (s : σ) (n : Nat) (w : Wait σ) : Prop :=
  w.state = next^[w.elapsed] s ∧
    (w.returned = some n ∨
      w.returned = none ∧ w.elapsed ≤ n ∧ (w.polled = true → w.elapsed < n))

theorem First.unique {next : σ → σ} {done : σ → Prop} {s : σ} {n m : Nat}
    (first : First next done s n) (first' : First next done s m) : n = m := by
  obtain less | same | more := Nat.lt_trichotomy n m
  · exact absurd first.holds (first'.early n less)
  · exact same
  · exact absurd first'.holds (first.early m more)

section Runs

variable {next : σ → σ} {done : σ → Prop} [DecidablePred done] {s : σ} {n : Nat} {w w' : Wait σ}
variable {i : Label}

theorem waits_start : Waits next s n (start s) :=
  ⟨rfl, .inr ⟨rfl, Nat.zero_le n, fun h => nomatch h⟩⟩

theorem Waits.step (first : First next done s n) (waits : Waits next s n w)
    (step : Step next done w i w') : Waits next s n w' := by
  obtain ⟨state, waits⟩ := waits
  cases i with
  | event =>
      obtain ⟨seen, rfl⟩ := step
      refine ⟨?_, ?_⟩
      · show next w.state = next^[w.elapsed + 1] s
        rw [state, Function.iterate_succ_apply']
      · obtain returned | ⟨waiting, _, early⟩ := waits
        · exact .inl returned
        · have polled : w.polled = true := seen.resolve_right fun h => h waiting
          exact .inr ⟨waiting, early polled, fun h => nomatch h⟩
  | poll =>
      obtain ⟨waiting, rfl⟩ := step
      obtain returned | ⟨_, inside, _⟩ := waits
      · exact absurd (waiting.symm.trans returned) (Option.some_ne_none n).symm
      · refine ⟨state, ?_⟩
        obtain early | now := Nat.lt_or_eq_of_le inside
        · have notYet : ¬ done w.state := state ▸ first.early _ early
          exact .inr ⟨if_neg notYet, inside, fun _ => early⟩
        · have done : done w.state := by
            rw [state, now]
            exact first.holds
          exact .inl ((if_pos done).trans (congrArg some now))

theorem Waits.returnsAfter (waits : Waits next s n w) : ReturnsAfter n w := by
  obtain ⟨_, returned | ⟨waiting, inside, early⟩⟩ := waits
  · exact ⟨fun k same => Option.some.inj (same.symm.trans returned), fun _ => returned⟩
  · refine ⟨fun k same => absurd (same.symm.trans waiting) (Option.some_ne_none k), ?_⟩
    rintro (past | ⟨now, polled⟩)
    · exact absurd inside (Nat.not_le.mpr past)
    · exact absurd now (Nat.ne_of_gt (early polled))

theorem poll_of_done (now : done w.state) :
    poll done w = ⟨w.state, w.elapsed, true, some w.elapsed⟩ := by
  rw [poll, if_pos now]

/-- As long as the condition does not hold, the loop polls after every event. -/
theorem polls (early : ∀ m < n, ¬ done (next^[m] s)) :
    ∃ is, Runs (Step next done) (start s) is
      ⟨next^[n] s, n, true, if done (next^[n] s) then some n else none⟩ := by
  induction n with
  | zero => exact ⟨_, .snoc .nil (show Step next done (start s) .poll _ from ⟨rfl, rfl⟩)⟩
  | succ n ih =>
      obtain ⟨is, run⟩ := ih fun m hm => early m (Nat.lt_succ_of_lt hm)
      rw [if_neg (early n (Nat.lt_succ_self n))] at run
      rw [Function.iterate_succ_apply']
      have event : Step next done ⟨next^[n] s, n, true, none⟩ .event
          ⟨next (next^[n] s), n + 1, false, none⟩ := ⟨.inl rfl, rfl⟩
      have poll : Step next done ⟨next (next^[n] s), n + 1, false, none⟩ .poll
          ⟨next (next^[n] s), n + 1, true,
            if done (next (next^[n] s)) then some (n + 1) else none⟩ := ⟨rfl, rfl⟩
      exact ⟨_, .snoc (.snoc run event) poll⟩

/-- The loop waits for `n` events in every run, if and only if the condition holds after `n`
events for the first time. -/
theorem returnsAfter_iff :
    (∀ is w, Runs (Step next done) (start s) is w → ReturnsAfter n w) ↔ First next done s n := by
  constructor
  · intro returns
    have early : ∀ m < n, ¬ done (next^[m] s) := by
      intro m
      induction m using Nat.strongRecOn with
      | ind m ih =>
          intro hm now
          obtain ⟨is, run⟩ := polls fun k hk => ih k hk (Nat.lt_trans hk hm)
          exact Nat.ne_of_lt hm ((returns _ _ run).only m (if_pos now))
    refine ⟨?_, early⟩
    obtain ⟨is, run⟩ := polls early
    have returned := (returns _ _ run).late (.inr ⟨rfl, rfl⟩)
    by_contra notYet
    exact Option.some_ne_none n (returned.symm.trans (if_neg notYet))
  · intro first is w run
    exact (run.invariant (Waits next s n) waits_start fun _ _ _ => Waits.step first).returnsAfter

end Runs

end Polling
