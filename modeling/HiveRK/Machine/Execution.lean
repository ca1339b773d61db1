import Mathlib.Data.List.Basic
import Mathlib.Data.List.Induction
import Mathlib.Tactic.Common

/-!
# Execution outcomes and runs

A function with an unbounded loop is given fuel, one unit for each test of the
loop's guard. It answers with a value, or says why it did not return: it reached
an intentional endless loop, or the fuel was used up. Termination is therefore a
theorem about enough fuel, never an assumption.

`Returns` says this of a call whose fuel is left open, with one rule for a call that follows
another.

`Runs` lists the labels of consecutive steps of a system. Its only rule is the
induction that every invariant proof uses.
-/

namespace Machine

/-- Why a call did not return. -/
inductive Stop where
  | trap
  | fuel
deriving DecidableEq, Repr

abbrev Exec (α : Type) := Except Stop α

/-- A call that was made where it may be, and has answered. -/
theorem of_guarded {α : Type} {p : Prop} [Decidable p] {call : Exec α} {a : α}
    (taken : (if p then call.toOption else none) = some a) : p ∧ call = .ok a := by
  obtain ⟨allowed, taken⟩ := Option.ite_none_right_eq_some.mp taken
  cases call with
  | error _ => exact absurd taken.symm (Option.some_ne_none a)
  | ok a' => exact ⟨allowed, congrArg Except.ok (Option.some.inj taken)⟩

/-- With enough fuel, and with more, the call answers with `a`. -/
def Returns {α : Type} (call : Nat → Exec α) (a : α) : Prop :=
  ∃ enough, ∀ fuel, enough ≤ fuel → call fuel = .ok a

namespace Returns

variable {α β : Type} {call : Nat → Exec α} {a : α} {b : β}

theorem ok (a : α) : Returns (fun _ => .ok a) a := ⟨0, fun _ _ => rfl⟩

/-- One unit is used before the call. -/
theorem succ (after : Returns (fun fuel => call (fuel + 1)) a) : Returns call a := by
  obtain ⟨enough, after⟩ := after
  refine ⟨enough + 1, fun fuel long => ?_⟩
  obtain ⟨fuel, rfl⟩ := Nat.exists_eq_succ_of_ne_zero (Nat.ne_of_gt (Nat.zero_lt_of_lt long))
  exact after fuel (Nat.le_of_succ_le_succ long)

theorem bind {next : α → Nat → Exec β} (first : Returns call a) (second : Returns (next a) b) :
    Returns (fun fuel => call fuel >>= fun a => next a fuel) b := by
  obtain ⟨enough, first⟩ := first
  obtain ⟨enough', second⟩ := second
  refine ⟨max enough enough', fun fuel long => ?_⟩
  show (call fuel >>= fun a => next a fuel) = .ok b
  rw [first fuel (Nat.le_trans (Nat.le_max_left ..) long)]
  exact second fuel (Nat.le_trans (Nat.le_max_right ..) long)

end Returns

/-- The system went from `start` to the last state by steps with these labels. -/
inductive Runs {σ ι : Type} (step : σ → ι → σ → Prop) (start : σ) : List ι → σ → Prop where
  | nil : Runs step start [] start
  | snoc {is s i t} : Runs step start is s → step s i t → Runs step start (is ++ [i]) t

namespace Runs

variable {σ ι : Type} {step : σ → ι → σ → Prop} {start s t : σ} {is : List ι}

/-- What holds at the start and survives every step holds after every run. -/
theorem invariant (Inv : σ → Prop) (h : Runs step start is s) (initial : Inv start)
    (preserved : ∀ s i t, Inv s → step s i t → Inv t) : Inv s := by
  induction h with
  | nil => exact initial
  | snoc _ hstep ih => exact preserved _ _ _ ih hstep

/-- The same for what only the steps with the labels of the run have to preserve. -/
theorem invariant_on (Inv : σ → Prop) (h : Runs step start is s) (initial : Inv start)
    (preserved : ∀ s i t, i ∈ is → Inv s → step s i t → Inv t) : Inv s := by
  induction h with
  | nil => exact initial
  | snoc _ hstep ih =>
      refine preserved _ _ _ (List.mem_append_right _ List.mem_cons_self) (ih ?_) hstep
      exact fun s i t hi => preserved s i t (List.mem_append_left _ hi)

/-- A run is a run of any relation that its steps satisfy where the invariant holds. -/
theorem imp {step' : σ → ι → σ → Prop} (Inv : σ → Prop) (h : Runs step start is s)
    (initial : Inv start) (stronger : ∀ s i t, Inv s → step s i t → step' s i t ∧ Inv t) :
    Runs step' start is s ∧ Inv s := by
  induction h with
  | nil => exact ⟨.nil, initial⟩
  | snoc _ hstep ih =>
      obtain ⟨run, inv⟩ := ih
      obtain ⟨hstep', inv'⟩ := stronger _ _ _ inv hstep
      exact ⟨.snoc run hstep', inv'⟩

theorem nil_iff : Runs step start [] t ↔ t = start := by
  constructor
  · intro h
    generalize hl : ([] : List ι) = l at h
    cases h with
    | nil => rfl
    | snoc _ _ => exact absurd hl (by simp)
  · rintro rfl
    exact .nil

/-- The last step of a run. -/
theorem snoc_iff {i : ι} :
    Runs step start (is ++ [i]) t ↔ ∃ s, Runs step start is s ∧ step s i t := by
  constructor
  · intro h
    generalize hl : is ++ [i] = l at h
    cases h with
    | nil => exact absurd hl (by simp)
    | snoc before last =>
        obtain ⟨rfl, rfl⟩ := List.append_singleton_inj.mp hl
        exact ⟨_, before, last⟩
  · rintro ⟨s, before, last⟩
    exact .snoc before last

theorem append {js : List ι} (before : Runs step start is s) (after : Runs step s js t) :
    Runs step start (is ++ js) t := by
  induction after with
  | nil => exact (List.append_nil is).symm ▸ before
  | snoc _ last ih => exact List.append_assoc .. ▸ ih.snoc last

/-- Where a function makes the steps, the state that it computes is the end of a run. -/
theorem of_foldlM {next : σ → ι → Option σ} (sound : ∀ s i t, next s i = some t → step s i t)
    (h : is.foldlM next start = some s) : Runs step start is s := by
  induction is using List.reverseRecOn generalizing s with
  | nil => exact nil_iff.mpr (Option.some.inj h).symm
  | append_singleton is i ih =>
      rw [List.foldlM_append] at h
      obtain ⟨r, before, last⟩ := Option.bind_eq_some_iff.mp h
      rw [List.foldlM_cons] at last
      obtain ⟨t, taken, rest⟩ := Option.bind_eq_some_iff.mp last
      obtain rfl := Option.some.inj rest
      exact .snoc (ih before) (sound r i t taken)

/-- Behind a part of its labels a run is in a state from which the next step is made. -/
theorem reaches {done rest : List ι} {i : ι} (h : Runs step start (done ++ i :: rest) t) :
    ∃ s s', Runs step start done s ∧ step s i s' := by
  induction rest using List.reverseRecOn generalizing t with
  | nil =>
      obtain ⟨s, before, last⟩ := snoc_iff.mp h
      exact ⟨s, t, before, last⟩
  | append_singleton rest j ih =>
      rw [← List.cons_append, ← List.append_assoc] at h
      obtain ⟨s, before, -⟩ := snoc_iff.mp h
      exact ih before

end Runs
end Machine
