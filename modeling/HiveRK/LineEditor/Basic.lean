import Mathlib.Data.List.Basic
import Mathlib.Tactic.Common

/-!
# A line editor

An editor keeps the line that is being typed and the lines that were submitted, oldest first.
The line has at most `capacity` characters; an empty one is not submitted.
-/

namespace LineEditor

/-- What a key does. -/
inductive Key (α : Type) where
  | insert (ch : α)
  | erase
  | submit
  | ignore
deriving DecidableEq, Repr

structure Editor (α : Type) where
  line : List α
  submitted : List (List α)

variable {α : Type}

def start : Editor α := ⟨[], []⟩

def press (capacity : Nat) (e : Editor α) : Key α → Editor α
  | .insert ch =>
      if e.line.length < capacity then { e with line := e.line ++ [ch] } else e
  | .erase => { e with line := e.line.dropLast }
  | .submit => if e.line = [] then e else ⟨[], e.submitted ++ [e.line]⟩
  | .ignore => e

def edit (capacity : Nat) (e : Editor α) (keys : List (Key α)) : Editor α :=
  keys.foldl (press capacity) e

/-- The lines fit, and no empty one was submitted. -/
structure Fits (capacity : Nat) (e : Editor α) : Prop where
  line : e.line.length ≤ capacity
  submitted : ∀ s ∈ e.submitted, s ≠ [] ∧ s.length ≤ capacity

theorem fits_start (capacity : Nat) : Fits capacity (start : Editor α) :=
  ⟨Nat.zero_le capacity, fun _ none => absurd none List.not_mem_nil⟩

section Runs

variable {capacity : Nat} {e : Editor α}

theorem Fits.press (fits : Fits capacity e) (key : Key α) :
    Fits capacity (press capacity e key) := by
  cases key with
  | insert ch =>
      rw [LineEditor.press]
      split_ifs with room
      · refine ⟨?_, fits.submitted⟩
        rw [List.length_append, List.length_singleton]
        exact room
      · exact fits
  | erase =>
      refine ⟨?_, fits.submitted⟩
      rw [LineEditor.press, List.length_dropLast]
      exact Nat.le_trans (Nat.sub_le _ 1) fits.line
  | submit =>
      rw [LineEditor.press]
      split_ifs with empty
      · exact fits
      · refine ⟨Nat.zero_le capacity, fun s hs => ?_⟩
        obtain before | last := List.mem_append.mp hs
        · exact fits.submitted s before
        · obtain rfl := List.mem_singleton.mp last
          exact ⟨empty, fits.line⟩
  | ignore => exact fits

theorem Fits.edit (fits : Fits capacity e) (keys : List (Key α)) :
    Fits capacity (edit capacity e keys) := by
  induction keys generalizing e with
  | nil => exact fits
  | cons key keys ih => exact ih (fits.press key)

end Runs

section Submitted

variable {β : Type} {p : β → Prop} [DecidablePred p]

/-- A list up to the first element with `p`. -/
def through (p : β → Prop) [DecidablePred p] : List β → List β
  | [] => []
  | b :: bs => if p b then [b] else b :: through p bs

theorem through_append {bs : List β} (none : ∀ b ∈ bs, ¬ p b) (cs : List β) :
    through p (bs ++ cs) = bs ++ through p cs := by
  induction bs with
  | nil => rfl
  | cons b bs ih =>
      obtain ⟨first, rest⟩ := List.forall_mem_cons.mp none
      rw [List.cons_append, through, if_neg first, ih rest, List.cons_append]

theorem through_of_not {bs : List β} (none : ∀ b ∈ bs, ¬ p b) : through p bs = bs := by
  have all := through_append none []
  rwa [List.append_nil, through, List.append_nil] at all

/-- What was submitted stays in front. -/
theorem edit_submitted (capacity : Nat) (e : Editor α) (keys : List (Key α)) :
    ∃ more, (edit capacity e keys).submitted = e.submitted ++ more := by
  induction keys generalizing e with
  | nil => exact ⟨[], (List.append_nil _).symm⟩
  | cons key keys ih =>
      obtain ⟨more, rest⟩ := ih (press capacity e key)
      have first : ∃ more, (press capacity e key).submitted = e.submitted ++ more := by
        cases key with
        | insert ch =>
            rw [press]
            split_ifs
            · exact ⟨[], (List.append_nil _).symm⟩
            · exact ⟨[], (List.append_nil _).symm⟩
        | submit =>
            rw [press]
            split_ifs
            · exact ⟨[], (List.append_nil _).symm⟩
            · exact ⟨[e.line], rfl⟩
        | erase => exact ⟨[], (List.append_nil _).symm⟩
        | ignore => exact ⟨[], (List.append_nil _).symm⟩
      obtain ⟨line, first⟩ := first
      refine ⟨line ++ more, ?_⟩
      rw [← List.append_assoc, ← first]
      exact rest

end Submitted

end LineEditor
