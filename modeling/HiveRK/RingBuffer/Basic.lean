import Mathlib.Data.Nat.ModEq
import Mathlib.Logic.Function.Basic
import Mathlib.Tactic.Common

/-!
# Ring buffers with one free cell

A queue in `cap` cells. Values enter at `head` and leave at `tail`, and both indices wrap on
their own. The queue counts as empty when they are equal, so one cell stays free.

`Holds` relates a ring to the list of what it holds, oldest first. It says nothing of the
other cells. A push into the free cell makes the indices meet, so that the ring holds nothing
any more: of a long sequence of pushes it holds what is left over after the last such push.
-/

structure RingBuffer (α : Type) where
  buffer : Nat → α
  head : Nat
  tail : Nat

namespace RingBuffer

variable {α : Type}

def push (cap : Nat) (r : RingBuffer α) (v : α) : RingBuffer α :=
  { r with buffer := Function.update r.buffer r.head v
           head := (r.head + 1) % cap }

def pushAll (cap : Nat) (r : RingBuffer α) (vs : List α) : RingBuffer α := vs.foldl (push cap) r

/-- The value that leaves next. -/
def front (r : RingBuffer α) : α := r.buffer r.tail

def pop (cap : Nat) (r : RingBuffer α) : RingBuffer α := { r with tail := (r.tail + 1) % cap }

/-- How far the head is ahead of the tail. -/
def distance (cap : Nat) (r : RingBuffer α) : Nat := (r.head + cap - r.tail) % cap

structure Holds (cap : Nat) (r : RingBuffer α) (xs : List α) : Prop where
  first : r.tail < cap
  last : r.head = (r.tail + xs.length) % cap
  room : xs.length < cap
  cells : ∀ (i : Nat) (h : i < xs.length), r.buffer ((r.tail + i) % cap) = xs[i]

section Operations

variable {cap : Nat} {r : RingBuffer α} {x : α} {xs : List α}

theorem Holds.head_lt (h : Holds cap r xs) : r.head < cap := by
  rw [h.last]
  exact Nat.mod_lt _ (Nat.lt_of_le_of_lt (Nat.zero_le _) h.first)

/-- Cells at different distances from the tail are different. -/
theorem index_ne (tail : Nat) {i j : Nat} (hi : i < cap) (hj : j < cap) (hij : i ≠ j) :
    (tail + i) % cap ≠ (tail + j) % cap := by
  intro same
  have equal : i % cap = j % cap := Nat.ModEq.add_left_cancel' tail same
  rw [Nat.mod_eq_of_lt hi, Nat.mod_eq_of_lt hj] at equal
  exact hij equal

theorem holds_nil {cap : Nat} {r : RingBuffer α} (first : r.tail < cap) (same : r.head = r.tail) :
    Holds cap r [] where
  first := first
  last := by rw [same, List.length_nil, Nat.add_zero, Nat.mod_eq_of_lt first]
  room := Nat.lt_of_le_of_lt (Nat.zero_le _) first
  cells _ h := absurd h (Nat.not_lt_zero _)

/-- The indices are equal if and only if the ring holds nothing. -/
theorem Holds.empty_iff (h : Holds cap r xs) : r.head = r.tail ↔ xs = [] := by
  have pos : 0 < cap := Nat.lt_of_le_of_lt (Nat.zero_le _) h.first
  constructor
  · intro same
    by_contra nonempty
    have length : 0 < xs.length := List.length_pos_iff.mpr nonempty
    have apart := index_ne r.tail h.room pos (Nat.ne_of_gt length)
    rw [← h.last, Nat.add_zero, Nat.mod_eq_of_lt h.first] at apart
    exact apart same
  · rintro rfl
    rw [h.last, List.length_nil, Nat.add_zero, Nat.mod_eq_of_lt h.first]

theorem Holds.distance_eq (h : Holds cap r xs) : r.distance cap = xs.length := by
  have first := h.first
  have room := h.room
  rw [distance, h.last]
  by_cases wraps : r.tail + xs.length < cap
  · rw [Nat.mod_eq_of_lt wraps, show r.tail + xs.length + cap - r.tail = xs.length + cap by omega,
      Nat.add_mod_right, Nat.mod_eq_of_lt room]
  · have last : (r.tail + xs.length) % cap = r.tail + xs.length - cap := by
      rw [Nat.mod_eq_sub_mod (by omega), Nat.mod_eq_of_lt (by omega)]
    rw [last, show r.tail + xs.length - cap + cap - r.tail = xs.length by omega,
      Nat.mod_eq_of_lt room]

/-- A value is appended, as long as a cell stays free. -/
theorem Holds.push (h : Holds cap r xs) (room : xs.length + 1 < cap) (v : α) :
    Holds cap (r.push cap v) (xs ++ [v]) where
  first := h.first
  last := by
    show (r.head + 1) % cap = _
    rw [h.last, Nat.mod_add_mod, List.length_append, List.length_singleton, Nat.add_assoc]
    rfl
  room := by
    rw [List.length_append, List.length_singleton]
    exact room
  cells i hi := by
    rw [List.length_append, List.length_singleton] at hi
    show Function.update r.buffer r.head v ((r.tail + i) % cap) = _
    rw [h.last]
    by_cases last : i = xs.length
    · subst last
      rw [Function.update_self, List.getElem_concat_length rfl]
    · have old : i < xs.length := by omega
      rw [Function.update_of_ne (index_ne _ (by omega) h.room last), h.cells i old,
        List.getElem_append_left old]

/-- A push without a free cell loses everything. -/
theorem Holds.push_full (h : Holds cap r xs) (full : xs.length + 1 = cap) (v : α) :
    Holds cap (r.push cap v) [] := by
  refine holds_nil h.first ?_
  show (r.head + 1) % cap = r.tail
  rw [h.last, Nat.mod_add_mod, Nat.add_assoc, full, Nat.add_mod_right, Nat.mod_eq_of_lt h.first]

/-- Of all that was held and pushed, the ring holds what is behind the last full round. -/
theorem Holds.pushAll (h : Holds cap r xs) (vs : List α) :
    Holds cap (r.pushAll cap vs) ((xs ++ vs).drop ((xs ++ vs).length / cap * cap)) := by
  induction vs generalizing r xs with
  | nil =>
      rw [List.append_nil, Nat.div_eq_of_lt h.room, Nat.zero_mul]
      exact h
  | cons v vs ih =>
      by_cases room : xs.length + 1 < cap
      · have rest := ih (h.push room v)
        rwa [List.append_assoc, List.singleton_append] at rest
      · have full : xs.length + 1 = cap := Nat.le_antisymm h.room (Nat.le_of_not_lt room)
        have pos : 0 < cap := Nat.lt_of_le_of_lt (Nat.zero_le _) h.first
        have first : (xs ++ [v]).length = cap := by
          rw [List.length_append, List.length_singleton, full]
        have rest := ih (h.push_full full v)
        rw [List.nil_append] at rest
        rw [← List.singleton_append, ← List.append_assoc, List.length_append, first,
          Nat.add_div_left _ pos, Nat.succ_mul, Nat.add_comm (vs.length / cap * cap)]
        rw [← List.drop_drop, ← first, List.drop_left, first]
        exact rest

/-- The oldest value leaves. -/
theorem Holds.pop (h : Holds cap r (x :: xs)) : r.front = x ∧ Holds cap (r.pop cap) xs := by
  have room := h.room
  have pos : 0 < cap := Nat.lt_of_le_of_lt (Nat.zero_le _) h.first
  rw [List.length_cons] at room
  constructor
  · have first := h.cells 0 (Nat.zero_lt_succ _)
    rwa [Nat.add_zero, Nat.mod_eq_of_lt h.first] at first
  · constructor
    · exact Nat.mod_lt _ pos
    · show r.head = ((r.tail + 1) % cap + xs.length) % cap
      rw [h.last, Nat.mod_add_mod, List.length_cons]
      congr 1
      omega
    · exact Nat.lt_of_succ_lt room
    · intro i hi
      have cell := h.cells (i + 1) (Nat.succ_lt_succ hi)
      show r.buffer (((r.tail + 1) % cap + i) % cap) = _
      rw [Nat.mod_add_mod, Nat.add_assoc, Nat.add_comm 1 i]
      exact cell

end Operations

end RingBuffer
