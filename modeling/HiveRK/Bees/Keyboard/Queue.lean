import HiveRK.Bees.Keyboard.Basic

/-!
# The keyboard is a queue

A run is any sequence of key interrupts and calls. Beside the module's storage it records
which events were stored and which were returned. As long as never more than 63 events are
unread, the buffer holds the stored events that were not yet returned.
-/

namespace HiveRK.Keyboard

open Machine

structure World where
  global : GlobalData
  pushed : List Nat
  returned : List Nat

def start (global : GlobalData) : World := ⟨beeInit global, [], []⟩

inductive Op where
  | interrupt (scancode sc : Nat)
  | getKey
  | isThereData

/-- The events that were stored and not yet returned, in the order of their storing. -/
def World.unread (w : World) : List Nat := w.pushed.drop w.returned.length

/-- A call of `get_key` while events are unread returns one of them. -/
def apply (w : World) : Op → World
  | .interrupt scancode sc =>
      ⟨interruptHandler w.global scancode sc,
        w.pushed ++ [keyEvent (shiftAfter w.global.shift sc) sc], w.returned⟩
  | .getKey =>
      ⟨(getKey w.global).1, w.pushed,
        if w.unread = [] then w.returned else w.returned ++ [(getKey w.global).2]⟩
  | .isThereData => w

/-- At most 63 events are unread. -/
def Step (w : World) (op : Op) (w' : World) : Prop := w' = apply w op ∧ w'.unread.length ≤ 63

section Ring

variable {global : GlobalData} {w : World}

def GlobalData.ring (global : GlobalData) : RingBuffer Nat :=
  ⟨global.buffer, global.head, global.tail⟩

theorem interruptHandler_ring (global : GlobalData) (scancode sc : Nat) :
    (interruptHandler global scancode sc).ring =
      global.ring.push 64 (keyEvent (shiftAfter global.shift sc) sc) := rfl

/-- The buffer holds what is unread, and what was returned are the oldest events. -/
structure Inv (w : World) : Prop where
  holds : w.global.ring.Holds 64 w.unread
  returned : w.pushed = w.returned ++ w.unread

theorem inv_start (global : GlobalData) : Inv (start global) :=
  ⟨RingBuffer.holds_nil (Nat.zero_lt_succ 63) rfl, rfl⟩

theorem Inv.empty_iff (inv : Inv w) : w.global.head = w.global.tail ↔ w.unread = [] :=
  inv.holds.empty_iff

/-- `get_key` on an empty queue outputs 0 and changes nothing. -/
theorem Inv.getKey_empty (inv : Inv w) (empty : w.unread = []) :
    getKey w.global = (w.global, 0) := by
  rw [getKey, if_pos (inv.empty_iff.mpr empty)]

/-- `get_key` returns the oldest event and takes it away. -/
theorem Inv.getKey_cons (inv : Inv w) {x : Nat} {xs : List Nat} (unread : w.unread = x :: xs) :
    (getKey w.global).2 = x ∧ (getKey w.global).1.ring.Holds 64 xs := by
  have nonempty : ¬ w.global.head = w.global.tail := by
    rw [inv.empty_iff, unread]
    exact List.cons_ne_nil x xs
  have holds := inv.holds
  rw [unread] at holds
  rw [getKey, if_neg nonempty]
  exact holds.pop

/-- The world behind a `get_key` while events are unread. -/
theorem Inv.apply_getKey (inv : Inv w) {x : Nat} {xs : List Nat} (unread : w.unread = x :: xs) :
    apply w .getKey = ⟨(getKey w.global).1, w.pushed, w.returned ++ [x]⟩ ∧
      (apply w .getKey).unread = xs := by
  have after : apply w .getKey = ⟨(getKey w.global).1, w.pushed, w.returned ++ [x]⟩ := by
    rw [apply, if_neg (by rw [unread]; exact List.cons_ne_nil x xs), (inv.getKey_cons unread).1]
  refine ⟨after, ?_⟩
  rw [after, World.unread, inv.returned, unread]
  simp

theorem Inv.isThereData_eq (inv : Inv w) :
    isThereData w.global = if w.unread = [] then 0 else 1 := by
  rw [isThereData]
  simp only [inv.empty_iff]

theorem Inv.step (inv : Inv w) {op : Op} (room : (apply w op).unread.length ≤ 63) :
    Inv (apply w op) := by
  have pushed := inv.returned
  cases op with
  | interrupt scancode sc =>
      have behind : w.returned.length ≤ w.pushed.length := by
        have length := congrArg List.length pushed
        rw [List.length_append] at length
        omega
      have more : (apply w (.interrupt scancode sc)).unread =
          w.unread ++ [keyEvent (shiftAfter w.global.shift sc) sc] :=
        List.drop_append_of_le_length behind
      rw [more, List.length_append, List.length_singleton] at room
      constructor
      · rw [more]
        show RingBuffer.Holds 64 (interruptHandler w.global scancode sc).ring _
        rw [interruptHandler_ring]
        exact inv.holds.push (by omega) _
      · rw [more, ← List.append_assoc]
        exact congrArg (· ++ _) pushed
  | getKey =>
      cases unread : w.unread with
      | nil =>
          have same : apply w .getKey = w := by
            rw [apply, inv.getKey_empty unread, if_pos unread]
          rw [same]
          exact inv
      | cons x xs =>
          obtain ⟨_, holds⟩ := inv.getKey_cons unread
          obtain ⟨after, left⟩ := inv.apply_getKey unread
          refine ⟨?_, ?_⟩
          · rw [left, after]
            exact holds
          · rw [left, after]
            simp only [pushed, unread, List.append_assoc, List.singleton_append]
  | isThereData => exact inv

end Ring

/-- After every run the events returned are the first ones stored, in their order. The next
`get_key` returns the oldest event that is left, and 0 if none is left; `is_there_data` says
whether one is left; and both indices are below 64. -/
theorem keyboard_queue {global : GlobalData} {ops : List Op} {w : World}
    (run : Runs Step (start global) ops w) :
    w.pushed = w.returned ++ w.unread ∧
      (∀ x xs, w.unread = x :: xs → (getKey w.global).2 = x ∧
        (apply w .getKey).returned = w.returned ++ [x] ∧ (apply w .getKey).unread = xs) ∧
      (w.unread = [] → getKey w.global = (w.global, 0) ∧ apply w .getKey = w) ∧
      isThereData w.global = (if w.unread = [] then 0 else 1) ∧
      w.global.head < 64 ∧ w.global.tail < 64 := by
  have inv : Inv w := by
    refine run.invariant Inv (inv_start global) ?_
    rintro w op _ inv ⟨rfl, room⟩
    exact inv.step room
  refine ⟨inv.returned, fun x xs unread => ?_, fun empty => ?_, inv.isThereData_eq,
    inv.holds.head_lt, inv.holds.first⟩
  · obtain ⟨after, left⟩ := inv.apply_getKey unread
    exact ⟨(inv.getKey_cons unread).1, by rw [after], left⟩
  · have same := inv.getKey_empty empty
    exact ⟨same, by rw [apply, same, if_pos empty]⟩

def successor (w : World) (op : Op) : Option World :=
  if (apply w op).unread.length ≤ 63 then some (apply w op) else none

theorem step_of_successor {w w' : World} {op : Op} (taken : successor w op = some w') :
    Step w op w' := by
  rw [successor] at taken
  split_ifs at taken with room
  obtain rfl := Option.some.inj taken
  exact ⟨rfl, room⟩

/-- The key A is pressed forty times and read as often, then B is pressed forty times and read
thirty times. -/
def typing : List Op :=
  List.replicate 40 (.interrupt 0x1E 0x1E) ++ List.replicate 40 .getKey ++
    (List.replicate 40 (.interrupt 0x30 0x30) ++ List.replicate 30 .getKey)

/-- Both indices have gone around. -/
theorem keyboard_queue_typing : ∃ w, Runs Step (start ⟨fun _ => 0, 0, 0, 0⟩) typing w ∧
    w.global.head = 16 ∧ w.global.tail = 6 ∧ w.unread = List.replicate 10 0x3062 ∧
      (getKey w.global).2 = 0x3062 ∧ (apply w .getKey).unread = List.replicate 9 0x3062 := by
  have ends : (typing.foldlM successor (start ⟨fun _ => 0, 0, 0, 0⟩)).map
      (fun w => (w.global.head, w.global.tail, w.unread)) =
        some (16, 6, List.replicate 10 0x3062) := by decide +kernel
  obtain ⟨w, taken, same⟩ := Option.map_eq_some_iff.mp ends
  obtain ⟨head, rest⟩ := Prod.mk.inj same
  obtain ⟨tail, unread⟩ := Prod.mk.inj rest
  have run : Runs Step (start ⟨fun _ => 0, 0, 0, 0⟩) typing w :=
    .of_foldlM (fun _ _ _ => step_of_successor) taken
  obtain ⟨out, -, left⟩ := (keyboard_queue run).2.1 0x3062 (List.replicate 9 0x3062) unread
  exact ⟨w, run, head, tail, unread, out, left⟩

end HiveRK.Keyboard
