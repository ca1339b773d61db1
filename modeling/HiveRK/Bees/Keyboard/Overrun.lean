import HiveRK.Bees.Keyboard.Queue

/-!
# More keys than the buffer holds

The interrupt handler does not look at `tail`. When the buffer is full the indices meet, and
what is in it is lost at once. Here runs store and return events without any bound, and the
question is what a burst of keys leaves for the reader.
-/

namespace HiveRK.Keyboard

open Machine

/-- The module's storage, and every event that was stored so far. -/
structure Stored where
  global : GlobalData
  events : List Nat

/-- The state that `bee_init` leaves. -/
def Stored.start (global : GlobalData) : Stored := ⟨beeInit global, []⟩

def Stored.apply (w : Stored) : Op → Stored
  | .interrupt scancode sc =>
      ⟨interruptHandler w.global scancode sc,
        w.events ++ [keyEvent (shiftAfter w.global.shift sc) sc]⟩
  | .getKey => ⟨(getKey w.global).1, w.events⟩
  | .isThereData => w

def AnyStep (w : Stored) (op : Op) (w' : Stored) : Prop := w' = w.apply op

/-- Key interrupts one after the other, each with the two bytes that it reads. -/
def Stored.burst (w : Stored) (codes : List (Nat × Nat)) : Stored :=
  codes.foldl (fun w code => w.apply (.interrupt code.1 code.2)) w

/-- The number of events between the two indices. -/
def queued (global : GlobalData) : Nat := (global.head + 64 - global.tail) % 64

/-- What `get_key` returns until `is_there_data` outputs 0, in at most `fuel` calls. -/
def drain : Nat → GlobalData → List Nat
  | 0, _ => []
  | fuel + 1, global =>
      if isThereData global = 0 then [] else (getKey global).2 :: drain fuel (getKey global).1

/-- After every interrupt of a burst there is data, and the next event read is one that was stored.
If the burst was too long for the buffer, at least 63 of its events are read, in their order. -/
structure Survives (w : Stored) (codes : List (Nat × Nat)) : Prop where
  data : ∀ done, done <+: codes → done ≠ [] → isThereData (w.burst done).global = 1
  stored : ∀ done, done <+: codes → done ≠ [] →
    (getKey (w.burst done).global).2 ∈ (w.burst done).events
  delivered : 64 < queued w.global + codes.length →
    63 ≤ (drain 64 (w.burst codes).global).length ∧
      (drain 64 (w.burst codes).global).Sublist ((w.burst codes).events.drop w.events.length)

section Bursts

variable {w : Stored} {global : GlobalData} {xs : List Nat}

/-- The buffer holds the last ones of the events stored. -/
def Inside (w : Stored) : Prop := ∃ xs, w.global.ring.Holds 64 xs ∧ xs <:+ w.events

theorem getKey_ring (nonempty : global.head ≠ global.tail) :
    (getKey global).2 = global.ring.front ∧ (getKey global).1.ring = global.ring.pop 64 := by
  rw [getKey, if_neg nonempty]
  exact ⟨rfl, rfl⟩

theorem Inside.step (inside : Inside w) (op : Op) : Inside (w.apply op) := by
  obtain ⟨xs, holds, last⟩ := inside
  cases op with
  | interrupt scancode sc =>
      have ring := interruptHandler_ring w.global scancode sc
      by_cases room : xs.length + 1 < 64
      · refine ⟨xs ++ [keyEvent (shiftAfter w.global.shift sc) sc], ?_, ?_⟩
        · exact ring ▸ holds.push room _
        · obtain ⟨before, heq⟩ := last
          exact ⟨before, by rw [← List.append_assoc, heq]; rfl⟩
      · have full : xs.length + 1 = 64 := Nat.le_antisymm holds.room (Nat.le_of_not_lt room)
        exact ⟨[], ring ▸ holds.push_full full _, List.nil_suffix⟩
  | getKey =>
      by_cases empty : w.global.head = w.global.tail
      · have same : (getKey w.global).1 = w.global := by rw [getKey, if_pos empty]
        exact ⟨xs, by rwa [Stored.apply, same], last⟩
      · cases xs with
        | nil => exact absurd (holds.empty_iff.mpr rfl) empty
        | cons x xs =>
            refine ⟨xs, ?_, (List.suffix_cons x xs).trans last⟩
            exact (getKey_ring empty).2 ▸ holds.pop.2
  | isThereData => exact ⟨xs, holds, last⟩

/-- The events that a burst stores, and what they do to the ring. -/
theorem burst_eq (w : Stored) (codes : List (Nat × Nat)) :
    ∃ es, es.length = codes.length ∧ (w.burst codes).events = w.events ++ es ∧
      (w.burst codes).global.ring = w.global.ring.pushAll 64 es := by
  induction codes generalizing w with
  | nil => exact ⟨[], rfl, (List.append_nil _).symm, rfl⟩
  | cons code codes ih =>
      obtain ⟨es, length, events, ring⟩ := ih (w.apply (.interrupt code.1 code.2))
      refine ⟨keyEvent (shiftAfter w.global.shift code.2) code.2 :: es, ?_, ?_, ?_⟩
      · rw [List.length_cons, List.length_cons, length]
      · exact events.trans (List.append_cons _ _ _).symm
      · exact ring

/-- Behind a burst the buffer holds what came since the indices met, all of it stored. -/
theorem burst_holds (inside : Inside w) (codes : List (Nat × Nat)) :
    ∃ ys, (w.burst codes).global.ring.Holds 64 ys ∧
      ys.length = (queued w.global + codes.length) % 64 ∧ ∀ y ∈ ys, y ∈ (w.burst codes).events := by
  obtain ⟨xs, holds, before, heq⟩ := inside
  obtain ⟨es, length, events, ring⟩ := burst_eq w codes
  have held := holds.pushAll es
  have count : queued w.global = xs.length := holds.distance_eq
  rw [← ring, List.length_append, length] at held
  refine ⟨_, held, ?_, fun y hy => ?_⟩
  · rw [List.length_drop, List.length_append, length, count]
    omega
  · rw [events, ← heq, List.append_assoc]
    exact List.mem_append_right _ (List.mem_of_mem_drop hy)

theorem queued_le (global : GlobalData) : queued global ≤ 63 :=
  Nat.le_of_lt_succ (Nat.mod_lt _ (by decide))

theorem survives_iff (inside : Inside w) (codes : List (Nat × Nat)) (some : codes ≠ []) :
    Survives w codes ↔ queued w.global + codes.length ≤ 63 := by
  have room := queued_le w.global
  have pos : 0 < codes.length := List.length_pos_iff.mpr some
  constructor
  · -- The interrupt that fills the last cell makes the indices meet.
    intro survives
    by_contra long
    have length : (codes.take (64 - queued w.global)).length = 64 - queued w.global := by
      rw [List.length_take]
      omega
    obtain ⟨ys, held, left, -⟩ := burst_holds inside (codes.take (64 - queued w.global))
    have none : ys = [] := by
      apply List.eq_nil_of_length_eq_zero
      rw [left, length, Nat.add_sub_cancel' (by omega)]
    have data := survives.data _ (List.take_prefix _ codes) (by
      apply List.ne_nil_of_length_pos
      rw [length]
      omega)
    have met : (w.burst (codes.take (64 - queued w.global))).global.head =
        (w.burst (codes.take (64 - queued w.global))).global.tail := held.empty_iff.mpr none
    rw [isThereData, if_pos met] at data
    exact absurd data Nat.zero_ne_one
  · intro fits
    have held : ∀ done, done <+: codes → done ≠ [] →
        (w.burst done).global.head ≠ (w.burst done).global.tail ∧
          (w.burst done).global.ring.front ∈ (w.burst done).events := by
      intro done before nonempty
      have length := before.length_le
      have some := List.length_pos_iff.mpr nonempty
      obtain ⟨ys, held, left, all⟩ := burst_holds inside done
      rw [Nat.mod_eq_of_lt (by omega)] at left
      obtain ⟨y, rest, rfl⟩ := List.exists_cons_of_ne_nil (List.ne_nil_of_length_pos
        (show 0 < ys.length by omega))
      have apart : (w.burst done).global.head ≠ (w.burst done).global.tail :=
        fun same => List.cons_ne_nil y rest (held.empty_iff.mp same)
      exact ⟨apart, held.pop.1 ▸ all y List.mem_cons_self⟩
    refine ⟨fun done before nonempty => ?_, fun done before nonempty => ?_, fun long => ?_⟩
    · rw [isThereData, if_neg (held done before nonempty).1]
    · rw [(getKey_ring (held done before nonempty).1).1]
      exact (held done before nonempty).2
    · omega

end Bursts

theorem inside_of_runs {global : GlobalData} {ops : List Op} {w : Stored}
    (run : Runs AnyStep (Stored.start global) ops w) : Inside w := by
  refine run.invariant Inside ?_ fun w op w' inside step => step ▸ inside.step op
  exact ⟨[], RingBuffer.holds_nil (Nat.zero_lt_succ 63) rfl, List.nil_suffix⟩

/-- After every run, a burst of keys survives if and only if it fits beside what is queued. -/
theorem overrun_survives_iff {global : GlobalData} {ops : List Op} {w : Stored}
    (run : Runs AnyStep (Stored.start global) ops w) {codes : List (Nat × Nat)}
    (some : codes ≠ []) :
    Survives w codes ↔ queued w.global + codes.length ≤ 63 :=
  survives_iff (inside_of_runs run) codes some

/-- A key is read, then 63 keys survive, across the end of the buffer. -/
theorem overrun_survives_iff_full : ∃ w,
    Runs AnyStep (Stored.start ⟨fun _ => 0, 0, 0, 0⟩) [.interrupt 0x1E 0x1E, .getKey] w ∧
      Survives w (List.replicate 63 (0x1E, 0x1E)) := by
  have run : Runs AnyStep (Stored.start ⟨fun _ => 0, 0, 0, 0⟩)
      [.interrupt 0x1E 0x1E, .getKey] _ := .snoc (.snoc .nil rfl) rfl
  exact ⟨_, run, (overrun_survives_iff run (by decide)).mpr (by decide)⟩

/-- The 64th key is stored, and the buffer counts as empty. -/
theorem overrun_loses_all :
    isThereData ((Stored.start ⟨fun _ => 0, 0, 0, 0⟩).burst
      (List.replicate 64 (0x1E, 0x1E))).global = 0 ∧
    ¬ Survives (Stored.start ⟨fun _ => 0, 0, 0, 0⟩) (List.replicate 64 (0x1E, 0x1E)) := by
  have none : isThereData ((Stored.start ⟨fun _ => 0, 0, 0, 0⟩).burst
      (List.replicate 64 (0x1E, 0x1E))).global = 0 := by decide
  refine ⟨none, fun survives => ?_⟩
  exact absurd (none.symm.trans (survives.data _ (List.prefix_refl _) (by decide))) Nat.zero_ne_one

end HiveRK.Keyboard
