import HiveRK.Bees.Keyboard.Overrun

/-!
# The shift keys

One flag stands for both shift keys, and the last scancode of either of them decides it.
Beside the module's storage a run here records which keys are down. The flag follows the keys
until one shift key is released while the other one is down.
-/

namespace HiveRK.Keyboard

open Machine

/-- The character of an event. -/
def eventChar (event : Nat) : Nat := event % 2 ^ 8

/-- Whether an event has the modifier `KMOD_SHIFT`. -/
def eventShift (event : Nat) : Bool := (event >>> 16).testBit 0

/-- The module, and the keys that are down. -/
structure Typing where
  stored : Stored
  down : Nat → Bool

def Typing.start (global : GlobalData) : Typing := ⟨Stored.start global, fun _ => false⟩

/-- A key is down from its make code to its break code, which has bit 7 set. -/
def downAfter (down : Nat → Bool) : Op → Nat → Bool
  | .interrupt _ sc => Function.update down (sc &&& 0x7F) (sc &&& 0x80 = 0)
  | _ => down

def Typing.apply (w : Typing) (op : Op) : Typing := ⟨w.stored.apply op, downAfter w.down op⟩

/-- Both reads of the port return the same scancode. -/
def TypingStep (w : Typing) (op : Op) (w' : Typing) : Prop :=
  w' = w.apply op ∧ ∀ scancode sc, op = .interrupt scancode sc → scancode = sc

def shiftDown (down : Nat → Bool) : Bool := down 42 || down 54

/-- The event that an interrupt stored has the modifier, and the character from `shift_map`,
if a shift key is down, and else it has neither. -/
def Follows (w : Typing) : Op → Prop
  | .interrupt _ sc => ∃ event, w.stored.events.getLast? = some event ∧
      eventShift event = shiftDown w.down ∧
      eventChar event = if shiftDown w.down then shiftMap (sc &&& 0x7F) else keyMap (sc &&& 0x7F)
  | _ => True

/-- A shift key is released while the other one is down. -/
def Overlaps (down : Nat → Bool) : Op → Prop
  | .interrupt _ sc => sc &&& 0x80 ≠ 0 ∧
      (sc &&& 0x7F = 42 ∧ down 54 = true ∨ sc &&& 0x7F = 54 ∧ down 42 = true)
  | _ => False

section Events

theorem lookup_lt {table : List (Nat × Char)} (small : ∀ entry ∈ table, entry.2.toNat < 2 ^ 8)
    (sc : Nat) : (table.lookup sc).elim 0 Char.toNat < 2 ^ 8 := by
  induction table with
  | nil => exact Nat.two_pow_pos 8
  | cons entry table ih =>
      rw [List.lookup_cons]
      split
      · exact small entry List.mem_cons_self
      · exact ih fun entry hentry => small entry (List.mem_cons_of_mem _ hentry)

theorem keyMap_lt (sc : Nat) : keyMap sc < 2 ^ 8 := lookup_lt (by decide) sc

theorem shiftMap_lt (sc : Nat) : shiftMap sc < 2 ^ 8 := lookup_lt (by decide) sc

theorem eventChar_makeKeyEvent {ascii : Nat} (byte : ascii < 2 ^ 8) (scancode mods flags : Nat) :
    eventChar (makeKeyEvent ascii scancode mods flags) = ascii := by
  have high (n k : Nat) : n <<< (8 + k) % 2 ^ 8 = 0 := by
    rw [Nat.shiftLeft_eq, Nat.pow_add, Nat.mul_left_comm]
    exact Nat.mul_mod_right _ _
  rw [eventChar, makeKeyEvent, Nat.or_mod_two_pow, Nat.or_mod_two_pow, Nat.or_mod_two_pow,
    high scancode 0, high mods 8, high flags 16, Nat.or_zero, Nat.or_zero, Nat.or_zero,
    Nat.mod_eq_of_lt byte]

theorem eventShift_makeKeyEvent {ascii scancode : Nat} (byte : ascii < 2 ^ 8)
    (byte' : scancode < 2 ^ 8) (mods flags : Nat) :
    eventShift (makeKeyEvent ascii scancode mods flags) = mods.testBit 0 := by
  have low : ascii.testBit 16 = false := Nat.testBit_lt_two_pow (Nat.lt_trans byte (by decide))
  have code : scancode.testBit 8 = false := Nat.testBit_lt_two_pow byte'
  rw [eventShift, makeKeyEvent, Nat.testBit_shiftRight]
  simp [Nat.testBit_or, Nat.testBit_shiftLeft, low, code]

/-- The fields of a key event. -/
theorem keyEvent_fields (shift sc : Nat) :
    eventShift (keyEvent shift sc) = decide (shift ≠ 0) ∧
      eventChar (keyEvent shift sc) =
        if shift ≠ 0 then shiftMap (sc &&& 0x7F) else keyMap (sc &&& 0x7F) := by
  have char : (if shift ≠ 0 then shiftMap (sc &&& 0x7F) else keyMap (sc &&& 0x7F)) < 2 ^ 8 := by
    split_ifs
    · exact shiftMap_lt _
    · exact keyMap_lt _
  have code : sc &&& 0x7F < 2 ^ 8 := Nat.lt_of_le_of_lt Nat.and_le_right (by decide)
  refine ⟨?_, eventChar_makeKeyEvent char _ _ _⟩
  rw [keyEvent, eventShift_makeKeyEvent char code]
  by_cases on : shift = 0
  · rw [if_neg (not_not.mpr on), decide_eq_false (not_not.mpr on)]
    rfl
  · rw [if_pos on, decide_eq_true on]
    rfl

end Events

section Results

variable {w : Typing} {op : Op}

/-- The flag is that of the keys. -/
def Tracks (w : Typing) : Prop := decide (w.stored.global.shift ≠ 0) = shiftDown w.down

theorem tracks_start (global : GlobalData) : Tracks (Typing.start global) := rfl

/-- An event follows the keys if and only if the flag does. -/
theorem follows_iff (w : Typing) (scancode sc : Nat) :
    Follows (w.apply (.interrupt scancode sc)) (.interrupt scancode sc) ↔
      Tracks (w.apply (.interrupt scancode sc)) := by
  have last : (w.apply (.interrupt scancode sc)).stored.events.getLast? =
      some (keyEvent (shiftAfter w.stored.global.shift sc) sc) := List.getLast?_concat
  have flag : (w.apply (.interrupt scancode sc)).stored.global.shift =
      shiftAfter w.stored.global.shift sc := rfl
  obtain ⟨shift, char⟩ := keyEvent_fields (shiftAfter w.stored.global.shift sc) sc
  rw [Follows, Tracks, last, flag, ← shift]
  constructor
  · rintro ⟨event, same, follows, _⟩
    obtain rfl := Option.some.inj same
    exact follows
  · intro tracks
    refine ⟨_, rfl, tracks, ?_⟩
    rw [← tracks, char, shift]
    simp only [decide_eq_true_eq]

/-- A scancode keeps the flag with the keys unless it overlaps. -/
theorem Tracks.interrupt_iff (tracks : Tracks w) (scancode sc : Nat) :
    Tracks (w.apply (.interrupt scancode sc)) ↔ ¬ Overlaps w.down (.interrupt scancode sc) := by
  have flag : (w.apply (.interrupt scancode sc)).stored.global.shift =
      shiftAfter w.stored.global.shift sc := rfl
  have keys : (w.apply (.interrupt scancode sc)).down =
      Function.update w.down (sc &&& 0x7F) (sc &&& 0x80 = 0) := rfl
  rw [Tracks] at tracks
  rw [Tracks, flag, keys, Overlaps, shiftAfter, shiftDown]
  by_cases left : sc &&& 0x7F = 42
  · by_cases make : sc &&& 0x80 = 0
    · simp [left, make]
    · simp [left, make]
  · by_cases right : sc &&& 0x7F = 54
    · by_cases make : sc &&& 0x80 = 0
      · simp [right, make]
      · simp [right, make]
    · have other : ¬ (sc &&& 0x7F = 42 ∨ sc &&& 0x7F = 54) := not_or.mpr ⟨left, right⟩
      rw [if_neg other, Function.update_of_ne (Ne.symm left), Function.update_of_ne (Ne.symm right)]
      exact iff_of_true tracks fun h => other (h.2.imp And.left And.left)

/-- From a flag that follows the keys, an operation is answered rightly unless it overlaps. -/
theorem Tracks.follows_iff (tracks : Tracks w) :
    Follows (w.apply op) op ↔ ¬ Overlaps w.down op := by
  cases op with
  | interrupt scancode sc =>
      rw [Keyboard.follows_iff]
      exact tracks.interrupt_iff scancode sc
  | getKey => exact iff_of_true trivial id
  | isThereData => exact iff_of_true trivial id

theorem getKey_shift (global : GlobalData) : (getKey global).1.shift = global.shift := by
  rw [getKey]
  split_ifs
  · rfl
  · rfl

theorem Tracks.step (tracks : Tracks w) (apart : ¬ Overlaps w.down op) : Tracks (w.apply op) := by
  cases op with
  | interrupt scancode sc => exact (tracks.interrupt_iff scancode sc).mpr apart
  | getKey =>
      show decide ((getKey w.stored.global).1.shift ≠ 0) = shiftDown w.down
      rw [getKey_shift]
      exact tracks
  | isThereData => exact tracks

end Results

/-- In a run every event follows the shift keys, if and only if no shift key is released in it
while the other one is down. -/
theorem shift_follows_iff (global : GlobalData) (ops : List Op) (w : Typing) :
    Runs (fun w op w' => TypingStep w op w' ∧ Follows w' op) (Typing.start global) ops w ↔
      Runs (fun w op w' => TypingStep w op w' ∧ ¬ Overlaps w.down op) (Typing.start global) ops
        w := by
  constructor
  · intro run
    refine (run.imp Tracks (tracks_start global) ?_).1
    rintro w op _ tracks ⟨⟨rfl, same⟩, follows⟩
    have apart := tracks.follows_iff.mp follows
    exact ⟨⟨⟨rfl, same⟩, apart⟩, tracks.step apart⟩
  · intro run
    refine (run.imp Tracks (tracks_start global) ?_).1
    rintro w op _ tracks ⟨⟨rfl, same⟩, apart⟩
    exact ⟨⟨⟨rfl, same⟩, tracks.follows_iff.mpr apart⟩, tracks.step apart⟩

/-- Both shift keys go down, the left one comes up, and A is pressed: its event is a small `a`
without the modifier, although the right shift key is still down. -/
theorem shift_lost : ∃ w,
    Runs TypingStep (Typing.start ⟨fun _ => 0, 0, 0, 0⟩)
      [.interrupt 42 42, .interrupt 54 54, .interrupt 0xAA 0xAA, .interrupt 0x1E 0x1E] w ∧
    w.down 54 = true ∧ w.stored.events.getLast? = some 0x1E61 ∧
    ¬ Follows w (.interrupt 0x1E 0x1E) := by
  have next (w : Typing) (sc : Nat) :
      TypingStep w (.interrupt sc sc) (w.apply (.interrupt sc sc)) :=
    ⟨rfl, fun scancode sc' same => by
      obtain ⟨rfl, rfl⟩ := Op.interrupt.inj same
      rfl⟩
  have last : (((((Typing.start ⟨fun _ => 0, 0, 0, 0⟩).apply (.interrupt 42 42)).apply
      (.interrupt 54 54)).apply (.interrupt 0xAA 0xAA)).apply
      (.interrupt 0x1E 0x1E)).stored.events.getLast? = some 0x1E61 := by decide
  refine ⟨_, .snoc (.snoc (.snoc (.snoc .nil (next _ 42)) (next _ 54)) (next _ 0xAA))
    (next _ 0x1E), rfl, last, ?_⟩
  rintro ⟨event, same, follows, _⟩
  rw [last] at same
  obtain rfl := Option.some.inj same
  exact absurd follows (by decide)

end HiveRK.Keyboard
