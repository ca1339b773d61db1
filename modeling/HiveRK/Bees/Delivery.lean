import HiveRK.Bees.Drivers
import HiveRK.Bees.Keyboard.Shift
import Mathlib.Data.List.Infix

/-!
# What the clients get

For the modules that call `get_key`, `is_there_data` and `get_ticks`, all that lies between a line
of the controllers and a driver is a queue of key events and a counter of ticks. A run says in its
labels what every call has output.
-/

namespace HiveRK.Drivers

open Machine Interrupt
open Keyboard

/-- What a client has to know. -/
structure Clients where
  shift : Nat
  unread : List Nat
  ticks : Nat

def Clients.see (k : Clients) : Label → Clients
  | .timerInit => { k with ticks := 0 }
  | .keyboardInit => { k with shift := 0, unread := [] }
  | .irq 0 _ _ => { k with ticks := k.ticks + 1 }
  | .irq 1 _ sc =>
      let shift := shiftAfter k.shift sc
      { k with shift := shift, unread := k.unread ++ [keyEvent shift sc] }
  | .getKey _ => { k with unread := k.unread.tail }
  | _ => k

def clients (labels : List Label) : Clients := labels.foldl Clients.see ⟨0, [], 0⟩

/-- The buffer holds the unread events. -/
structure HoldsKeys (k : Clients) (global : GlobalData) : Prop where
  ring : global.ring.Holds 64 k.unread
  shift : global.shift = k.shift

def Counts (k : Clients) (global : PIT.GlobalData) : Prop :=
  global.ticks.toNat = k.ticks % 2 ^ 32

section Steps

variable {k : Clients} {d : Devices} {l : Label} {global : GlobalData} {events : List Nat}

/-- The oldest event is output and taken away, and 0 if there is none. -/
theorem getKey_holds (ring : global.ring.Holds 64 events) :
    (getKey global).2 = events.headD 0 ∧ (getKey global).1.ring.Holds 64 events.tail := by
  cases events with
  | nil =>
      have empty : global.head = global.tail := ring.empty_iff.mpr rfl
      rw [getKey, if_pos empty]
      exact ⟨rfl, ring⟩
  | cons event events =>
      have some : global.head ≠ global.tail := fun empty =>
        List.cons_ne_nil event events (ring.empty_iff.mp empty)
      obtain ⟨first, rest⟩ := ring.pop
      obtain ⟨out, after⟩ := getKey_ring some
      exact ⟨out.trans first, after ▸ rest⟩

theorem isThereData_holds (ring : global.ring.Holds 64 events) :
    isThereData global = if events = [] then 0 else 1 := by
  have empty : global.head = global.tail ↔ events = [] := ring.empty_iff
  rw [isThereData]
  simp only [empty]

theorem holdsKeys_init (k : Clients) (d : Devices) :
    HoldsKeys (k.see .keyboardInit) (d.see .keyboardInit).keyboard :=
  ⟨RingBuffer.holds_nil (Nat.zero_lt_succ 63) rfl, rfl⟩

/-- Nothing is lost while a cell of the buffer stays free. -/
theorem HoldsKeys.step (holds : HoldsKeys k d.keyboard) (room : (k.see l).unread.length ≤ 63) :
    HoldsKeys (k.see l) (d.see l).keyboard := by
  obtain ⟨ring, shift⟩ := holds
  cases l with
  | keyboardInit => exact holdsKeys_init k d
  | irq i scancode sc =>
      match i with
      | 0 => exact ⟨ring, shift⟩
      | 1 =>
          have length : (k.unread ++ [keyEvent (shiftAfter k.shift sc) sc]).length ≤ 63 := room
          rw [List.length_append, List.length_singleton] at length
          have pushed := ring.push (by omega) (keyEvent (shiftAfter d.keyboard.shift sc) sc)
          rw [← interruptHandler_ring d.keyboard scancode sc, shift] at pushed
          exact ⟨pushed, congrArg (shiftAfter · sc) shift⟩
      | i + 2 => exact ⟨ring, shift⟩
  | getKey event => exact ⟨(getKey_holds ring).2, (getKey_shift d.keyboard).trans shift⟩
  | _ => exact ⟨ring, shift⟩

theorem counts_init (k : Clients) (d : Devices) :
    Counts (k.see .timerInit) (d.see .timerInit).timer.global := rfl

theorem Counts.step (counts : Counts k d.timer.global) :
    Counts (k.see l) (d.see l).timer.global := by
  cases l with
  | timerInit => exact counts_init k d
  | irq i scancode sc =>
      match i with
      | 0 =>
          show (d.timer.global.ticks + 1).toNat = (k.ticks + 1) % 2 ^ 32
          rw [BitVec.toNat_add, show d.timer.global.ticks.toNat = _ from counts]
          exact Nat.mod_add_mod k.ticks (2 ^ 32) 1
      | 1 => exact counts
      | i + 2 => exact counts
  | setFrequency frequency =>
      have same : (PIT.setFrequency d.timer frequency).1.global.ticks = d.timer.global.ticks := by
        rw [PIT.setFrequency]
        split_ifs
        · rfl
        · rfl
      exact (congrArg BitVec.toNat same).trans counts
  | _ => exact counts

end Steps

/-- The drivers hold what their clients expect, each once it is initialised. -/
structure Served (labels : List Label) (d : Devices) : Prop where
  keys : .keyboardInit ∈ labels → HoldsKeys (clients labels) d.keyboard
  ticks : .timerInit ∈ labels → Counts (clients labels) d.timer.global

section Runs

variable {S : Setup} {d : Devices} {labels : List Label} {l : Label} {w w' : World} {m : Mem}
variable {p : PIC.Pair}

theorem clients_snoc (labels : List Label) (l : Label) :
    clients (labels ++ [l]) = (clients labels).see l := by
  rw [clients, List.foldl_append]
  rfl

theorem Served.snoc (served : Served labels d)
    (room : (clients (labels ++ [l])).unread.length ≤ 63) :
    Served (labels ++ [l]) (d.see l) := by
  rw [clients_snoc] at room
  constructor
  · intro began
    rw [clients_snoc]
    by_cases init : l = .keyboardInit
    · obtain rfl := init
      exact holdsKeys_init (clients labels) d
    · exact (served.keys ((mem_snoc_of_ne init).mp began)).step room
  · intro began
    rw [clients_snoc]
    by_cases init : l = .timerInit
    · obtain rfl := init
      exact counts_init (clients labels) d
    · exact (served.ticks ((mem_snoc_of_ne init).mp began)).step

/-- The two drivers alone, behind any labels. -/
theorem served_run (d : Devices) (labels : List Label)
    (room : ∀ done, done <+: labels → (clients done).unread.length ≤ 63) :
    Served labels (labels.foldl Devices.see d) := by
  induction labels using List.reverseRecOn with
  | nil =>
      exact ⟨fun none => absurd none List.not_mem_nil, fun none => absurd none List.not_mem_nil⟩
  | append_singleton labels l ih =>
      rw [List.foldl_append]
      exact (ih fun done before => room done (before.trans (List.prefix_append labels [l]))).snoc
        (room _ (List.prefix_refl _))

/-- What the drivers do for a command is what its clients expect. -/
theorem served_before (sound : S.Sound)
    (idle : p.master.inService = 0 ∧ p.slave.inService = 0)
    (run : Runs (Step S)
      ⟨idtInit S.symbol S.base S.global m, idtInitPorts p, d.timer, d.keyboard⟩ labels w)
    (room : ∀ done, done <+: labels → (clients done).unread.length ≤ 63) {done rest : List Label}
    (split : labels = done ++ l :: rest) :
    ∃ v v', Served done v.devices ∧ Step S v l v' := by
  obtain rfl := split
  obtain ⟨v, v', before, step⟩ := run.reaches
  refine ⟨v, v', ?_, step⟩
  rw [(Inv.run sound idle before).devices]
  exact served_run d done fun part inside => room part (inside.trans (List.prefix_append done _))

/-- Whatever else happens: while never more than 63 events are unread, every `get_key` outputs the
oldest event that was not yet read, or 0, `is_there_data` says whether there is one, and
`get_ticks` counts the interrupts of the timer modulo 2 ^ 32. -/
theorem clients_served (sound : S.Sound) (idle : p.master.inService = 0 ∧ p.slave.inService = 0)
    (run : Runs (Step S)
      ⟨idtInit S.symbol S.base S.global m, idtInitPorts p, d.timer, d.keyboard⟩ labels w)
    (room : ∀ done, done <+: labels → (clients done).unread.length ≤ 63) :
    (∀ done event rest, labels = done ++ .getKey event :: rest → .keyboardInit ∈ done →
      event = (clients done).unread.headD 0) ∧
    (∀ done data rest, labels = done ++ .isThereData data :: rest → .keyboardInit ∈ done →
      data = if (clients done).unread = [] then 0 else 1) ∧
    (∀ done ticks rest, labels = done ++ .getTicks ticks :: rest → .timerInit ∈ done →
      ticks.toNat = (clients done).ticks % 2 ^ 32) := by
  refine ⟨fun done event rest split began => ?_, fun done data rest split began => ?_,
    fun done ticks rest split began => ?_⟩
  · obtain ⟨v, v', served, rfl, -⟩ := served_before sound idle run room split
    exact (getKey_holds (served.keys began).ring).1
  · obtain ⟨v, v', served, rfl, -⟩ := served_before sound idle run room split
    exact isThereData_holds (served.keys began).ring
  · obtain ⟨v, v', served, rfl, -⟩ := served_before sound idle run room split
    exact served.ticks began

/-- What the keyboard is asked, with what it outputs. -/
def Devices.answers (d : Devices) : Label → Bool
  | .irq i _ _ => i = 1
  | .getKey event => event = (getKey d.keyboard).2
  | .isThereData data => data = isThereData d.keyboard
  | _ => false

def answered (d : Devices) (l : Label) : Option Devices :=
  if d.answers l then some (d.see l) else none

/-- Once it is initialised, the keyboard is reached by every interrupt and every call. -/
theorem Inv.answers (sound : S.Sound) (idle : p.master.inService = 0 ∧ p.slave.inService = 0)
    (run : Runs (Step S)
      ⟨idtInit S.symbol S.base S.global m, idtInitPorts p, d.timer, d.keyboard⟩ labels w)
    (began : .keyboardInit ∈ labels) {more : List Label} {d' : Devices}
    (taken : more.foldlM answered w.devices = some d') :
    ∃ w', Runs (Step S)
      ⟨idtInit S.symbol S.base S.global m, idtInitPorts p, d.timer, d.keyboard⟩
      (labels ++ more) w' ∧ w'.devices = d' := by
  induction more generalizing labels w with
  | nil => exact ⟨w, (List.append_nil labels).symm ▸ run, Option.some.inj taken⟩
  | cons l more ih =>
      obtain ⟨next, one, rest⟩ := Option.bind_eq_some_iff.mp taken
      rw [answered] at one
      split_ifs at one with answers
      obtain rfl := Option.some.inj one
      have inv := Inv.run sound idle run
      obtain ⟨w₁, step⟩ : ∃ w₁, Step S w l w₁ := by
        cases l with
        | irq i scancode sc =>
            obtain rfl := of_decide_eq_true answers
            exact inv.keyboard_interrupts sound began scancode sc
        | getKey event => exact ⟨_, of_decide_eq_true answers, rfl⟩
        | isThereData data => exact ⟨_, of_decide_eq_true answers, rfl⟩
        | _ => exact Bool.noConfusion answers
      have seen : w₁.devices = w.devices.see l := by
        rw [(inv.step sound step).devices, inv.devices, List.foldl_append]
        rfl
      obtain ⟨w', run', same⟩ := ih (.snoc run step) (List.mem_append_left _ began) (seen ▸ rest)
      exact ⟨w', List.append_cons labels l more ▸ run', same⟩

end Runs

/-- The key A is pressed and read again and again, until nothing is left. -/
def typing : List Label :=
  (List.replicate 65 [.irq 1 0x1E 0x1E, .getKey 0x1E61]).flatten ++ [.isThereData 0]

/-- Both indices go around, and every key is read. -/
theorem clients_served_typing : ∃ w, Runs (Step sampleSetup)
    ⟨idtInit sampleSymbol 0x8000 0x1000 sampleArgs, idtInitPorts idlePair,
      ⟨⟨0, 0, 0⟩, ⟨none, 0⟩⟩, ⟨fun _ => 0, 0, 0, 0⟩⟩ (.keyboardInit :: typing) w ∧
    w.keyboard.head = 1 ∧ w.keyboard.tail = 1 ∧
    ∀ done event rest, .keyboardInit :: typing = done ++ .getKey event :: rest →
      .keyboardInit ∈ done → event = (clients done).unread.headD 0 := by
  obtain ⟨m', registers⟩ := sample_registered
  let d : Devices := ⟨⟨⟨0, 0, 0⟩, ⟨none, 0⟩⟩, ⟨fun _ => 0, 0, 0, 0⟩⟩
  have began : Runs (Step sampleSetup)
      ⟨idtInit sampleSymbol 0x8000 0x1000 sampleArgs, idtInitPorts idlePair, d.timer, d.keyboard⟩
      [.keyboardInit] _ :=
    .snoc .nil (show Step sampleSetup _ .keyboardInit _ from ⟨_, ⟨m', registers, rfl⟩, rfl⟩)
  have ends : (typing.foldlM answered (d.see .keyboardInit)).map
      (fun d => (d.keyboard.head, d.keyboard.tail)) = some (1, 1) := by decide +kernel
  obtain ⟨d', taken, same⟩ := Option.map_eq_some_iff.mp ends
  obtain ⟨w, run, devices⟩ := Inv.answers sampleSetup_sound ⟨rfl, rfl⟩ began List.mem_cons_self
    taken
  have room : ∀ done ∈ (Label.keyboardInit :: typing).inits, (clients done).unread.length ≤ 63 := by
    decide +kernel
  obtain ⟨head, tail⟩ := Prod.mk.inj same
  refine ⟨w, run, ?_, ?_, (clients_served sampleSetup_sound ⟨rfl, rfl⟩ run fun done before =>
    room done ((List.mem_inits _ _).mpr before)).1⟩
  · rw [← head, ← devices]
    rfl
  · rw [← tail, ← devices]
    rfl

end HiveRK.Drivers
