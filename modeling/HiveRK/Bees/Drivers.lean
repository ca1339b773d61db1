import HiveRK.Bees.Interrupt.Controller
import HiveRK.Bees.Interrupt.Frame
import HiveRK.Bees.Keyboard.Basic
import HiveRK.Bees.PIT.Sleep

/-!
# The drivers behind the interrupt module

The timer and the keyboard register a handler and unmask their line when they are initialised.
A request then goes through the controllers, the descriptor table, a stub and `isr_handler` to
the handler. Seen from the two drivers all of this disappears: what happens is that the timer
ticks and the keyboard stores an event.
-/

namespace HiveRK.Drivers

open Machine Interrupt
open PIC (Pair level)

/-- Where the modules lie, and the code at the handlers' addresses. -/
structure Setup where
  symbol : Interrupt.Label → Nat
  base : Nat
  core : Nat
  global : Nat
  timer : Nat
  keyboard : Nat
  image : Nat → Option Stub
  code : Nat → Registers → Mem → Registers × Mem

/-- The stubs are where the linker put them, the handlers of the drivers lie at addresses of their
own, and no handler writes to the tables or to the saved vector. -/
structure Setup.Sound (S : Setup) : Prop where
  fits : S.global + 3080 ≤ 2 ^ 32
  linked : ∀ stub ∈ stubs, S.image (u32 (S.base + S.symbol stub.label)) = some stub
  timer : S.timer ≠ 0
  keyboard : S.keyboard ≠ 0
  distinct : S.timer ≠ S.keyboard
  number : ∀ h r m, (S.code h r m).1.int_no = r.int_no
  tables : ∀ h r m, AgreeOn m (S.code h r m).2 S.global 3080

structure World where
  mem : Mem
  pics : Pair
  timer : PIT.Timer
  keyboard : Keyboard.GlobalData

/-- The commands have what they output. -/
inductive Label where
  | elsewhere
  | register (id flags handler : Nat)
  | unmask (irq : Byte)
  | timerInit
  | keyboardInit
  | irq (i scancode sc : Nat)
  | setFrequency (frequency : PIT.Word)
  | getTicks (ticks : PIT.Word)
  | getKey (event : Nat)
  | isThereData (data : Nat)
deriving DecidableEq, Repr

/-- What the handler at an address does for its driver. The port of the keyboard is read twice. -/
def World.call (S : Setup) (scancode sc : Nat) (w : World) (handler : Nat) : World :=
  if handler = S.timer then
    { w with timer := { w.timer with global := (PIT.interruptHandler w.timer.global).1 } }
  else if handler = S.keyboard then
    { w with keyboard := Keyboard.interruptHandler w.keyboard scancode sc }
  else w

def World.act (S : Setup) (scancode sc : Nat) (w : World) : Event → World
  | .call handler _ => w.call S scancode sc handler
  | event => { w with pics := event.act w.pics }

/-- A call of `registerInterrupt`. -/
def World.Registers (S : Setup) (w : World) (id flags handler : Nat) (w' : World) : Prop :=
  ∃ m, Interrupt.Step S.core S.global w.mem (.register id flags handler) m ∧
    w' = { w with mem := m }

/-- An interrupt of a line, from the request to the return of `isr_handler`. The machine halts
where no handler is registered. -/
def World.Interrupts (S : Setup) (w : World) (i scancode sc : Nat) (w' : World) : Prop :=
  i < 16 ∧ w.pics.Accepts i ∧ ∃ cpu above r m events,
    deliver S.image S.code w.mem S.global (w.pics.vector i).toNat cpu above none =
      some (r, m, events) ∧ (∀ v, .unhandled v ∉ events) ∧
    w' = events.foldl (World.act S scancode sc) { w with pics := w.pics.accept i, mem := m }

/-- Other modules register handlers of their own for other vectors. A frequency of 0 faults. -/
def Step (S : Setup) (w : World) : Label → World → Prop
  | .elsewhere, w' => ∃ m, AgreeOn w.mem m S.global 3080 ∧ w' = { w with mem := m }
  | .register id flags handler, w' => id ≠ 32 ∧ id ≠ 33 ∧ handler ≠ S.timer ∧
      handler ≠ S.keyboard ∧ w.Registers S id flags handler w'
  | .unmask irq, w' => w' = { w with pics := picUnmaskIrq w.pics irq }
  | .timerInit, w' =>
      ∃ v, { w with timer := PIT.beeInit w.timer.channel }.Registers S 32 0x8E S.timer v ∧
        w' = { v with pics := picUnmaskIrq v.pics 0 }
  | .keyboardInit, w' =>
      ∃ v, { w with keyboard := Keyboard.beeInit w.keyboard }.Registers S 33 0x8E S.keyboard v ∧
        w' = { v with pics := picUnmaskIrq v.pics 1 }
  | .irq i scancode sc, w' => w.Interrupts S i scancode sc w'
  | .setFrequency frequency, w' =>
      frequency ≠ 0 ∧ w' = { w with timer := (PIT.setFrequency w.timer frequency).1 }
  | .getTicks ticks, w' => ticks = PIT.getTicks w.timer.global ∧ w' = w
  | .getKey event, w' => event = (Keyboard.getKey w.keyboard).2 ∧
      w' = { w with keyboard := (Keyboard.getKey w.keyboard).1 }
  | .isThereData data, w' => data = Keyboard.isThereData w.keyboard ∧ w' = w

/-! ### The two drivers alone -/

structure Devices where
  timer : PIT.Timer
  keyboard : Keyboard.GlobalData

def World.devices (w : World) : Devices := ⟨w.timer, w.keyboard⟩

def Devices.see (d : Devices) : Label → Devices
  | .timerInit => { d with timer := PIT.beeInit d.timer.channel }
  | .keyboardInit => { d with keyboard := Keyboard.beeInit d.keyboard }
  | .irq 0 _ _ => { d with timer := { d.timer with global := PIT.tick d.timer.global } }
  | .irq 1 scancode sc => { d with keyboard := Keyboard.interruptHandler d.keyboard scancode sc }
  | .setFrequency frequency => { d with timer := (PIT.setFrequency d.timer frequency).1 }
  | .getKey _ => { d with keyboard := (Keyboard.getKey d.keyboard).1 }
  | _ => d

/-! ### Runs -/

/-- What a step is for the tables. -/
def Label.op (S : Setup) : Label → Op
  | .register id flags handler => .register id flags handler
  | .timerInit => .register 32 0x8E S.timer
  | .keyboardInit => .register 33 0x8E S.keyboard
  | _ => .elsewhere

/-- What a step is for the controllers. -/
def Label.actions : Label → List Action
  | .unmask line => [.unmask line]
  | .timerInit => [.unmask 0]
  | .keyboardInit => [.unmask 1]
  | .irq i _ _ => [.request i, .ret]
  | _ => []

/-- The handler that is registered for a vector. -/
def handlerOf (S : Setup) (labels : List Label) (v : Nat) : Nat :=
  (lastRegistration (labels.map (Label.op S)) v).2

/-- The drivers' handlers are registered for their vectors once they are initialised, and for no
other vector. -/
structure Owned (S : Setup) (labels : List Label) : Prop where
  timer : handlerOf S labels 32 = if .timerInit ∈ labels then S.timer else 0
  keyboard : handlerOf S labels 33 = if .keyboardInit ∈ labels then S.keyboard else 0
  others : ∀ v, v ≠ 32 → v ≠ 33 → handlerOf S labels v ≠ S.timer ∧ handlerOf S labels v ≠ S.keyboard

structure Inv (S : Setup) (d : Devices) (labels : List Label) (w : World) : Prop where
  tables : Tables S.symbol S.base S.global (lastRegistration (labels.map (Label.op S))) w.mem
  serving : Serving (labels.flatMap Label.actions) ⟨w.pics, []⟩
  owned : Owned S labels
  devices : w.devices = labels.foldl Devices.see d

section Steps

variable {S : Setup} {d : Devices} {labels : List Label} {l : Label} {w w' : World} {m : Mem}

theorem handlerOf_elsewhere (other : l.op S = .elsewhere) (v : Nat) :
    handlerOf S (labels ++ [l]) v = handlerOf S labels v := by
  rw [handlerOf, List.map_append, List.map_singleton, other, lastRegistration_elsewhere]
  rfl

theorem handlerOf_register {id flags handler : Nat} (op : l.op S = .register id flags handler)
    (v : Nat) :
    handlerOf S (labels ++ [l]) v = if v = id then handler else handlerOf S labels v := by
  rw [handlerOf, List.map_append, List.map_singleton, op, lastRegistration_register,
    Function.update_apply]
  split_ifs with same
  · rfl
  · rfl

theorem owned_nil (sound : S.Sound) : Owned S [] := by
  refine ⟨rfl, rfl, fun v _ _ => ⟨?_, ?_⟩⟩
  · exact sound.timer.symm
  · exact sound.keyboard.symm

theorem mem_snoc_of_ne {l l' : Label} (other : l ≠ l') : l' ∈ labels ++ [l] ↔ l' ∈ labels := by
  rw [List.mem_append, List.mem_singleton]
  exact or_iff_left other.symm

theorem Owned.elsewhere (owned : Owned S labels) (other : l.op S = .elsewhere) :
    Owned S (labels ++ [l]) := by
  have timer : l ≠ .timerInit := by
    rintro rfl
    exact Op.noConfusion other
  have keyboard : l ≠ .keyboardInit := by
    rintro rfl
    exact Op.noConfusion other
  refine ⟨?_, ?_, fun v => ?_⟩
  · rw [handlerOf_elsewhere other, owned.timer]
    simp only [mem_snoc_of_ne timer]
  · rw [handlerOf_elsewhere other, owned.keyboard]
    simp only [mem_snoc_of_ne keyboard]
  · rw [handlerOf_elsewhere other]
    exact owned.others v

theorem Owned.register (owned : Owned S labels) {id flags handler : Nat} (timer : id ≠ 32)
    (keyboard : id ≠ 33) (own : handler ≠ S.timer) (own' : handler ≠ S.keyboard) :
    Owned S (labels ++ [.register id flags handler]) := by
  have op : Label.op S (.register id flags handler) = .register id flags handler := rfl
  refine ⟨?_, ?_, fun v other other' => ?_⟩
  · rw [handlerOf_register op, if_neg timer.symm, owned.timer]
    simp only [mem_snoc_of_ne (show Label.register id flags handler ≠ .timerInit from nofun)]
  · rw [handlerOf_register op, if_neg keyboard.symm, owned.keyboard]
    simp only [mem_snoc_of_ne (show Label.register id flags handler ≠ .keyboardInit from nofun)]
  · rw [handlerOf_register op]
    split_ifs with same
    · exact ⟨own, own'⟩
    · exact owned.others v other other'

theorem Owned.timerInit (owned : Owned S labels) : Owned S (labels ++ [.timerInit]) := by
  have op : Label.op S .timerInit = .register 32 0x8E S.timer := rfl
  refine ⟨?_, ?_, fun v other other' => ?_⟩
  · rw [handlerOf_register op, if_pos rfl, if_pos (List.mem_append_right _ List.mem_cons_self)]
  · rw [handlerOf_register op, if_neg (by decide), owned.keyboard]
    simp only [mem_snoc_of_ne (show Label.timerInit ≠ .keyboardInit from nofun)]
  · rw [handlerOf_register op, if_neg other]
    exact owned.others v other other'

theorem Owned.keyboardInit (owned : Owned S labels) : Owned S (labels ++ [.keyboardInit]) := by
  have op : Label.op S .keyboardInit = .register 33 0x8E S.keyboard := rfl
  refine ⟨?_, ?_, fun v other other' => ?_⟩
  · rw [handlerOf_register op, if_neg (by decide), owned.timer]
    simp only [mem_snoc_of_ne (show Label.keyboardInit ≠ .timerInit from nofun)]
  · rw [handlerOf_register op, if_pos rfl, if_pos (List.mem_append_right _ List.mem_cons_self)]
  · rw [handlerOf_register op, if_neg other']
    exact owned.others v other other'

/-- A step that leaves the tables alone. -/
theorem Tables.elsewhere_snoc (sound : S.Sound) (other : l.op S = .elsewhere)
    (tables : Tables S.symbol S.base S.global (lastRegistration (labels.map (Label.op S))) w.mem)
    (same : AgreeOn w.mem m S.global 3080) :
    Tables S.symbol S.base S.global (lastRegistration ((labels ++ [l]).map (Label.op S))) m := by
  rw [List.map_append, List.map_singleton, other, lastRegistration_elsewhere]
  exact tables.elsewhere sound.fits same

theorem Tables.register_snoc (sound : S.Sound) {id flags handler : Nat}
    (op : l.op S = .register id flags handler)
    (tables : Tables S.symbol S.base S.global (lastRegistration (labels.map (Label.op S))) w.mem)
    (step : Interrupt.Step S.core S.global w.mem (.register id flags handler) m) :
    Tables S.symbol S.base S.global (lastRegistration ((labels ++ [l]).map (Label.op S))) m := by
  obtain ⟨small, rfl, rfl, rfl, rfl⟩ := step
  rw [List.map_append, List.map_singleton, op, lastRegistration_register]
  exact tables.register sound.fits small (load32_lt _ _)

theorem World.act_ends (scancode sc : Nat) (w : World) {events : List Event}
    (calls : ∀ handler r, .call handler r ∉ events) :
    events.foldl (World.act S scancode sc) w =
      { w with pics := events.foldl Event.act w.pics } := by
  induction events generalizing w with
  | nil => rfl
  | cons event events ih =>
      rw [List.foldl_cons, List.foldl_cons, ih _ fun handler r later =>
        calls handler r (List.mem_cons_of_mem event later)]
      cases event with
      | call handler r => exact absurd List.mem_cons_self (calls handler r)
      | unhandled number => rfl
      | outb port data => rfl

/-- A handler sees neither the tables nor the controllers. -/
theorem World.call_eq (scancode sc : Nat) (w : World) (pics : Pair) (m : Mem) (handler : Nat) :
    { w with pics := pics, mem := m }.call S scancode sc handler =
      { w.call S scancode sc handler with pics := pics, mem := m } := by
  simp only [World.call]
  split_ifs with timer keyboard
  · rfl
  · rfl
  · rfl

theorem acknowledgements_calls (v handler : Nat) (r : Interrupt.Registers) :
    .call handler r ∉ acknowledgements v := by
  rw [acknowledgements]
  split_ifs with slave master
  · simp
  · simp
  · simp
  · simp

/-- What an interrupt of a line does: its handler is called once, and the controllers are as
before. -/
theorem Inv.interrupts (inv : Inv S d labels w) (sound : S.Sound) {i scancode sc : Nat}
    (interrupts : w.Interrupts S i scancode sc w') : i < 16 ∧ w.pics.Accepts i ∧
      handlerOf S labels (32 + i) ≠ 0 ∧ AgreeOn w.mem w'.mem S.global 3080 ∧
      w'.pics = (w.pics.accept i).finish i ∧
      w'.devices = (w.call S scancode sc (handlerOf S labels (32 + i))).devices := by
  obtain ⟨small, accepts, cpu, above, r, m, events, delivered, handled, rfl⟩ := interrupts
  obtain ⟨stub, mem, vector⟩ := exists_stub (show 32 + i < 256 by omega)
  rw [vector_eq inv.serving.masterBase inv.serving.slaveBase small, ← vector, deliver,
    (inv.tables.gate stub mem).decodes, sound.linked stub mem, Option.map_some] at delivered
  have number : (saved stub cpu above none).int_no = 32 + i :=
    (saved_spec mem cpu above none).int_no.trans vector
  have handler : load32 w.mem (handlerFunctions S.global (saved stub cpu above none).int_no) =
      handlerOf S labels (32 + i) := by
    rw [number, inv.tables.handler (32 + i) (by omega)]
    rfl
  have registered : handlerOf S labels (32 + i) ≠ 0 := by
    intro none
    rw [isrHandler, handler, if_pos none] at delivered
    obtain ⟨-, -, rfl⟩ := Option.some.inj delivered
    exact handled _ List.mem_cons_self
  rw [isrHandler_registered S.code handler registered (sound.number ..), number] at delivered
  obtain ⟨rfl, rfl, rfl⟩ := Option.some.inj delivered
  have ended := endOfInterrupt_act (w.pics.accept i) small
  rw [endOfInterrupt_eq] at ended
  refine ⟨small, accepts, registered, ?_⟩
  have called := World.call_eq (S := S) scancode sc w (w.pics.accept i)
    (S.code (handlerOf S labels (32 + i)) (saved stub cpu above none) w.mem).2
    (handlerOf S labels (32 + i))
  rw [List.foldl_cons, World.act_ends _ _ _ (acknowledgements_calls (32 + i)), World.act, called]
  exact ⟨sound.tables _ _ _, ended, rfl⟩

/-- The handler of a line does for the drivers what they see. -/
theorem Owned.devices_call (owned : Owned S labels) (sound : S.Sound) {i : Nat} (scancode sc : Nat)
    (small : i < 16) (registered : handlerOf S labels (32 + i) ≠ 0) (w : World) :
    (w.call S scancode sc (handlerOf S labels (32 + i))).devices =
      w.devices.see (.irq i scancode sc) := by
  match i with
  | 0 =>
      have timer := owned.timer
      rw [Nat.add_zero] at registered ⊢
      rw [timer] at registered ⊢
      split_ifs at registered ⊢ with began
      · rw [World.call, if_pos rfl]
        rfl
      · exact absurd rfl registered
  | 1 =>
      have keyboard := owned.keyboard
      rw [show 32 + 1 = 33 from rfl, keyboard] at registered ⊢
      split_ifs at registered ⊢ with began
      · rw [World.call, if_neg sound.distinct.symm, if_pos rfl]
        rfl
      · exact absurd rfl registered
  | i + 2 =>
      obtain ⟨timer, keyboard⟩ := owned.others (32 + (i + 2)) (by omega) (by omega)
      rw [World.call, if_neg timer, if_neg keyboard]
      rfl

end Steps

section Runs

variable {S : Setup} {d : Devices} {labels : List Label} {l : Label} {w w' : World} {m : Mem}
variable {p : Pair}

theorem inv_start (sound : S.Sound) (idle : p.master.inService = 0 ∧ p.slave.inService = 0)
    (m : Mem) (d : Devices) :
    Inv S d [] ⟨idtInit S.symbol S.base S.global m, idtInitPorts p, d.timer, d.keyboard⟩ :=
  ⟨.init sound.fits m, serving_start idle, owned_nil sound, rfl⟩

theorem Inv.snoc (inv : Inv S d labels w)
    (tables : Tables S.symbol S.base S.global
      (lastRegistration ((labels ++ [l]).map (Label.op S))) w'.mem)
    (serving : Serving (labels.flatMap Label.actions ++ l.actions) ⟨w'.pics, []⟩)
    (owned : Owned S (labels ++ [l])) (devices : w'.devices = w.devices.see l) :
    Inv S d (labels ++ [l]) w' where
  tables := tables
  serving := by
    rwa [List.flatMap_append, List.flatMap_singleton]
  owned := owned
  devices := by
    rw [devices, inv.devices, List.foldl_append]
    rfl

theorem serving_append_nil {actions : List Action} {s : Service} (serving : Serving actions s) :
    Serving (actions ++ []) s := (List.append_nil actions).symm ▸ serving

/-- One request that is accepted and ended. -/
theorem Inv.serve (inv : Inv S d labels w) {i : Nat} (small : i < 16) (accepts : w.pics.Accepts i) :
    Serving (labels.flatMap Label.actions ++ [.request i, .ret])
      ⟨(w.pics.accept i).finish i, []⟩ := by
  have vector := vector_eq inv.serving.masterBase inv.serving.slaveBase small
  have entered := inv.serving.step (a := .request i) ⟨small, accepts, rfl⟩
  have ended := entered.step (a := .ret) ⟨_, _, rfl, rfl⟩
  rwa [vector, endOfInterrupt_act _ small, List.append_assoc] at ended

/-- A step that registers nothing and leaves the controllers alone. -/
theorem Inv.quiet (inv : Inv S d labels w) (sound : S.Sound) (other : l.op S = .elsewhere)
    (none : l.actions = []) (same : AgreeOn w.mem w'.mem S.global 3080) (pics : w'.pics = w.pics)
    (devices : w'.devices = w.devices.see l) : Inv S d (labels ++ [l]) w' := by
  refine inv.snoc (Tables.elsewhere_snoc sound other inv.tables same) ?_
    (inv.owned.elsewhere other) devices
  rw [none, pics]
  exact serving_append_nil inv.serving

theorem Inv.step (inv : Inv S d labels w) (sound : S.Sound) (step : Step S w l w') :
    Inv S d (labels ++ [l]) w' := by
  cases l with
  | elsewhere =>
      obtain ⟨m, same, rfl⟩ := step
      exact inv.quiet sound rfl rfl same rfl rfl
  | register id flags handler =>
      obtain ⟨timer, keyboard, own, own', m, registered, rfl⟩ := step
      exact inv.snoc (Tables.register_snoc sound rfl inv.tables registered)
        (serving_append_nil inv.serving) (inv.owned.register timer keyboard own own') rfl
  | unmask irq =>
      obtain rfl := step
      exact inv.snoc (Tables.elsewhere_snoc sound rfl inv.tables (AgreeOn.refl _ _ _))
        (inv.serving.unmask irq) (inv.owned.elsewhere rfl) rfl
  | timerInit =>
      obtain ⟨_, ⟨m, registered, rfl⟩, rfl⟩ := step
      exact inv.snoc (Tables.register_snoc sound rfl inv.tables registered)
        (inv.serving.unmask 0) inv.owned.timerInit rfl
  | keyboardInit =>
      obtain ⟨_, ⟨m, registered, rfl⟩, rfl⟩ := step
      exact inv.snoc (Tables.register_snoc sound rfl inv.tables registered)
        (inv.serving.unmask 1) inv.owned.keyboardInit rfl
  | irq i scancode sc =>
      obtain ⟨small, accepts, registered, same, pics, devices⟩ := inv.interrupts sound step
      refine inv.snoc (Tables.elsewhere_snoc sound rfl inv.tables same) ?_
        (inv.owned.elsewhere rfl)
        (devices.trans (inv.owned.devices_call sound scancode sc small registered w))
      rw [pics]
      exact inv.serve small accepts
  | setFrequency frequency =>
      obtain ⟨-, rfl⟩ := step
      exact inv.quiet sound rfl rfl (AgreeOn.refl _ _ _) rfl rfl
  | getTicks ticks =>
      obtain ⟨-, rfl⟩ := step
      exact inv.quiet sound rfl rfl (AgreeOn.refl _ _ _) rfl rfl
  | getKey event =>
      obtain ⟨-, rfl⟩ := step
      exact inv.quiet sound rfl rfl (AgreeOn.refl _ _ _) rfl rfl
  | isThereData data =>
      obtain ⟨-, rfl⟩ := step
      exact inv.quiet sound rfl rfl (AgreeOn.refl _ _ _) rfl rfl

theorem Inv.run (sound : S.Sound) (idle : p.master.inService = 0 ∧ p.slave.inService = 0)
    (run : Runs (Step S)
      ⟨idtInit S.symbol S.base S.global m, idtInitPorts p, d.timer, d.keyboard⟩ labels w) :
    Inv S d labels w := by
  induction run with
  | nil => exact inv_start sound idle m d
  | snoc _ step ih => exact ih.step sound step

/-- An accepted request of a registered line is handled. -/
theorem Inv.progress (inv : Inv S d labels w) (sound : S.Sound) {i : Nat} (small : i < 16)
    (accepts : w.pics.Accepts i) (registered : handlerOf S labels (32 + i) ≠ 0)
    (scancode sc : Nat) : ∃ w', Step S w (.irq i scancode sc) w' := by
  obtain ⟨stub, mem, vector⟩ := exists_stub (show 32 + i < 256 by omega)
  have number : (saved stub sampleCpu [] none).int_no = 32 + i :=
    (saved_spec mem sampleCpu [] none).int_no.trans vector
  have handler : load32 w.mem (handlerFunctions S.global (saved stub sampleCpu [] none).int_no) =
      handlerOf S labels (32 + i) := by
    rw [number, inv.tables.handler (32 + i) (by omega)]
    rfl
  have delivered : deliver S.image S.code w.mem S.global (w.pics.vector i).toNat sampleCpu [] none =
      some (isrHandler S.code w.mem S.global (saved stub sampleCpu [] none)) := by
    rw [vector_eq inv.serving.masterBase inv.serving.slaveBase small, ← vector, deliver,
      (inv.tables.gate stub mem).decodes, sound.linked stub mem, Option.map_some]
  rw [isrHandler_registered S.code handler registered (sound.number ..)] at delivered
  refine ⟨_, small, accepts, _, _, _, _, _, delivered, fun v unhandled => ?_, rfl⟩
  obtain called | ended := List.mem_cons.mp unhandled
  · exact Event.noConfusion called
  · rw [acknowledgements] at ended
    split_ifs at ended
    all_goals simp at ended

theorem Inv.accepts_iff (inv : Inv S d labels w) {i : Nat} (small : i < 16) :
    w.pics.Accepts i ↔ i ≠ 2 ∧ Unmasked (labels.flatMap Label.actions) (level i) ∧
      Unmasked (labels.flatMap Label.actions) i := by
  rw [inv.serving.nested.accepts_iff inv.serving.programmed, inv.serving.masks i small,
    inv.serving.masks (level i) (Nat.lt_trans (PIC.level_lt i) (by decide))]
  simp [linesOf]

theorem unmasked_of_mem {irq : Byte} (began : l ∈ labels) (opens : l.actions = [.unmask irq]) :
    Unmasked (labels.flatMap Label.actions) (irqLine irq) :=
  ⟨irq, List.mem_flatMap.mpr ⟨l, began, opens ▸ List.mem_cons_self⟩, rfl⟩

theorem Inv.timer_interrupts (inv : Inv S d labels w) (sound : S.Sound)
    (began : .timerInit ∈ labels) (scancode sc : Nat) :
    ∃ w', Step S w (.irq 0 scancode sc) w' := by
  have line : Unmasked (labels.flatMap Label.actions) 0 := unmasked_of_mem began rfl
  have accepts : w.pics.Accepts 0 := (inv.accepts_iff (by decide)).mpr ⟨by decide, line, line⟩
  refine inv.progress sound (by decide) accepts ?_ scancode sc
  rw [Nat.add_zero, inv.owned.timer, if_pos began]
  exact sound.timer

theorem Inv.keyboard_interrupts (inv : Inv S d labels w) (sound : S.Sound)
    (began : .keyboardInit ∈ labels) (scancode sc : Nat) :
    ∃ w', Step S w (.irq 1 scancode sc) w' := by
  have line : Unmasked (labels.flatMap Label.actions) 1 := unmasked_of_mem began rfl
  have accepts : w.pics.Accepts 1 := (inv.accepts_iff (by decide)).mpr ⟨by decide, line, line⟩
  refine inv.progress sound (by decide) accepts ?_ scancode sc
  rw [show 32 + 1 = 33 from rfl, inv.owned.keyboard, if_pos began]
  exact sound.keyboard

/-- Whatever the modules and the lines do after `idt_init`: the drivers are where they would be if
their interrupts were calls of their handlers and nothing else existed. After every interrupt
nothing is left in service, and the lines that are accepted are those that were unmasked. A
driver that was initialised gets the next interrupt of its line. -/
theorem drivers_run (sound : S.Sound) (idle : p.master.inService = 0 ∧ p.slave.inService = 0)
    (run : Runs (Step S)
      ⟨idtInit S.symbol S.base S.global m, idtInitPorts p, d.timer, d.keyboard⟩ labels w) :
    w.devices = labels.foldl Devices.see d ∧
      w.pics.master.inService = 0 ∧ w.pics.slave.inService = 0 ∧
      (∀ i < 16, w.pics.Accepts i ↔ i ≠ 2 ∧ Unmasked (labels.flatMap Label.actions) (level i) ∧
        Unmasked (labels.flatMap Label.actions) i) ∧
      (.timerInit ∈ labels → ∀ scancode sc, ∃ w', Step S w (.irq 0 scancode sc) w') ∧
      (.keyboardInit ∈ labels → ∀ scancode sc, ∃ w', Step S w (.irq 1 scancode sc) w') := by
  have inv := Inv.run sound idle run
  obtain ⟨master, slave⟩ := PIC.nested_nil_iff.mp inv.serving.nested
  exact ⟨inv.devices, master, slave, fun i => inv.accepts_iff, inv.timer_interrupts sound,
    inv.keyboard_interrupts sound⟩

end Runs

def sampleSetup : Setup where
  symbol := sampleSymbol
  base := 0x8000
  core := 0x5000
  global := 0x1000
  timer := 0x9100
  keyboard := 0x9000
  image := sampleImage
  code _ r m := (r, m)

theorem sampleSetup_sound : sampleSetup.Sound where
  fits := by decide
  linked := by decide +kernel
  timer := by decide
  keyboard := by decide
  distinct := by decide
  number _ _ _ := rfl
  tables _ _ m := AgreeOn.refl m 0x1000 3080

/-- The keyboard is initialised, and the key A is pressed. -/
theorem drivers_run_keyboard : ∃ w, Runs (Step sampleSetup)
    ⟨idtInit sampleSymbol 0x8000 0x1000 sampleArgs, idtInitPorts idlePair,
      ⟨⟨0, 0, 0⟩, ⟨none, 0⟩⟩, ⟨fun _ => 0, 0, 0, 0⟩⟩ [.keyboardInit, .irq 1 0x1E 0x1E] w ∧
      w.keyboard.head = 1 ∧ w.keyboard.buffer 0 = 0x1E61 ∧ w.pics.master.inService = 0 := by
  obtain ⟨m', registers⟩ := sample_registered
  have began : Runs (Step sampleSetup)
      ⟨idtInit sampleSymbol 0x8000 0x1000 sampleArgs, idtInitPorts idlePair,
        ⟨⟨0, 0, 0⟩, ⟨none, 0⟩⟩, ⟨fun _ => 0, 0, 0, 0⟩⟩ [.keyboardInit] _ :=
    .snoc .nil (show Step sampleSetup _ .keyboardInit _ from ⟨_, ⟨m', registers, rfl⟩, rfl⟩)
  have progress := (drivers_run (d := ⟨⟨⟨0, 0, 0⟩, ⟨none, 0⟩⟩, ⟨fun _ => 0, 0, 0, 0⟩⟩)
    sampleSetup_sound ⟨rfl, rfl⟩ began).2.2.2.2.2
  obtain ⟨w, pressed⟩ := progress List.mem_cons_self 0x1E 0x1E
  have whole := Runs.snoc began pressed
  obtain ⟨devices, master, -⟩ := drivers_run
    (d := ⟨⟨⟨0, 0, 0⟩, ⟨none, 0⟩⟩, ⟨fun _ => 0, 0, 0, 0⟩⟩) sampleSetup_sound ⟨rfl, rfl⟩ whole
  have keyboard : w.keyboard = _ := congrArg Devices.keyboard devices
  refine ⟨w, whole, ?_, ?_, master⟩
  · rw [keyboard]
    rfl
  · rw [keyboard]
    rfl

end HiveRK.Drivers
