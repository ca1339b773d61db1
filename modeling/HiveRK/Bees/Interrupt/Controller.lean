import HiveRK.Bees.Interrupt.Routing
import HiveRK.PIC.Basic

/-!
# The interrupt controllers

`idt_init` moves the 16 lines of the controllers to the vectors from 32 on and masks all of
them. A module that wants the interrupts of a line calls `pic_unmask_irq`, of which
`itr.c`, `keyboard.c` and `PIT.c` have one copy each. `isr_handler` ends an interrupt after its
handler has returned; by then handlers of interrupts with a higher priority may have run in
between.
-/

namespace HiveRK.Interrupt

open Machine
open PIC (Pair Programmed Nested level)

def PIC1_DATA : Nat := 0x21

def PIC2_DATA : Nat := 0xA1

def outb (p : Pair) (port : Nat) (data : Byte) : Pair :=
  if port = PIC1_COMMAND then { p with master := p.master.command data }
  else if port = PIC1_DATA then { p with master := p.master.data data }
  else if port = PIC2_COMMAND then { p with slave := p.slave.command data }
  else if port = PIC2_DATA then { p with slave := p.slave.data data }
  else p

/-- What is read from the data port of a controller. -/
def inb (p : Pair) (port : Nat) : Byte :=
  if port = PIC1_DATA then p.master.mask else p.slave.mask

def picRemap (p : Pair) : Pair :=
  let a1 := inb p PIC1_DATA
  let a2 := inb p PIC2_DATA
  let p := outb p PIC1_COMMAND 0x11
  let p := outb p PIC2_COMMAND 0x11
  let p := outb p PIC1_DATA 0x20
  let p := outb p PIC2_DATA 0x28
  let p := outb p PIC1_DATA 0x04
  let p := outb p PIC2_DATA 0x02
  let p := outb p PIC1_DATA 0x01
  let p := outb p PIC2_DATA 0x01
  let p := outb p PIC1_DATA a1
  outb p PIC2_DATA a2

def picMaskAll (p : Pair) : Pair :=
  let p := outb p 0x21 0xFF
  outb p 0xA1 0xFF

def picUnmaskIrq (p : Pair) (irq : Byte) : Pair :=
  let port := if irq < 8 then 0x21 else 0xA1
  let mask := inb p port &&& ~~~((1 : Byte) <<< (irq % 8).toNat)
  outb p port mask

/-- The port writes of `idt_init`. -/
def idtInitPorts (p : Pair) : Pair := picMaskAll (picRemap p)

/-- What an event at `isr_handler` does to the controllers. -/
def Event.act (p : Pair) : Event → Pair
  | .outb port data => Interrupt.outb p port (BitVec.ofNat 8 data)
  | _ => p

/-! ### Runs -/

/-- The controllers, and the vectors of the calls of `isr_handler` that have not returned. -/
structure Service where
  pics : Pair
  stack : List Nat

/-- A call of `pic_unmask_irq`; a request on a line that the controllers accept; an exception or
another vector that no controller raises; the return of the last call of `isr_handler`. -/
inductive Action where
  | unmask (irq : Byte)
  | request (i : Nat)
  | raise (v : Nat)
  | ret
deriving DecidableEq, Repr

/-- The vectors that `isr_handler` acknowledges. -/
def FromLine (v : Nat) : Prop := 31 < v ∧ v < 48

instance : DecidablePred FromLine := fun _ => inferInstanceAs (Decidable (_ ∧ _))

/-- Whether the CPU lets an accepted request through is up to its flag. -/
def Serve (s : Service) : Action → Service → Prop
  | .unmask irq, s' => s' = { s with pics := picUnmaskIrq s.pics irq }
  | .request i, s' => i < 16 ∧ s.pics.Accepts i ∧
      s' = ⟨s.pics.accept i, (s.pics.vector i).toNat :: s.stack⟩
  | .raise v, s' => ¬ FromLine v ∧ s' = { s with stack := v :: s.stack }
  | .ret, s' => ∃ v rest, s.stack = v :: rest ∧
      s' = ⟨(endOfInterrupt v).foldl Event.act s.pics, rest⟩

/-- The line for which `pic_unmask_irq` is called. -/
def irqLine (irq : Byte) : Nat := if irq < 8 then irq.toNat else 8 + irq.toNat % 8

def Unmasked (actions : List Action) (i : Nat) : Prop :=
  ∃ irq, .unmask irq ∈ actions ∧ irqLine irq = i

/-- The lines of the interrupts that are being handled. -/
def linesOf (stack : List Nat) : List Nat :=
  (stack.filter fun v => FromLine v).map fun v => v - 32

section Ports

theorem idtInitPorts_eq (p : Pair) : idtInitPorts p =
    ⟨⟨.ready, 0x20, 0x04, 0x01, 0xFF, p.master.inService⟩,
      ⟨.ready, 0x28, 0x02, 0x01, 0xFF, p.slave.inService⟩⟩ := rfl

/-- One bit of one mask is cleared. -/
theorem picUnmaskIrq_eq {p : Pair} (programmed : Programmed p) (irq : Byte) :
    picUnmaskIrq p irq =
      if irq < 8 then
        { p with master := { p.master with mask := PIC.clear p.master.mask (irqLine irq) } }
      else
        { p with slave := { p.slave with mask := PIC.clear p.slave.mask (irqLine irq - 8) } } := by
  obtain ⟨⟨phase, base, wiring, options, mask, inService⟩,
    ⟨phase', base', wiring', options', mask', inService'⟩⟩ := p
  obtain rfl : phase = .ready := programmed.master
  obtain rfl : phase' = .ready := programmed.slave
  have bit : (irq % 8).toNat = irq.toNat % 8 := BitVec.toNat_umod
  rw [picUnmaskIrq, irqLine]
  by_cases low : irq < 8
  · have same : irq.toNat % 8 = irq.toNat := Nat.mod_eq_of_lt low
    simp only [if_pos low, bit, same]
    rfl
  · simp only [if_neg low, bit, Nat.add_sub_cancel_left]
    rfl

theorem masks_unmask {p : Pair} (programmed : Programmed p) (irq : Byte) (i : Nat) :
    (picUnmaskIrq p irq).masks i = (p.masks i && decide (i ≠ irqLine irq)) := by
  rw [picUnmaskIrq_eq programmed, Pair.masks, Pair.masks]
  by_cases low : irq < 8
  · have line : irqLine irq < 8 := by
      rw [irqLine, if_pos low]
      exact low
    rw [if_pos low]
    by_cases master : i < 8
    · rw [if_pos master, if_pos master]
      exact PIC.getLsbD_clear ..
    · rw [if_neg master, if_neg master, decide_eq_true (by omega), Bool.and_true]
  · have line : 8 ≤ irqLine irq := by
      rw [irqLine, if_neg low]
      exact Nat.le_add_right 8 _
    rw [if_neg low]
    by_cases master : i < 8
    · rw [if_pos master, if_pos master, decide_eq_true (by omega), Bool.and_true]
    · rw [if_neg master, if_neg master, PIC.getLsbD_clear]
      congr 2
      rw [ne_eq, ne_eq, eq_iff_iff]
      omega

theorem masks_idtInitPorts (p : Pair) {i : Nat} (small : i < 16) :
    (idtInitPorts p).masks i = true := by
  have all : ∀ j < 8, (0xFF : Byte).getLsbD j = true := by decide
  rw [idtInitPorts_eq, Pair.masks]
  split_ifs with low
  · exact all i low
  · exact all (i - 8) (by omega)

theorem vector_eq {p : Pair} (master : p.master.base = 0x20) (slave : p.slave.base = 0x28)
    {i : Nat} (small : i < 16) : (p.vector i).toNat = 32 + i := by
  rw [Pair.vector, master, slave]
  revert i
  decide

/-- Behind the handler of a line `isr_handler` ends an interrupt of that line. -/
theorem endOfInterrupt_act (p : Pair) {i : Nat} (small : i < 16) :
    (endOfInterrupt (32 + i)).foldl Event.act p = p.finish i := by
  rw [endOfInterrupt, if_pos ⟨by omega, by omega⟩, Pair.finish]
  by_cases low : i < 8
  · rw [if_neg (by omega), if_pos low]
    rfl
  · rw [if_pos (by omega), if_neg low]
    rfl

end Ports

section Runs

variable {p : Pair} {s s' : Service} {actions : List Action} {a : Action} {i : Nat}

/-- The controllers as `idt_init` and the calls of `pic_unmask_irq` leave them, with the
interrupts that are being handled in service. -/
structure Serving (actions : List Action) (s : Service) : Prop where
  programmed : Programmed s.pics
  masterBase : s.pics.master.base = 0x20
  slaveBase : s.pics.slave.base = 0x28
  masks : ∀ i < 16, s.pics.masks i = false ↔ Unmasked actions i
  nested : Nested s.pics (linesOf s.stack)

theorem linesOf_line (small : i < 16) (stack : List Nat) :
    linesOf ((32 + i) :: stack) = i :: linesOf stack := by
  have line : FromLine (32 + i) := ⟨by omega, by omega⟩
  rw [linesOf, List.filter_cons_of_pos (by simpa using line), List.map_cons,
    Nat.add_sub_cancel_left, linesOf]

theorem linesOf_other {v : Nat} (other : ¬ FromLine v) (stack : List Nat) :
    linesOf (v :: stack) = linesOf stack := by
  rw [linesOf, List.filter_cons_of_neg (by simpa using other), linesOf]

theorem unmasked_snoc (a : Action) (i : Nat) :
    Unmasked (actions ++ [a]) i ↔
      Unmasked actions i ∨ ∃ irq, a = .unmask irq ∧ irqLine irq = i := by
  simp only [Unmasked, List.mem_append, List.mem_singleton, or_and_right, exists_or]
  exact or_congr_right (exists_congr fun irq => and_congr_left fun _ => eq_comm)

theorem serving_start (idle : p.master.inService = 0 ∧ p.slave.inService = 0) :
    Serving [] ⟨idtInitPorts p, []⟩ where
  programmed := ⟨rfl, rfl, show (0x04 : Byte).getLsbD 2 = true from by decide, rfl⟩
  masterBase := rfl
  slaveBase := rfl
  masks i small := by
    rw [masks_idtInitPorts p small]
    exact iff_of_false (fun set => nomatch set) fun ⟨_, member, _⟩ => List.not_mem_nil member
  nested := PIC.nested_nil_iff.mpr idle

/-- Accepting and ending interrupts keeps the settings. -/
theorem Serving.settings {stack : List Nat} {master slave : Byte} (serving : Serving actions s)
    (quiet : ∀ i, Unmasked (actions ++ [a]) i ↔ Unmasked actions i)
    (nested : Nested (s.pics.serving master slave) (linesOf stack)) :
    Serving (actions ++ [a]) ⟨s.pics.serving master slave, stack⟩ where
  programmed := ⟨serving.programmed.master, serving.programmed.slave, serving.programmed.wired⟩
  masterBase := serving.masterBase
  slaveBase := serving.slaveBase
  masks i small := (serving.masks i small).trans (quiet i).symm
  nested := nested

theorem Serving.unmask (serving : Serving actions s) (irq : Byte) :
    Serving (actions ++ [.unmask irq]) { s with pics := picUnmaskIrq s.pics irq } := by
  have masks := masks_unmask serving.programmed irq
  have effect := picUnmaskIrq_eq serving.programmed irq
  have named (i : Nat) : Unmasked (actions ++ [.unmask irq]) i ↔
      Unmasked actions i ∨ irqLine irq = i := by
    rw [unmasked_snoc]
    exact or_congr_right ⟨fun ⟨_, same, line⟩ => Action.unmask.inj same ▸ line, fun line =>
      ⟨irq, rfl, line⟩⟩
  have bits : ∀ i < 16, (picUnmaskIrq s.pics irq).masks i = false ↔
      Unmasked (actions ++ [.unmask irq]) i := by
    intro i small
    rw [masks, named, Bool.and_eq_false_iff, serving.masks i small, decide_eq_false_iff_not,
      not_ne_iff, @eq_comm _ i]
  by_cases low : irq < 8
  · rw [if_pos low] at effect
    rw [effect] at bits ⊢
    exact ⟨⟨serving.programmed.master, serving.programmed.slave, serving.programmed.wired⟩,
      serving.masterBase, serving.slaveBase, bits, serving.nested.congr rfl rfl⟩
  · rw [if_neg low] at effect
    rw [effect] at bits ⊢
    exact ⟨⟨serving.programmed.master, serving.programmed.slave, serving.programmed.wired⟩,
      serving.masterBase, serving.slaveBase, bits, serving.nested.congr rfl rfl⟩

theorem quiet_of_ne (other : ∀ irq, a ≠ .unmask irq) (i : Nat) :
    Unmasked (actions ++ [a]) i ↔ Unmasked actions i := by
  rw [unmasked_snoc]
  exact or_iff_left fun ⟨irq, same, _⟩ => other irq same

/-- An action keeps it. -/
theorem Serving.step (serving : Serving actions s) (step : Serve s a s') :
    Serving (actions ++ [a]) s' := by
  cases a with
  | unmask irq =>
      obtain rfl := step
      exact serving.unmask irq
  | request i =>
      obtain ⟨small, accepts, rfl⟩ := step
      obtain ⟨master, slave, settings⟩ := PIC.accept_settings s.pics i
      have nested := serving.nested.accept small accepts
      rw [vector_eq serving.masterBase serving.slaveBase small, settings]
      rw [settings, ← linesOf_line small] at nested
      exact serving.settings (quiet_of_ne fun _ => Action.noConfusion) nested
  | raise v =>
      obtain ⟨other, rfl⟩ := step
      have nested := serving.nested
      rw [← linesOf_other other] at nested
      exact serving.settings (quiet_of_ne fun _ => Action.noConfusion) nested
  | ret =>
      obtain ⟨v, rest, last, rfl⟩ := step
      have nested := serving.nested
      rw [last] at nested
      by_cases line : FromLine v
      · obtain ⟨i, rfl⟩ := Nat.exists_eq_add_of_le (show 32 ≤ v from line.1)
        have small : i < 16 := by
          have below := line.2
          omega
        obtain ⟨master, slave, settings⟩ := PIC.finish_settings s.pics i
        rw [linesOf_line small] at nested
        have ended := nested.finish
        rw [endOfInterrupt_act s.pics small, settings]
        rw [settings] at ended
        exact serving.settings (quiet_of_ne fun _ => Action.noConfusion) ended
      · rw [linesOf_other line] at nested
        rw [endOfInterrupt, if_neg (show ¬(31 < v ∧ v < 48) from line)]
        exact serving.settings (quiet_of_ne fun _ => Action.noConfusion) nested

theorem Serving.run (idle : p.master.inService = 0 ∧ p.slave.inService = 0)
    (run : Runs Serve ⟨idtInitPorts p, []⟩ actions s) : Serving actions s := by
  induction run with
  | nil => exact serving_start idle
  | snoc _ step ih => exact ih.step step

/-- After `idt_init`, whatever is unmasked, accepted, nested and ended: line `i` has vector
`32 + i`, and a request on it is accepted if and only if it was unmasked, the line of its level
was unmasked, and no interrupt of this level or a higher one is being handled. Behind the last
handler nothing is left in service. -/
theorem requests_accepted_iff (idle : p.master.inService = 0 ∧ p.slave.inService = 0)
    (run : Runs Serve ⟨idtInitPorts p, []⟩ actions s) :
    (∀ i < 16, (s.pics.vector i).toNat = 32 + i ∧
      (s.pics.Accepts i ↔ i ≠ 2 ∧ Unmasked actions (level i) ∧ Unmasked actions i ∧
        ∀ v ∈ s.stack, FromLine v → level i < level (v - 32))) ∧
      ((∀ v ∈ s.stack, ¬ FromLine v) →
        s.pics.master.inService = 0 ∧ s.pics.slave.inService = 0) := by
  have serving := Serving.run idle run
  refine ⟨fun i small => ⟨vector_eq serving.masterBase serving.slaveBase small, ?_⟩, fun none => ?_⟩
  · rw [serving.nested.accepts_iff serving.programmed, serving.masks i small,
      serving.masks (level i) (Nat.lt_trans (PIC.level_lt i) (by decide))]
    simp only [linesOf, List.forall_mem_map, List.mem_filter, decide_eq_true_eq, and_imp]
  · have nested := serving.nested
    rw [linesOf, List.filter_eq_nil_iff.mpr (by simpa using none)] at nested
    exact PIC.nested_nil_iff.mp nested

end Runs

/-- Controllers at rest. -/
def idlePair : Pair := ⟨⟨.ready, 0, 0, 0, 0, 0⟩, ⟨.ready, 0, 0, 0, 0, 0⟩⟩

/-- While the keyboard's interrupt is handled, the timer's line is accepted and the keyboard's is
not. -/
theorem requests_accepted_iff_keyboard : ∃ s,
    Runs Serve ⟨idtInitPorts idlePair, []⟩ [.unmask 0, .unmask 1, .request 1] s ∧
      s.stack = [33] ∧ s.pics.Accepts 0 ∧ ¬ s.pics.Accepts 1 := by
  have run : Runs Serve ⟨idtInitPorts idlePair, []⟩ [.unmask 0, .unmask 1, .request 1] _ :=
    .snoc (.snoc (.snoc .nil (show Serve _ (.unmask 0) _ from rfl))
      (show Serve _ (.unmask 1) _ from rfl))
      (show Serve _ (.request 1) _ from ⟨by decide, by decide, rfl⟩)
  have lines := (requests_accepted_iff ⟨rfl, rfl⟩ run).1
  have timer : Unmasked [.unmask 0, .unmask 1, .request 1] 0 :=
    ⟨0, List.mem_cons_self, rfl⟩
  refine ⟨_, run, rfl, (lines 0 (by decide)).2.mpr ⟨by decide, timer, timer, by decide⟩, ?_⟩
  intro accepts
  have above := ((lines 1 (by decide)).2.mp accepts).2.2.2
  exact Nat.lt_irrefl 1 (above 33 List.mem_cons_self (by decide))

end HiveRK.Interrupt
