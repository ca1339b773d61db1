import HiveRK.Bees.Interrupt.Basic
import HiveRK.Machine.Execution

/-!
# Interrupts are routed to their handlers

A run starts behind `idt_init` and consists of calls of `registerInterrupt` with anything
between them that leaves the module's storage alone. Gates and handlers are described by the
table of the last registrations, which every step keeps in agreement with memory.
-/

namespace HiveRK.Interrupt

open Machine

/-! ### Gates -/

/-- The descriptor at `e` leads to `offset`. -/
structure Gate (m : Mem) (e offset flags : Nat) : Prop where
  offset_low : load16 m e = offset % 2 ^ 16
  selector : load16 m (e + 2) = 0x08
  zero : load8 m (e + 4) = 0
  flags : load8 m (e + 5) = flags % 256
  offset_high : load16 m (e + 6) = offset / 2 ^ 16

section Gates

variable {m m' : Mem} {e offset flags global : Nat}

theorem Gate.decodes (h : Gate m e offset flags) : gateOffset m e = offset := by
  have low : offset % 2 ^ 16 < 2 ^ 16 := Nat.mod_lt _ (Nat.two_pow_pos 16)
  rw [gateOffset, h.offset_low, h.offset_high, ← Nat.shiftLeft_add_eq_or_of_lt low,
    Nat.shiftLeft_eq]
  exact Nat.div_add_mod' offset (2 ^ 16)

theorem Gate.agree (h : Gate m e offset flags) (fits : e + 8 ≤ 2 ^ 32) (same : AgreeOn m m' e 8) :
    Gate m' e offset flags where
  offset_low := (same.load (by omega) (by omega) (by omega)).trans h.offset_low
  selector := (same.load (by omega) (by omega) (by omega)).trans h.selector
  zero := (same.load (by omega) (by omega) (by omega)).trans h.zero
  flags := (same.load (by omega) (by omega) (by omega)).trans h.flags
  offset_high := (same.load (by omega) (by omega) (by omega)).trans h.offset_high

/-- The flags of a gate are a byte of their own. -/
theorem Gate.setFlags (h : Gate m e offset flags) (fits : e + 8 ≤ 2 ^ 32) (flags' : Nat) :
    Gate (store8 m (e + 5) flags') e offset flags' where
  offset_low := (load_store_of_disjoint m (by omega) (by omega) (by omega)).trans h.offset_low
  selector := (load_store_of_disjoint m (by omega) (by omega) (by omega)).trans h.selector
  zero := (load_store_of_disjoint m (by omega) (by omega) (by omega)).trans h.zero
  flags := load_store_same m flags' (by omega)
  offset_high := (load_store_of_disjoint m (by omega) (by omega) (by omega)).trans h.offset_high

theorem setIdtGate_writes (m : Mem) (handler flags : Nat) {n : Nat}
    (fits : idt global n + 8 ≤ 2 ^ 32) :
    WritesWithin m (setIdtGate m global n handler flags) (idt global n) 8 :=
  ((((WritesWithin.store (by omega) (by omega) (by omega)).andStore (by omega) (by omega)
    (by omega)).andStore (by omega) (by omega) (by omega)).andStore (by omega) (by omega)
    (by omega)).andStore (by omega) (by omega) (by omega)

theorem setIdtGate_gate (m : Mem) {n handler : Nat} (flags : Nat)
    (fits : idt global n + 8 ≤ 2 ^ 32) (word : handler < 2 ^ 32) :
    Gate (setIdtGate m global n handler flags) (idt global n) handler flags := by
  have low : handler &&& 0xFFFF = handler % 2 ^ 16 := Nat.and_two_pow_sub_one_eq_mod handler 16
  have high : (handler >>> 16) &&& 0xFFFF = handler / 2 ^ 16 := by
    rw [Nat.and_two_pow_sub_one_eq_mod _ 16, Nat.shiftRight_eq_div_pow]
    omega
  rw [setIdtGate, low, high]
  constructor <;>
    simp (disch := omega) only [load_store_same, load_store_of_disjoint] <;> omega

end Gates

/-! ### The layout of the tables -/

section Layout

variable {global n v : Nat}

theorem idt_end (vector : n < 256) : idt global n + 8 ≤ global + 2048 := by
  unfold idt
  omega

theorem idt_apart (global : Nat) (other : v ≠ n) :
    idt global v + 8 ≤ idt global n ∨ idt global n + 8 ≤ idt global v := by
  unfold idt
  omega

theorem handlerFunctions_start : global + 2056 ≤ handlerFunctions global n := by
  unfold handlerFunctions
  omega

theorem handlerFunctions_end (vector : n < 256) :
    handlerFunctions global n + 4 ≤ global + 3080 := by
  unfold handlerFunctions
  omega

theorem handlerFunctions_apart (other : v ≠ n) :
    handlerFunctions global v + 4 ≤ handlerFunctions global n ∨
      handlerFunctions global n + 4 ≤ handlerFunctions global v := by
  unfold handlerFunctions
  omega

end Layout

/-! ### `idt_init` -/

section Init

variable {symbol : Label → Nat} {base global : Nat} {m m' : Mem}

/-- The installed gates are those of the stubs, each under the number its stub pushes. -/
theorem gates_eq : isrGates ++ irqGates ++ extraGates =
    stubs.map fun stub => (stub.vector, stub.label) := by decide +kernel

theorem stubs_vectors : stubs.map Stub.vector = List.range 256 := by decide +kernel

theorem vector_lt {stub : Stub} (mem : stub ∈ stubs) : stub.vector < 256 := by
  have listed : stub.vector ∈ stubs.map Stub.vector := List.mem_map_of_mem mem
  rw [stubs_vectors] at listed
  exact List.mem_range.mp listed

/-- The stubs' gates, in the terms of `install`. -/
def gates : List (Nat × Label) := stubs.map fun stub => (stub.vector, stub.label)

theorem gates_lt : ∀ gate ∈ gates, gate.1 < 256 := by
  intro gate mem
  obtain ⟨stub, listed, rfl⟩ := List.mem_map.mp mem
  exact vector_lt listed

theorem gates_nodup : (gates.map Prod.fst).Nodup := by
  have fsts : gates.map Prod.fst = stubs.map Stub.vector := List.map_map
  rw [fsts, stubs_vectors]
  exact List.nodup_range

theorem install_writes (symbol : Label → Nat) (base : Nat) (fits : global + 3080 ≤ 2 ^ 32)
    {gates : List (Nat × Label)}
    (small : ∀ gate ∈ gates, gate.1 < 256) (m : Mem) :
    WritesWithin m (install symbol base global gates m) global 2048 := by
  induction gates generalizing m with
  | nil => exact .refl m _ _
  | cons gate gates ih =>
      have first : gate.1 < 256 := small gate List.mem_cons_self
      have written := setIdtGate_writes m (u32 (base + symbol gate.2)) systemFlags
        (show idt global gate.1 + 8 ≤ 2 ^ 32 by unfold idt; omega)
      exact (written.mono (Nat.le_add_right _ _) (by unfold idt; omega)).trans
        (ih (fun g mem => small g (List.mem_cons_of_mem _ mem)) _)

/-- A gate that is not installed stays as it was. -/
theorem install_keeps (fits : global + 3080 ≤ 2 ^ 32)
    {gates : List (Nat × Label)} (small : ∀ gate ∈ gates, gate.1 < 256) {v : Nat}
    (other : v ∉ gates.map Prod.fst) (m : Mem) :
    AgreeOn m (install symbol base global gates m) (idt global v) 8 := by
  induction gates generalizing m with
  | nil => exact .refl m _ _
  | cons gate gates ih =>
      rw [List.map_cons, List.mem_cons, not_or] at other
      have first : gate.1 < 256 := small gate List.mem_cons_self
      have written := setIdtGate_writes m (u32 (base + symbol gate.2)) systemFlags
        (show idt global gate.1 + 8 ≤ 2 ^ 32 by unfold idt; omega)
      have kept := written.agreeOn (b := idt global v) (k := 8) (by unfold idt; omega)
      exact kept.trans (ih (fun g mem => small g (List.mem_cons_of_mem _ mem)) other.2 _)

/-- Each installed gate leads to its label: no later gate of the list overwrites it. -/
theorem install_gate (fits : global + 3080 ≤ 2 ^ 32)
    {gates : List (Nat × Label)} (small : ∀ gate ∈ gates, gate.1 < 256)
    (distinct : (gates.map Prod.fst).Nodup) {gate : Nat × Label} (mem : gate ∈ gates) (m : Mem) :
    Gate (install symbol base global gates m) (idt global gate.1)
      (u32 (base + symbol gate.2)) systemFlags := by
  induction gates generalizing m with
  | nil => exact absurd mem List.not_mem_nil
  | cons first gates ih =>
      have later : ∀ g ∈ gates, g.1 < 256 := fun g mem => small g (List.mem_cons_of_mem _ mem)
      rw [List.map_cons, List.nodup_cons] at distinct
      cases List.mem_cons.mp mem with
      | inl here =>
          subst here
          have bound : gate.1 < 256 := small gate List.mem_cons_self
          have inside : idt global gate.1 + 8 ≤ 2 ^ 32 := by unfold idt; omega
          exact (setIdtGate_gate m systemFlags inside (u32_lt _)).agree inside
            (install_keeps fits later distinct.1 _)
      | inr there => exact ih later distinct.2 there _

theorem clearEntry_writes (m : Mem) {n : Nat} (fits : global + 3080 ≤ 2 ^ 32) (small : n < 256) :
    WritesWithin m (clearEntry global m n) global 3080 := by
  have gateEnd : idt global n + 8 ≤ global + 2048 := idt_end small
  have start : global + 2056 ≤ handlerFunctions global n := handlerFunctions_start
  have stop : handlerFunctions global n + 4 ≤ global + 3080 := handlerFunctions_end small
  have gate : WritesWithin m (storeBytes m (idt global n) (List.replicate 8 0)) global 3080 :=
    .storeBytes (Nat.le_trans gateEnd (by omega)) (Nat.le_add_right _ _)
      (Nat.le_trans gateEnd (by omega))
  exact gate.andStore (Nat.le_trans stop fits) (by omega) stop

/-- One round clears one handler and keeps the others. -/
theorem clearEntry_handler (m : Mem) {n v : Nat} (fits : global + 3080 ≤ 2 ^ 32) (small : n < 256)
    (vector : v < 256) :
    load32 (clearEntry global m n) (handlerFunctions global v) =
      if v = n then 0 else load32 m (handlerFunctions global v) := by
  have gateEnd : idt global n + 8 ≤ global + 2048 := idt_end small
  have start : global + 2056 ≤ handlerFunctions global v := handlerFunctions_start
  have stop : handlerFunctions global v + 4 ≤ global + 3080 := handlerFunctions_end vector
  have gate : WritesWithin m (storeBytes m (idt global n) (List.replicate 8 0)) (idt global n) 8 :=
    .storeBytes (Nat.le_trans gateEnd (by omega)) (Nat.le_refl _) (Nat.le_refl _)
  split
  · next same =>
      subst same
      exact load_store_self _ (Nat.le_trans stop fits) (by decide)
  · next other =>
      have kept := gate.load (Nat.le_trans stop fits) (.inr (show idt global n + 8 ≤ _ by omega))
      exact (load_store_of_disjoint _ (Nat.le_trans stop fits)
        (Nat.le_trans (handlerFunctions_end small) fits)
        (handlerFunctions_apart other)).trans kept

theorem clearTables_succ (global n : Nat) (m : Mem) :
    clearTables global (n + 1) m = clearEntry global (clearTables global n m) n := by
  rw [clearTables, List.range_succ, List.foldl_append]
  rfl

theorem clearTables_writes (fits : global + 3080 ≤ 2 ^ 32) (m : Mem) {n : Nat} (small : n ≤ 256) :
    WritesWithin m (clearTables global n m) global 3080 := by
  induction n with
  | zero => exact .refl m _ _
  | succ n ih =>
      rw [clearTables_succ]
      exact (ih (by omega)).trans (clearEntry_writes _ fits (by omega))

/-- Behind the loop no handler is registered. -/
theorem clearTables_handler (fits : global + 3080 ≤ 2 ^ 32) (m : Mem) {n v : Nat}
    (small : n ≤ 256) (below : v < n) :
    load32 (clearTables global n m) (handlerFunctions global v) = 0 := by
  induction n with
  | zero => exact absurd below (Nat.not_lt_zero v)
  | succ n ih =>
      rw [clearTables_succ, clearEntry_handler _ fits (by omega) (by omega)]
      split
      · rfl
      · exact ih (by omega) (by omega)

theorem idtInit_eq (m : Mem) : idtInit symbol base global m =
    store16
      (store32 (install symbol base global gates (clearTables global 256 m)) (idtPtr global + 2)
      global) (idtPtr global) 2047 := by
  have joined : install symbol base global gates (clearTables global 256 m) =
      installExtraIsr symbol base global (irqInstall symbol base global
        (isrInstall symbol base global (clearTables global 256 m))) := by
    rw [gates, ← gates_eq, install, List.foldl_append, List.foldl_append]
    rfl
  rw [joined]
  rfl

/-- `idt_init` writes only the tables. -/
theorem idtInit_writes (fits : global + 3080 ≤ 2 ^ 32) (m : Mem) :
    WritesWithin m (idtInit symbol base global m) global 3080 := by
  rw [idtInit_eq]
  have cleared := clearTables_writes fits m (Nat.le_refl 256)
  have installed := install_writes symbol base fits gates_lt
    (clearTables global 256 m)
  exact ((cleared.trans (installed.mono (Nat.le_refl _) (by omega))).andStore
    (by unfold idtPtr; omega) (by unfold idtPtr; omega) (by unfold idtPtr; omega)).andStore
    (by unfold idtPtr; omega) (by unfold idtPtr; omega) (by unfold idtPtr; omega)

/-- `idt_ptr` is stored between the two tables. -/
theorem idtPtr_writes (fits : global + 3080 ≤ 2 ^ 32) (m : Mem) :
    WritesWithin m (store16 (store32 m (idtPtr global + 2) global) (idtPtr global) 2047)
      (idtPtr global) 6 := by
  unfold idtPtr
  exact (WritesWithin.store (by omega) (by omega) (by omega)).andStore (by omega) (by omega)
    (by omega)

end Init

/-! ### Runs -/

/-- Other code that keeps off the tables, or a call of `registerInterrupt` with its arguments. -/
inductive Op where
  | elsewhere
  | register (id flags handler : Nat)
deriving DecidableEq, Repr

def Step (core global : Nat) (m : Mem) : Op → Mem → Prop
  | .elsewhere, m' => AgreeOn m m' global 3080
  | .register id flags handler, m' =>
      id < 256 ∧ load32 m (argsPtr m core) = id ∧ load32 m (argsPtr m core + 4) = flags ∧
        load32 m (argsPtr m core + 8) = handler ∧ m' = registerInterrupt m core global

/-- The flags and the handler that the operation registers for `v`. -/
def Op.registers (v : Nat) : Op → Option (Nat × Nat)
  | .elsewhere => none
  | .register id flags handler => if id = v then some (flags, handler) else none

/-- The flags and the handler of the last registration, or those of `idt_init`. -/
def lastRegistration (ops : List Op) (v : Nat) : Nat × Nat :=
  (ops.filterMap (Op.registers v)).getLast?.getD (systemFlags, 0)

@[simp] theorem lastRegistration_nil (v : Nat) : lastRegistration [] v = (systemFlags, 0) := rfl

@[simp] theorem lastRegistration_elsewhere (ops : List Op) :
    lastRegistration (ops ++ [.elsewhere]) = lastRegistration ops := by
  funext v
  simp [lastRegistration, Op.registers]

@[simp] theorem lastRegistration_register (ops : List Op) (id flags handler : Nat) :
    lastRegistration (ops ++ [.register id flags handler]) =
      Function.update (lastRegistration ops) id (flags, handler) := by
  funext v
  by_cases same : v = id
  · subst same
    simp [lastRegistration, Op.registers]
  · simp [lastRegistration, Op.registers, Function.update_of_ne same, Ne.symm same]

/-- Gates and handlers are those of the table `registered`. -/
structure Tables (symbol : Label → Nat) (base global : Nat) (registered : Nat → Nat × Nat)
    (m : Mem) : Prop where
  gate : ∀ stub ∈ stubs, Gate m (idt global stub.vector) (u32 (base + symbol stub.label))
    (registered stub.vector).1
  handler : ∀ v < 256, load32 m (handlerFunctions global v) = (registered v).2

section Runs

variable {symbol : Label → Nat} {base core global : Nat} {registered : Nat → Nat × Nat}
  {m m' : Mem} {ops : List Op}

/-- `idt_init` registers nothing. -/
theorem Tables.init (fits : global + 3080 ≤ 2 ^ 32) (m : Mem) :
    Tables symbol base global (lastRegistration []) (idtInit symbol base global m) := by
  rw [idtInit_eq]
  have pointer := idtPtr_writes fits (install symbol base global gates (clearTables global 256 m))
  constructor
  · intro stub mem
    have vector := vector_lt mem
    have gateEnd : idt global stub.vector + 8 ≤ global + 2048 := idt_end vector
    have listed : (stub.vector, stub.label) ∈ gates := List.mem_map_of_mem mem
    exact (install_gate fits gates_lt gates_nodup listed _).agree (Nat.le_trans gateEnd (by omega))
      (pointer.agreeOn (.inl gateEnd))
  · intro v vector
    have start : global + 2056 ≤ handlerFunctions global v := handlerFunctions_start
    have stop : handlerFunctions global v + 4 ≤ 2 ^ 32 :=
      Nat.le_trans (handlerFunctions_end vector) fits
    have installed := install_writes symbol base fits gates_lt
      (clearTables global 256 m)
    calc load32 _ (handlerFunctions global v)
        = load32 (install symbol base global gates (clearTables global 256 m))
            (handlerFunctions global v) :=
          pointer.load stop (.inr (show global + 2048 + 6 ≤ _ by omega))
      _ = load32 (clearTables global 256 m) (handlerFunctions global v) :=
          installed.load stop (.inr (by omega))
      _ = 0 := clearTables_handler fits m (Nat.le_refl 256) vector

theorem Tables.elsewhere (h : Tables symbol base global registered m)
    (fits : global + 3080 ≤ 2 ^ 32) (same : AgreeOn m m' global 3080) :
    Tables symbol base global registered m' := by
  constructor
  · intro stub mem
    have gateEnd : idt global stub.vector + 8 ≤ global + 2048 := idt_end (vector_lt mem)
    exact (h.gate stub mem).agree (Nat.le_trans gateEnd (by omega))
      (same.mono (Nat.le_add_right _ _) (Nat.le_trans gateEnd (by omega)))
  · intro v vector
    have start : global + 2056 ≤ handlerFunctions global v := handlerFunctions_start
    have stop : handlerFunctions global v + 4 ≤ global + 3080 := handlerFunctions_end vector
    exact (same.load (Nat.le_trans stop fits) (by omega) stop).trans (h.handler v vector)

/-- A registration changes the flags and the handler of its own vector. -/
theorem Tables.register (h : Tables symbol base global registered m)
    (fits : global + 3080 ≤ 2 ^ 32) {id flags handler : Nat} (small : id < 256)
    (word : handler < 2 ^ 32) :
    Tables symbol base global (Function.update registered id (flags, handler))
      (store8 (store32 m (handlerFunctions global id) handler) (idt global id + 5) flags) := by
  have idStart : global + 2056 ≤ handlerFunctions global id := handlerFunctions_start
  have idStop : handlerFunctions global id + 4 ≤ global + 3080 := handlerFunctions_end small
  have idGate : idt global id + 8 ≤ global + 2048 := idt_end small
  constructor
  · intro stub mem
    have gateEnd : idt global stub.vector + 8 ≤ global + 2048 := idt_end (vector_lt mem)
    have inside : idt global stub.vector + 8 ≤ 2 ^ 32 := Nat.le_trans gateEnd (by omega)
    have kept : AgreeOn m (store32 m (handlerFunctions global id) handler)
        (idt global stub.vector) 8 :=
      (WritesWithin.store (Nat.le_trans idStop fits) (Nat.le_refl _) (Nat.le_refl _)).agreeOn
        (.inl (by omega))
    have before := (h.gate stub mem).agree inside kept
    by_cases same : stub.vector = id
    · rw [same] at before inside ⊢
      rw [Function.update_self]
      exact before.setFlags inside flags
    · rw [Function.update_of_ne same]
      have apart := idt_apart global same
      exact before.agree inside ((WritesWithin.store (a := idt global id) (n := 8)
        (by omega) (Nat.le_add_right _ _) (by omega)).agreeOn apart)
  · intro v vector
    have start : global + 2056 ≤ handlerFunctions global v := handlerFunctions_start
    have stop : handlerFunctions global v + 4 ≤ 2 ^ 32 :=
      Nat.le_trans (handlerFunctions_end vector) fits
    have flagsApart := load_store_of_disjoint (store32 m (handlerFunctions global id) handler)
      (n := 4) (k := 1) (v := flags) stop (show idt global id + 5 + 1 ≤ 2 ^ 32 by omega)
      (.inr (by omega))
    refine flagsApart.trans ?_
    by_cases same : v = id
    · subst same
      rw [Function.update_self]
      exact load_store_self m stop word
    · rw [Function.update_of_ne same]
      exact (load_store_of_disjoint m stop (Nat.le_trans idStop fits)
        (handlerFunctions_apart same)).trans (h.handler v vector)

theorem Tables.run (fits : global + 3080 ≤ 2 ^ 32)
    (run : Runs (Step core global) (idtInit symbol base global m) ops m') :
    Tables symbol base global (lastRegistration ops) m' := by
  induction run with
  | nil => exact .init fits m
  | @snoc _ _ op _ _ step ih =>
      cases op with
      | elsewhere =>
          rw [lastRegistration_elsewhere]
          exact ih.elsewhere fits step
      | register id flags handler =>
          obtain ⟨small, rfl, rfl, rfl, rfl⟩ := step
          rw [lastRegistration_register]
          exact ih.register fits small (load32_lt _ _)

end Runs

/-! ### Delivery -/

/-- The vectors for which the CPU pushes an error code. -/
def errorVectors : List Nat := [8, 10, 11, 12, 13, 14, 17]

/-- `r` holds the interrupted registers and the vector. What lies above the vector is in place
when the CPU pushed an error code exactly where it does so for exceptions. -/
structure Saved (r : Registers) (cpu : Cpu) (v : Nat) (error : Option Nat) : Prop where
  int_no : r.int_no = v
  general : r.eax = cpu.eax ∧ r.ecx = cpu.ecx ∧ r.edx = cpu.edx ∧ r.ebx = cpu.ebx ∧
    r.ebp = cpu.ebp ∧ r.esi = cpu.esi ∧ r.edi = cpu.edi
  ds : r.ds = (cpu.eax &&& 0xFFFF0000) ||| cpu.ds
  frame : (error.isSome = true ↔ v ∈ errorVectors) →
    r.err_code = error.getD 0 ∧ r.eip = cpu.eip ∧ r.cs = cpu.cs ∧ r.eflags = cpu.eflags

/-- The stubs that push no 0 of their own are those of the vectors with an error code. -/
theorem stubs_errors : ∀ stub ∈ stubs,
    stub.vector ∈ errorVectors ↔ stub = .ISR_ERR stub.vector := by
  decide +kernel

theorem saved_spec {stub : Stub} (mem : stub ∈ stubs) (cpu : Cpu) (above : List Nat)
    (error : Option Nat) : Saved (saved stub cpu above error) cpu stub.vector error := by
  have errors := stubs_errors stub mem
  cases stub with
  | ISR_NOERR n =>
      refine ⟨rfl, ⟨rfl, rfl, rfl, rfl, rfl, rfl, rfl⟩, rfl, fun pushed => ?_⟩
      cases error with
      | none => exact ⟨rfl, rfl, rfl, rfl⟩
      | some code => exact absurd (errors.mp (pushed.mp rfl)) Stub.noConfusion
  | ISR_ERR n =>
      refine ⟨rfl, ⟨rfl, rfl, rfl, rfl, rfl, rfl, rfl⟩, rfl, fun pushed => ?_⟩
      cases error with
      | none => exact absurd (pushed.mpr (errors.mpr rfl)) Bool.noConfusion
      | some code => exact ⟨rfl, rfl, rfl, rfl⟩
  | IRQ n vector =>
      refine ⟨rfl, ⟨rfl, rfl, rfl, rfl, rfl, rfl, rfl⟩, rfl, fun pushed => ?_⟩
      cases error with
      | none => exact ⟨rfl, rfl, rfl, rfl⟩
      | some code => exact absurd (errors.mp (pushed.mp rfl)) Stub.noConfusion

/-- The acknowledgements that vector `v` needs, the slave's before the master's. -/
def acknowledgements (v : Nat) : List Event :=
  (if 40 ≤ v ∧ v < 48 then [.outb 0xA0 0x20] else []) ++
    (if 32 ≤ v ∧ v < 48 then [.outb 0x20 0x20] else [])

theorem endOfInterrupt_eq (v : Nat) : endOfInterrupt v = acknowledgements v := by
  unfold endOfInterrupt acknowledgements
  by_cases irq : 31 < v ∧ v < 48
  · by_cases slave : v ≥ 40
    · rw [if_pos irq, if_pos slave, if_pos ⟨slave, irq.2⟩,
        if_pos (show 32 ≤ v ∧ v < 48 from irq)]
      rfl
    · rw [if_pos irq, if_neg slave, if_neg fun both => slave both.1,
        if_pos (show 32 ≤ v ∧ v < 48 from irq)]
      rfl
  · rw [if_neg irq, if_neg fun both => irq ⟨by omega, both.2⟩,
      if_neg (show ¬(32 ≤ v ∧ v < 48) from irq)]
    rfl

/-- A registered handler is called once and acknowledged by the number that it leaves saved. -/
theorem isrHandler_registered (code : Nat → Registers → Mem → Registers × Mem) {m : Mem}
    {global : Nat} {r : Registers} {handler : Nat}
    (registered : load32 m (handlerFunctions global r.int_no) = handler) (nonzero : handler ≠ 0)
    (keeps : (code handler r m).1.int_no = r.int_no) :
    isrHandler code m global r =
      ((code handler r m).1, (code handler r m).2,
        .call handler r :: acknowledgements r.int_no) := by
  simp only [isrHandler, registered, if_neg nonzero, keeps, endOfInterrupt_eq, List.nil_append]

section Delivery

variable {symbol : Label → Nat} {base core global : Nat} {m m' : Mem} {ops : List Op} {v : Nat}

theorem exists_stub (vector : v < 256) : ∃ stub ∈ stubs, stub.vector = v := by
  have listed : v ∈ stubs.map Stub.vector := by
    rw [stubs_vectors]
    exact List.mem_range.mpr vector
  exact List.mem_map.mp listed

/-- Every vector goes through its own stub to the handler registered last and is acknowledged
at the controllers that raised it. -/
theorem interrupts_routed (fits : global + 3080 ≤ 2 ^ 32)
    (run : Runs (Step core global) (idtInit symbol base global m) ops m') (vector : v < 256) :
    (∃ stub ∈ stubs, stub.vector = v ∧
      gateOffset m' (idt global v) = u32 (base + symbol stub.label)) ∧
    load16 m' (idt global v + 2) = 0x08 ∧ load8 m' (idt global v + 4) = 0 ∧
    load8 m' (idt global v + 5) = (lastRegistration ops v).1 % 256 ∧
    load32 m' (handlerFunctions global v) = (lastRegistration ops v).2 ∧
    ∀ (image : Nat → Option Stub) (code : Nat → Registers → Mem → Registers × Mem) (cpu : Cpu)
      (above : List Nat) (error : Option Nat),
      (∀ stub ∈ stubs, image (u32 (base + symbol stub.label)) = some stub) →
      (lastRegistration ops v).2 ≠ 0 →
      (∀ r : Registers, r.int_no = v → (code (lastRegistration ops v).2 r m').1.int_no = v) →
      ∃ r : Registers, Saved r cpu v error ∧
        deliver image code m' global v cpu above error =
          some ((code (lastRegistration ops v).2 r m').1, (code (lastRegistration ops v).2 r m').2,
            .call (lastRegistration ops v).2 r :: acknowledgements v) := by
  have tables := Tables.run fits run
  obtain ⟨stub, mem, rfl⟩ := exists_stub vector
  have gate := tables.gate stub mem
  have handler := tables.handler stub.vector vector
  refine ⟨⟨stub, mem, rfl, gate.decodes⟩, gate.selector, gate.zero, gate.flags, handler, ?_⟩
  intro image code cpu above error linked nonzero keeps
  have registers := saved_spec mem cpu above error
  refine ⟨saved stub cpu above error, registers, ?_⟩
  rw [deliver, gate.decodes, linked stub mem, Option.map_some]
  have number : (saved stub cpu above error).int_no = stub.vector := registers.int_no
  have kept := keeps (saved stub cpu above error) number
  rw [isrHandler_registered code (by rw [number]; exact handler) nonzero
      (by rw [number]; exact kept),
    number]

end Delivery

/-- Stubs of 16 bytes in the order of their vectors. -/
def sampleSymbol : Label → Nat
  | .isr n => 16 * n
  | .irq n => 16 * (32 + n)

/-- What stands at an address when the module is loaded at 0x8000. -/
def sampleImage (a : Nat) : Option Stub := stubs[(a - 0x8000) / 16]?

/-- `core` at 0x5000 with the arguments 33, 0x8E, 0x9000 at 0x6100. -/
def sampleArgs : Mem :=
  store32 (store32 (store32 (store32 (fun _ => 0) 0x500C 0x6100) 0x6100 33) 0x6104 0x8E)
    0x6108 0x9000

def sampleCpu : Cpu := ⟨1, 2, 3, 4, 0x9F000, 5, 6, 7, 0x10, 0x8100, 8, 0x202⟩

theorem interrupts_routed_keyboard :
    ∃ (m' : Mem) (r : Registers), Saved r sampleCpu 33 none ∧
      deliver sampleImage (fun _ r m => (r, m)) m' 0x1000 33 sampleCpu [] none =
        some (r, m', [.call 0x9000 r, .outb 0x20 0x20]) := by
  let start := idtInit sampleSymbol 0x8000 0x1000 sampleArgs
  have kept : ∀ a, 0x5000 ≤ a → a + 4 ≤ 2 ^ 32 → load32 start a = load32 sampleArgs a :=
    fun a high low => (idtInit_writes (by decide) sampleArgs).load low (.inr (by omega))
  have args : argsPtr start 0x5000 = 0x6100 := (kept 0x500C (by decide) (by decide)).trans rfl
  have step : Step 0x5000 0x1000 start (.register 33 0x8E 0x9000)
      (registerInterrupt start 0x5000 0x1000) := by
    refine ⟨by decide, ?_, ?_, ?_, rfl⟩
    · rw [args]
      exact (kept 0x6100 (by decide) (by decide)).trans rfl
    · rw [args]
      exact (kept 0x6104 (by decide) (by decide)).trans rfl
    · rw [args]
      exact (kept 0x6108 (by decide) (by decide)).trans rfl
  have routed := interrupts_routed (by decide) (Runs.snoc .nil step) (show 33 < 256 by decide)
  obtain ⟨r, saved, delivered⟩ := routed.2.2.2.2.2 sampleImage (fun _ r m => (r, m))
    sampleCpu [] none (by decide +kernel) (by decide) (fun _ number => number)
  exact ⟨_, r, saved, delivered⟩

end HiveRK.Interrupt
