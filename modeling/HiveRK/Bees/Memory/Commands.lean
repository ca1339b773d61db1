import HiveRK.Bees.Memory.Isolation

/-!
# Isolation through the exported commands

A client passes `kmalloc` the address of the word that receives the pointer, and that word
may lie in a block that the client owns. It is the only part of a live payload that a call
changes.
-/

namespace HiveRK.Memory

open Machine FirstFit

/-- `args[0]`: the size for `kmalloc`, the pointer for `kfree`. -/
def firstArg (m : Mem) (core : Nat) : Nat := load32 m (load32 m (core + 12))

/-- `args[1]`: where `kmalloc` stores its result. -/
def secondArg (m : Mem) (core : Nat) : Nat := load32 m (load32 m (core + 12) + 4)

/-- What clients do. They pass arguments through memory, by writes of their own. -/
inductive Command where
  | kmalloc
  | kfree
  | write (address : Nat) (v : Byte)

/-- A byte of a live payload, or one outside the heap and the manager's storage. -/
def Writable (global : Nat) (live : List Allocation) (x : Nat) : Prop :=
  (∃ p ∈ live, p.ptr ≤ x ∧ x < p.ptr + p.size) ∨
    (x < global ∨ global + 4 ≤ x) ∧
      (x < heapBase (global + 4) ∨ heapBase (global + 4) + 64 * heapTotalUnits ≤ x)

instance (global : Nat) (live : List Allocation) (x : Nat) :
    Decidable (Writable global live x) := inferInstanceAs (Decidable (_ ∨ _))

/-- As in `Op.Legal`; the result goes where the client may write. -/
def Command.Legal (core global : Nat) (s : State) : Command → Prop
  | .kmalloc => firstArg s.mem core ≤ maxSize ∧
      ∀ i < 4, Writable global s.live (u32 (secondArg s.mem core + i))
  | .kfree => firstArg s.mem core = 0 ∨ ∃ p ∈ s.live, p.ptr = firstArg s.mem core
  | .write address _ => Writable global s.live address

instance (core global : Nat) (s : State) :
    (command : Command) → Decidable (command.Legal core global s)
  | .kmalloc => inferInstanceAs (Decidable (_ ∧ _))
  | .kfree => inferInstanceAs (Decidable (_ ∨ _))
  | .write _ _ => inferInstanceAs (Decidable (Writable _ _ _))

/-- The client owns the block whose address it finds at `args[1]`, until it frees it. -/
def Command.apply (core global : Nat) (s : State) : Command → Exec State
  | .kmalloc => (kmallocCommand passFuel s.mem core global).map fun m =>
      let ptr := load32 m (secondArg s.mem core)
      ⟨m, if ptr = 0 then s.live else ⟨ptr, firstArg s.mem core⟩ :: s.live⟩
  | .kfree => (kfreeCommand passFuel s.mem core global).map fun m =>
      ⟨m, s.live.eraseP fun p => p.ptr = firstArg s.mem core⟩
  | .write address v => .ok ⟨Function.update s.mem address v, s.live⟩

def CommandStep (core global : Nat) (s : State) (command : Command) (t : State) : Prop :=
  command.Legal core global s ∧ command.apply core global s = .ok t

/-- As `Keeps`, but for the four bytes at `data`. -/
def KeepsBut (data : Nat) (s t : State) : Prop :=
  ∀ p ∈ s.live, p ∈ t.live → ∀ x, p.ptr ≤ x → x < p.ptr + p.size → ¬ Cells data 4 x →
    t.mem x = s.mem x

section Steps

variable {core global x : Nat} {bs : List Block} {s t : State} {live : List Allocation}

theorem Writable.mono (h : Writable global s.live x) (more : ∀ p ∈ s.live, p ∈ live) :
    Writable global live x :=
  h.imp_left fun ⟨p, hp, within⟩ => ⟨p, more p hp, within⟩

/-- What clients write is neither the storage nor a header. -/
theorem Inv.writable_apart (inv : Inv global (heapBase (global + 4)) bs s)
    (placed : Placed global (heapBase (global + 4))) (h : Writable global s.live x) :
    (x < global ∨ global + 4 ≤ x) ∧ ∀ pre b post, bs = pre ++ b :: post →
      x < heapBase (global + 4) + 64 * span pre ∨
        heapBase (global + 4) + 64 * span pre + 8 ≤ x := by
  have apart := placed.apart
  obtain ⟨p, hp, lo, hi⟩ | ⟨storage, heap⟩ := h
  · obtain ⟨_, _⟩ := inv.inside hp
    refine ⟨by omega, fun pre b post hbs => ?_⟩
    have header := inv.header_apart hp hbs
    omega
  · refine ⟨storage, fun pre b post hbs => ?_⟩
    have total := inv.heap.total
    have pos := inv.heap.wellFormed.pos b (by simp [hbs])
    rw [hbs, span_append, span_cons] at total
    omega

/-- Writes of clients keep the invariant. -/
theorem Inv.writes (inv : Inv global (heapBase (global + 4)) bs s)
    (placed : Placed global (heapBase (global + 4))) {m' : Mem}
    (written : WritesOnly (Writable global s.live) s.mem m') :
    Inv global (heapBase (global + 4)) bs ⟨m', s.live⟩ := by
  refine inv.agree placed (written.agreeOn fun x lo hi h => ?_) fun pre b post hbs =>
    written.agreeOn fun x lo hi h => ?_
  · have storage := (inv.writable_apart placed h).1
    omega
  · have header := (inv.writable_apart placed h).2 pre b post hbs
    omega

theorem kmalloc_lt {size : Nat} {m : Mem} {r : Mem × Nat}
    (call : kmalloc passFuel m global size = .ok r) : r.2 < 2 ^ 32 := by
  rw [kmalloc] at call
  split_ifs at call
  · obtain rfl := Except.ok.inj call
    exact Nat.two_pow_pos 32
  · obtain rfl | ⟨block, _, ptr, _⟩ := kmallocLoop_ok (heap_lt _ _) call
    · exact Nat.two_pow_pos 32
    · exact ptr ▸ u32_lt _

/-- The command is the operation, and a store of what it returns. -/
theorem apply_kmalloc {r : Mem × Nat}
    (call : kmalloc passFuel s.mem global (firstArg s.mem core) = .ok r) :
    Command.kmalloc.apply core global s = .ok ⟨store32 r.1 (secondArg s.mem core) r.2,
      if r.2 = 0 then s.live else ⟨r.2, firstArg s.mem core⟩ :: s.live⟩ := by
  have stored : load32 (store32 r.1 (secondArg s.mem core) r.2) (secondArg s.mem core) = r.2 :=
    (load_store r.1 _ r.2 (show 4 ≤ 2 ^ 32 by decide)).trans (Nat.mod_eq_of_lt (kmalloc_lt call))
  have served : kmallocCommand passFuel s.mem core global =
      .ok (store32 r.1 (secondArg s.mem core) r.2) := by
    rw [firstArg] at call
    simp only [kmallocCommand, call, Except.map, secondArg]
  simp only [Command.apply, served, Except.map, stored]

/-- A legal `kmalloc` returns, and changes nothing of a payload but the bytes at `data`. -/
theorem kmalloc_command_step (inv : Inv global (heapBase (global + 4)) bs s)
    (placed : Placed global (heapBase (global + 4))) (legal : Command.kmalloc.Legal core global s) :
    ∃ t bs', Command.kmalloc.apply core global s = .ok t ∧
      Inv global (heapBase (global + 4)) bs' t ∧ KeepsBut (secondArg s.mem core) s t := by
  obtain ⟨small, result⟩ := legal
  obtain ⟨t, bs', taken, inv', keeps, _⟩ := kmalloc_step inv placed small
  cases call : kmalloc passFuel s.mem global (firstArg s.mem core) with
  | error _ => simp [Memory.apply, call, Except.map] at taken
  | ok r =>
      rw [Memory.apply, call] at taken
      obtain rfl := Except.ok.inj taken
      have more : ∀ p ∈ s.live,
          p ∈ if r.2 = 0 then s.live else ⟨r.2, firstArg s.mem core⟩ :: s.live := by
        intro p hp
        split_ifs
        · exact hp
        · exact List.mem_cons_of_mem _ hp
      refine ⟨_, bs', apply_kmalloc call, inv'.writes placed fun x hx => store_off ?_, ?_⟩
      · rintro ⟨i, hi, rfl⟩
        exact hx ((result i hi).mono more)
      · intro p hp _ x lo hi off
        exact (store_off off).trans (keeps p hp (more p hp) x lo hi)

theorem kfree_command_step (inv : Inv global (heapBase (global + 4)) bs s)
    (placed : Placed global (heapBase (global + 4))) (legal : Command.kfree.Legal core global s) :
    ∃ t bs', Command.kfree.apply core global s = .ok t ∧
      Inv global (heapBase (global + 4)) bs' t ∧ Keeps s t := by
  obtain ⟨t, bs', taken, inv', keeps, _⟩ := kfree_step inv placed legal
  exact ⟨t, bs', taken, inv', keeps⟩

/-- Every legal command returns and keeps the invariant. -/
theorem command_step (inv : Inv global (heapBase (global + 4)) bs s)
    (placed : Placed global (heapBase (global + 4))) {command : Command}
    (legal : command.Legal core global s) :
    ∃ t bs', command.apply core global s = .ok t ∧ Inv global (heapBase (global + 4)) bs' t := by
  cases command with
  | kmalloc =>
      obtain ⟨t, bs', taken, inv', _⟩ := kmalloc_command_step inv placed legal
      exact ⟨t, bs', taken, inv'⟩
  | kfree =>
      obtain ⟨t, bs', taken, inv', _⟩ := kfree_command_step inv placed legal
      exact ⟨t, bs', taken, inv'⟩
  | write address v =>
      refine ⟨_, bs, rfl, inv.writes placed fun x hx => Function.update_of_ne ?_ _ _⟩
      rintro rfl
      exact hx legal

end Steps

section Runs

variable {m : Mem} {core global : Nat} {commands : List Command} {s : State}

theorem inv_of_commands (boots : heap m global = global + 4)
    (run : Runs (CommandStep core global) (boot m global) commands s) :
    ∃ bs, Inv global (heapBase (global + 4)) bs s := by
  have placed := placed_heapBase (boots ▸ heap_lt m global)
  refine run.invariant (fun s => ∃ bs, Inv global (heapBase (global + 4)) bs s)
    ⟨_, inv_boot boots⟩ ?_
  rintro s command t ⟨bs, inv⟩ ⟨legal, taken⟩
  obtain ⟨t', bs', taken', inv'⟩ := command_step inv placed legal
  obtain rfl : t' = t := Except.ok.inj (taken'.symm.trans taken)
  exact ⟨bs', inv'⟩

/-- After every run of commands the live payloads are isolated, and every further legal
command returns. A `kmalloc` keeps the payloads that stay live but for the bytes at `data`, a
`kfree` keeps them all. -/
theorem commands_isolated (boots : heap m global = global + 4)
    (run : Runs (CommandStep core global) (boot m global) commands s) :
    (∃ hs, headers s.mem heapTotalUnits (heap s.mem global) = some hs ∧
      Isolated (heapBase (global + 4)) hs s.live) ∧
    (∀ command : Command, command.Legal core global s →
      ∃ t, command.apply core global s = .ok t) ∧
    (∀ t, CommandStep core global s .kmalloc t → KeepsBut (secondArg s.mem core) s t) ∧
    ∀ t, CommandStep core global s .kfree t → Keeps s t := by
  obtain ⟨bs, inv⟩ := inv_of_commands boots run
  have placed := placed_heapBase (boots ▸ heap_lt m global)
  refine ⟨⟨headerList _ bs, inv.headers_eq, inv.isolated⟩, ?_, ?_, ?_⟩
  · intro command legal
    obtain ⟨t, _, taken, _⟩ := command_step inv placed legal
    exact ⟨t, taken⟩
  · rintro t ⟨legal, taken⟩
    obtain ⟨t', _, taken', _, keeps⟩ := kmalloc_command_step inv placed legal
    obtain rfl : t' = t := Except.ok.inj (taken'.symm.trans taken)
    exact keeps
  · rintro t ⟨legal, taken⟩
    obtain ⟨t', _, taken', _, keeps⟩ := kfree_command_step inv placed legal
    obtain rfl : t' = t := Except.ok.inj (taken'.symm.trans taken)
    exact keeps

end Runs

/-! ### A word of a block as `data` -/

/-- The state behind a legal command that returns. -/
def commandSuccessor (core global : Nat) (s : State) (command : Command) : Option State :=
  if command.Legal core global s then (command.apply core global s).toOption else none

theorem commandStep_of_commandSuccessor {core global : Nat} {s t : State} {command : Command}
    (taken : commandSuccessor core global s command = some t) :
    CommandStep core global s command t := of_guarded taken

/-- The `CoreData` at `0x3000` has the argument array at `0x3100`, which asks for the 20 bytes
of `CombData`. -/
def combMem : Mem :=
  store32 (store32 (store32 bootMem 0x300C 0x3100) 0x3100 20) 0x3104 0x3200

theorem combMem_boots : heap combMem 0x4000 = 0x4000 + 4 := by decide

/-- The first two requests of `start.c`, up to the second call: `DisplayBufferSIZE` bytes, for
`comb->disBuf`. -/
def combCommands : List Command :=
  [.kmalloc, .write 0x3100 0x00, .write 0x3101 0x7D, .write 0x3104 0x48, .write 0x3105 0x40]

/-- The call stores its result in the first word of `CombData`, which is live. -/
theorem kmalloc_writes_payload : ∃ s t,
    Runs (CommandStep 0x3000 0x4000) (boot combMem 0x4000) combCommands s ∧
      CommandStep 0x3000 0x4000 s .kmalloc t ∧ ¬ Keeps s t := by
  have known : (combCommands.foldlM (commandSuccessor 0x3000 0x4000)
      (boot combMem 0x4000)).bind (fun s =>
        (commandSuccessor 0x3000 0x4000 s .kmalloc).map fun t =>
          (s.live, t.live, s.mem 0x4048, t.mem 0x4048)) =
      some ([⟨0x4048, 20⟩], [⟨0x4088, 32000⟩, ⟨0x4048, 20⟩], 0, 0x88) := by decide +kernel
  obtain ⟨s, before, last⟩ := Option.bind_eq_some_iff.mp known
  obtain ⟨t, taken, live⟩ := Option.map_eq_some_iff.mp last
  simp only [Prod.mk.injEq] at live
  obtain ⟨live, live', old, new⟩ := live
  refine ⟨s, t, .of_foldlM (fun _ _ _ => commandStep_of_commandSuccessor) before,
    commandStep_of_commandSuccessor taken, fun keeps => ?_⟩
  have kept := keeps ⟨0x4048, 20⟩ (by simp [live]) (by simp [live']) 0x4048 (by decide) (by decide)
  rw [old, new] at kept
  exact absurd kept (by decide)

/-- That call, then its block is freed and cut for 100 bytes. -/
def moreCommands : List Command :=
  [.kmalloc, .write 0x3100 0x88, .write 0x3101 0x40, .kfree, .write 0x3100 100, .write 0x3101 0,
    .kmalloc]

theorem commands_isolated_comb : ∃ s hs,
    Runs (CommandStep 0x3000 0x4000) (boot combMem 0x4000) (combCommands ++ moreCommands) s ∧
    headers s.mem heapTotalUnits (heap s.mem 0x4000) = some hs ∧
    Isolated (heapBase 0x4004) hs [⟨0x4088, 100⟩, ⟨0x4048, 20⟩] := by
  have known : ((combCommands ++ moreCommands).foldlM
        (commandSuccessor 0x3000 0x4000) (boot combMem 0x4000)).map State.live =
      some [⟨0x4088, 100⟩, ⟨0x4048, 20⟩] := by decide +kernel
  obtain ⟨s, taken, live⟩ := Option.map_eq_some_iff.mp known
  have run := Runs.of_foldlM (fun _ _ _ => commandStep_of_commandSuccessor) taken
  obtain ⟨hs, walked, isolated⟩ := (commands_isolated combMem_boots run).1
  exact ⟨s, hs, run, walked, live ▸ isolated⟩

end HiveRK.Memory
