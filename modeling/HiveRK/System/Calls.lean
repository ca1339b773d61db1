import HiveRK.System.Steps

/-!
# System calls keep the invariant

One lemma for each command, about the call as a whole: the argument array, the dispatcher,
and what is entered from it.
-/

namespace HiveRK.System

open Machine Queen Memory FirstFit

theorem putArgs_one {m : Mem} {stack a : Nat} (fits : stack + 4 ≤ 2 ^ 32) (ha : a < 2 ^ 32) :
    load32 (putArgs m stack [a]) stack = a :=
  load_putArgs (i := 0) [a] fits Nat.one_pos ha

theorem putArgs_two {m : Mem} {stack a b : Nat} (fits : stack + 8 ≤ 2 ^ 32) (ha : a < 2 ^ 32)
    (hb : b < 2 ^ 32) : load32 (putArgs m stack [a, b]) stack = a ∧
      load32 (putArgs m stack [a, b]) (stack + 4) = b :=
  ⟨load_putArgs (i := 0) [a, b] fits Nat.two_pos ha,
    load_putArgs (i := 1) [a, b] fits Nat.one_lt_two hb⟩

section Dispatcher

variable {boot : Boot} {w : World} {j stack ptr : Nat} (run : Call → Core → Core)

/-- `CMD 1` for a module that has storage does nothing. -/
theorem Inv.handler_served (inv : Inv boot w) (ready : boot.Ready) (hj : j < boot.bees.length)
    (id : load32 w.core.mem stack = boot.bees[j].id)
    (full : pointerOf w.storage boot.bees[j].id ≠ 0) :
    coreInterruptHandler run w.core 0 1 0 stack = ⟨w.core, [], none⟩ := by
  rw [← inv.slots j hj] at full
  simp only [coreInterruptHandler, if_pos, coreCommand, id, inv.lookup ready hj,
    Nat.add_sub_cancel, Nat.succ_ne_zero, if_false, inv.idNodes]
  rw [if_pos full]

/-- `CMD 1` for a module without storage calls the allocator. -/
theorem Inv.handler_allocate (inv : Inv boot w) (ready : boot.Ready) (hj : j < boot.bees.length)
    (id : load32 w.core.mem stack = boot.bees[j].id) (size : load32 w.core.mem (stack + 4) = ptr)
    (empty : pointerOf w.storage boot.bees[j].id = 0) :
    (coreInterruptHandler run w.core 0 1 0 stack).core =
      (callAllocF run w.core ptr (boot.node j + 20)).1 := by
  rw [← inv.slots j hj] at empty
  simp only [coreInterruptHandler, if_pos, coreCommand, id, size, inv.lookup ready hj,
    Nat.add_sub_cancel, Nat.succ_ne_zero, if_false, inv.idNodes]
  rw [if_neg (not_not.mpr empty)]

theorem Inv.handler_storage (inv : Inv boot w) (ready : boot.Ready) (hj : j < boot.bees.length)
    (id : load32 w.core.mem stack = boot.bees[j].id) (out : load32 w.core.mem (stack + 4) = ptr) :
    (coreInterruptHandler run w.core 0 2 0 stack).core = { w.core with
      mem := store32 w.core.mem ptr (pointerOf w.storage boot.bees[j].id) } := by
  rw [← inv.slots j hj]
  simp only [coreInterruptHandler, if_pos, coreCommand, id, out, inv.lookup ready hj,
    Nat.add_sub_cancel, Nat.succ_ne_zero, if_false, inv.idNodes]

theorem Inv.handler_coreData (inv : Inv boot w) (ready : boot.Ready) (hj : j < boot.bees.length)
    (id : load32 w.core.mem stack = boot.bees[j].id) (out : load32 w.core.mem (stack + 4) = ptr) :
    (coreInterruptHandler run w.core 0 3 0 stack).core = { w.core with
      mem := store32 w.core.mem ptr (coreData (boot.node j)) } := by
  simp only [coreInterruptHandler, if_pos, coreCommand, id, out, inv.lookup ready hj,
    Nat.add_sub_cancel, Nat.succ_ne_zero, if_false, inv.idNodes]

theorem handler_bumpEnd (c : Core) {out : Nat} (word : load32 c.mem stack = out) :
    (coreInterruptHandler run c 0 4 0 stack).core =
      { c with mem := store32 c.mem out c.memory } := by
  simp only [coreInterruptHandler, if_pos, coreCommand, word]

end Dispatcher

section Calls

variable {boot : Boot} {w : World} {stack nested : Nat}

theorem Client.lt {out : Nat} (target : Client boot w out 4) : out < 2 ^ 32 := by
  have fits := target.1
  omega

/-- The storage of a known module, read through `CMD 2`. -/
theorem Inv.call_storage (inv : Inv boot w) (nested : Nat) (ready : boot.Ready) {j out : Nat}
    (hj : j < boot.bees.length) (array : boot.Outside stack 8) (target : Client boot w out 4) :
    ∃ m, apply boot w (.call stack nested 0 2 [boot.bees[j].id, out]) = w.withMem m ∧
      load32 m out = pointerOf w.storage boot.bees[j].id ∧ Inv boot (w.withMem m) := by
  have inv₁ := inv.withArgs [boot.bees[j].id, out] ready array
  obtain ⟨id, word⟩ := putArgs_two (m := w.core.mem) array.1 (ready.id_lt hj) target.lt
  have served := inv₁.handler_storage (enter boot.code nested) ready hj id word
  have small : pointerOf w.storage boot.bees[j].id < 2 ^ 32 := by
    rw [← inv.slots j hj]
    exact load32_lt _ _
  refine ⟨_, ?_, load_store_self _ target.1 small, inv₁.putOut ready target _⟩
  simp only [apply, syscall_core]
  exact congrArg (fun c => World.mk c w.live w.storage) served

theorem Inv.call_coreData (inv : Inv boot w) (ready : boot.Ready) {j out : Nat}
    (hj : j < boot.bees.length) (array : boot.Outside stack 8) (target : Client boot w out 4) :
    ∃ m, apply boot w (.call stack nested 0 3 [boot.bees[j].id, out]) = w.withMem m ∧
      Inv boot (w.withMem m) := by
  have inv₁ := inv.withArgs [boot.bees[j].id, out] ready array
  obtain ⟨id, word⟩ := putArgs_two (m := w.core.mem) array.1 (ready.id_lt hj) target.lt
  have served := inv₁.handler_coreData (enter boot.code nested) ready hj id word
  refine ⟨_, ?_, inv₁.putOut ready target (coreData (boot.node j))⟩
  simp only [apply, syscall_core]
  exact congrArg (fun c => World.mk c w.live w.storage) served

theorem Inv.call_bumpEnd (inv : Inv boot w) (nested : Nat) (ready : boot.Ready) {out : Nat}
    (array : boot.Outside stack 4) (target : Client boot w out 4) :
    ∃ m, apply boot w (.call stack nested 0 4 [out]) = w.withMem m ∧
      load32 m out = w.core.memory ∧ Inv boot (w.withMem m) ∧
      WritesOnly (boot.LooseByte w) w.core.mem m := by
  have inv₁ := inv.withArgs [out] ready array
  have word : load32 (putArgs w.core.mem stack [out]) stack = out := putArgs_one array.1 target.lt
  have fits := ready.fits
  have high := inv.high
  refine ⟨store32 (putArgs w.core.mem stack [out]) out w.core.memory, ?_,
    load_store_self _ target.1 (show w.core.memory < 2 ^ 32 by omega),
    inv₁.putOut ready target _, ?_⟩
  · simp only [apply, syscall_core]
    exact congrArg (fun c => World.mk c w.live w.storage) (handler_bumpEnd _ _ word)
  · have first : WritesWithin w.core.mem (putArgs w.core.mem stack [out]) stack 4 :=
      putArgs_written [out] array.1
    have second : WritesWithin (putArgs w.core.mem stack [out])
        (store32 (putArgs w.core.mem stack [out]) out w.core.memory) out 4 :=
      .store target.1 (Nat.le_refl _) (Nat.le_refl _)
    exact (first.only fun x lo hi => .inl (.inl (array.2 x lo hi))).trans
      (second.only fun x lo hi => .inl (target.2 x lo hi))

/-- A command of another module stores its arguments; what it does comes later. -/
theorem Inv.call_command (inv : Inv boot w) (ready : boot.Ready) {j CMD : Nat} {args : List Nat}
    (hj : j < boot.bees.length) (array : boot.Outside stack (4 * args.length))
    (low : stack < 2 ^ 32) (nonzero : boot.bees[j].id ≠ 0) (other : boot.bees[j].id ≠ 7)
    (table : CMD < boot.bees[j].tableSize)
    (own : boot.bees[j].entry CMD ≠ boot.code.adr boot.code.kmalloc ∧
      boot.bees[j].entry CMD ≠ boot.code.adr boot.code.kfree ∧
      boot.bees[j].entry CMD ≠ boot.code.adr boot.code.coreAlloc) :
    ∃ m, apply boot w (.call stack nested boot.bees[j].id CMD args) = w.withMem m ∧
      Inv boot (w.withMem m) := by
  have inv₁ := inv.withArgs _ ready array
  have plain : apply boot w (.call stack nested boot.bees[j].id CMD args) =
      ⟨(coreInterruptHandler (enter boot.code nested)
        (w.withMem (putArgs w.core.mem stack args)).core boot.bees[j].id CMD 0 stack).core,
        w.live, w.storage⟩ := by
    simp only [apply, syscall_core]
    split
    · exact absurd (by assumption) nonzero
    · exact absurd (by assumption) other
    · exact absurd (by assumption) other
    · rfl
  rw [plain]
  by_cases word : boot.bees[j].entry CMD = 0
  · have refused := (inv₁.servesAll ready).refuse ready.few ready.distinct hj nonzero
      (enter boot.code nested) CMD 0 stack
      (by rw [inv₁.idNodes, (inv₁.serves ready hj).table CMD table]; exact word)
    rw [refused]
    exact ⟨_, rfl, inv₁⟩
  · obtain ⟨m, entered, _, written⟩ :=
      inv₁.dispatch ready hj nonzero table word low (enter boot.code nested)
    rw [enter_other own.2.2, command_other own.1 own.2.1] at entered
    rw [entered]
    exact ⟨m, rfl, inv₁.loose ready (written.only fun x lo hi => .inr ⟨j, hj, lo, hi⟩)⟩

end Calls

/-! ### The memory manager -/

section Manager

variable {boot : Boot} {w : World} {j stack nested global base size : Nat} {bs : List Block}
  {heaped bumped : List Storage}

theorem Boot.Ready.manager_entries (ready : boot.Ready) : ∃ (j : Nat) (h : j < boot.bees.length),
    boot.bees[j].id = 7 ∧ boot.bees[j].base = boot.code.base ∧ boot.bees[j].tableSize = 3 ∧
      boot.bees[j].entry 1 = boot.code.adr boot.code.kmalloc ∧
      boot.bees[j].entry 2 = boot.code.adr boot.code.kfree := by
  obtain ⟨j, hj, id, base, exports⟩ := ready.manager
  refine ⟨j, hj, id, base, ?_, ?_, ?_⟩
  · rw [Bee.tableSize, exports]
    rfl
  · simp [Bee.entry, Bee.lastExport, exports, base, Code.adr]
  · simp [Bee.entry, Bee.lastExport, exports, base, Code.adr]

theorem Heaped.pointerOf_manager (phase : Heaped boot w global base bs heaped bumped) :
    pointerOf w.storage 7 = global := by
  obtain ⟨_, _, _, found⟩ := phase.manager
  rw [pointerOf, found]
  rfl

theorem Heaped.global_ne (phase : Heaped boot w global base bs heaped bumped) (inv : Inv boot w) :
    global ≠ 0 := by
  obtain ⟨size, _, mem, _⟩ := phase.manager
  have stored : ⟨7, global, size⟩ ∈ w.storage := by
    rw [phase.storage]
    exact List.mem_append_right _ mem
  exact inv.nonnull _ stored

/-- A stack does not see what is written to the nodes. -/
theorem Boot.Outside.agree {a n : Nat} (array : boot.Outside a n) (ready : boot.Ready)
    (hj : j < boot.bees.length) {m m' : Mem} (written : WritesWithin m m' (boot.node j + 12) 8) :
    AgreeOn m m' a n := by
  have inside := ready.inside j hj
  have nodeSize := nodeSize_ge boot.bees[j]
  have room := ready.room
  intro x lo hi
  have off := (array.2 x lo hi).1
  exact written x (by omega)

/-- A command of the memory manager is entered with its `CoreData` and its storage. -/
theorem Heaped.manager_call (phase : Heaped boot w global base bs heaped bumped) (inv : Inv boot w)
    (ready : boot.Ready) {CMD func n : Nat} (hn : 0 < n) (array : boot.Outside stack n)
    (entry : (CMD, func) ∈ [(1, boot.code.kmalloc), (2, boot.code.kfree)])
    (run : Call → Core → Core) :
    ∃ m core, (coreInterruptHandler run w.core 7 CMD 0 stack).core =
        run ⟨boot.code.adr func, [core, global]⟩ { w.core with mem := m } ∧
      load32 m (core + 12) = stack ∧ AgreeOn w.core.mem m stack n ∧
      WritesOnly (boot.LooseByte w) w.core.mem m ∧
      ∀ a size, base ≤ a → AgreeOn w.core.mem m a size := by
  obtain ⟨j, hj, id, _, table, first, second⟩ := ready.manager_entries
  have above := phase.above
  have low := inv.low
  have inside := ready.inside j hj
  have nodeSize := nodeSize_ge boot.bees[j]
  have fits := array.1
  have place : CMD < boot.bees[j].tableSize ∧ boot.bees[j].entry CMD = boot.code.adr func ∧
      boot.code.adr func ≠ 0 := by
    rw [table]
    obtain h | h := List.mem_cons.mp entry
    · obtain ⟨rfl, rfl⟩ := Prod.mk.inj h
      exact ⟨by decide, first, ready.entries.1⟩
    · obtain ⟨rfl, rfl⟩ := Prod.mk.inj (List.mem_singleton.mp h)
      exact ⟨by decide, second, ready.entries.2⟩
  obtain ⟨inTable, address, nonzero⟩ := place
  obtain ⟨m, entered, ptr, written⟩ := inv.dispatch ready hj (by rw [id]; decide) inTable
    (by rw [address]; exact nonzero) (by omega : stack < 2 ^ 32) run
  rw [id, phase.pointerOf_manager, if_neg (phase.global_ne inv), address] at entered
  refine ⟨m, coreData (boot.node j), entered, ptr, array.agree ready hj written, ?_, ?_⟩
  · exact written.only fun x lo hi => .inr ⟨j, hj, lo, hi⟩
  · exact fun a size lo => written.agreeOn (.inr (by omega))

theorem Boot.Outside.lt {n : Nat} (array : boot.Outside stack n) (hn : 0 < n) : stack < 2 ^ 32 := by
  have fits := array.1
  omega

/-- `kmalloc` called by a module. -/
theorem Inv.call_kmalloc (inv : Inv boot w) (ready : boot.Ready) {out : Nat}
    (phase : Heaped boot w global base bs heaped bumped) (array : boot.Outside stack 8)
    (hsize : size ≤ maxSize) (target : Client boot w out 4) :
    ∃ m p, apply boot w (.call stack nested 7 1 [size, out]) =
        ⟨{ w.core with mem := m }, if p = 0 then w.live else ⟨p, size⟩ :: w.live, w.storage⟩ ∧
      Inv boot ⟨{ w.core with mem := m }, if p = 0 then w.live else ⟨p, size⟩ :: w.live,
        w.storage⟩ := by
  have max : maxSize < 2 ^ 32 := by decide
  have filled : WritesOnly (boot.LooseByte w) w.core.mem (putArgs w.core.mem stack [size, out]) :=
    (putArgs_written [size, out] array.1).only fun x lo hi => .inl (.inl (array.2 x lo hi))
  have inv₁ := inv.loose ready filled
  have phase₁ := phase.loose inv ready filled
  obtain ⟨word, word'⟩ := putArgs_two (m := w.core.mem) (a := size) array.1 (by omega) target.lt
  obtain ⟨m, core, entered, ptr, kept, written, _⟩ := phase₁.manager_call inv₁ ready (by decide)
    array
    (List.mem_cons_self (a := (1, boot.code.kmalloc))) (enter boot.code nested)
  have inv₂ := inv₁.loose ready written
  have phase₂ := phase₁.loose inv₁ ready written
  obtain ⟨r, served, _, outcome⟩ := phase₂.kmalloc inv₂ ready hsize
  have size' : load32 m stack = size :=
    (kept.load (by have := array.1; omega) (Nat.le_refl _) (by omega)).trans word
  have out' : load32 m (stack + 4) = out :=
    (kept.load (by have := array.1; omega) (by omega) (by omega)).trans word'
  have call : (coreInterruptHandler (enter boot.code nested)
      { w.core with mem := putArgs w.core.mem stack [size, out] } 7 1 0 stack).core =
        { w.core with mem := store32 r.1 out r.2 } := by
    refine entered.trans ?_
    rw [enter_other ready.different.2.1, command_kmalloc ptr (by rw [size']; exact served), out']
    rfl
  have low : r.2 < 2 ^ 32 := by
    obtain ⟨rfl, _⟩ | ⟨_, _, low, _⟩ := outcome
    · exact Nat.two_pow_pos 32
    · exact low
  have read : load32 (store32 r.1 out r.2) out = r.2 := load_store_self _ target.1 low
  refine ⟨store32 r.1 out r.2, r.2, ?_, ?_⟩
  · simp only [apply, syscall_core, call, read]
  · obtain ⟨rfl, _⟩ | ⟨nonzero, _, _, _, _, bs', _, inv₃⟩ := outcome
    · exact inv₂.putOut ready target 0
    · rw [if_neg nonzero]
      refine inv₃.putOut ready ⟨target.1, fun x lo hi => ?_⟩ r.2
      obtain h | h | ⟨p, hp, has⟩ := target.2 x lo hi
      · exact .inl h
      · exact .inr (.inl h)
      · exact .inr (.inr ⟨p, List.mem_cons_of_mem _ hp, has⟩)

/-- What `kfree` does to the heap: nothing for null, else it takes the block away. -/
theorem Heaped.kfree_owned (phase : Heaped boot w global base bs heaped bumped) {ptr : Nat}
    (owned : ptr = 0 ∨ ∃ p ∈ w.live, p.ptr = ptr) :
    ∃ m' bs', kfree passFuel w.core.mem global ptr = .ok m' ∧
      WritesWithin w.core.mem m' base (64 * heapTotalUnits) ∧
      Memory.Inv global base bs'
        ⟨m', (w.live.eraseP fun p => p.ptr = ptr) ++ heaped.map Storage.block⟩ := by
  obtain rfl | ⟨p, hp, rfl⟩ := owned
  · have kept : (w.live.eraseP fun p => p.ptr = 0) = w.live := by
      apply List.eraseP_of_forall_not
      intro p hp null
      obtain ⟨_, _, _, hptr, _⟩ := phase.heap.block_of_live (List.mem_append_left _ hp)
      have null : p.ptr = 0 := of_decide_eq_true null
      omega
    rw [kept]
    exact ⟨w.core.mem, bs, if_pos rfl, WritesWithin.refl _ _ _, phase.heap⟩
  · have mem : p ∈ w.live ++ heaped.map Storage.block := List.mem_append_left _ hp
    obtain ⟨t, bs', taken, heap', _, _⟩ := kfree_step phase.heap phase.placed
      (.inr ⟨p, mem, rfl⟩)
    have erased : (w.live ++ heaped.map Storage.block).eraseP (fun q => q.ptr = p.ptr) =
        (w.live.eraseP fun q => q.ptr = p.ptr) ++ heaped.map Storage.block :=
      List.eraseP_append_left (p := fun q : Allocation => q.ptr = p.ptr) (decide_eq_true rfl) _ hp
    simp only [Memory.apply] at taken
    cases run : kfree passFuel w.core.mem global p.ptr with
    | error stop =>
        rw [run] at taken
        cases taken
    | ok m' =>
        rw [run] at taken
        obtain rfl := Except.ok.inj taken
        refine ⟨m', bs', rfl, kfree_within phase.heap phase.placed mem run, ?_⟩
        rw [← erased]
        exact heap'

/-- `kfree` of a live pointer, or of null, called by a module. -/
theorem Inv.call_kfree (inv : Inv boot w) (ready : boot.Ready) {ptr : Nat}
    (phase : Heaped boot w global base bs heaped bumped) (array : boot.Outside stack 4)
    (owned : ptr = 0 ∨ ∃ p ∈ w.live, p.ptr = ptr) :
    ∃ m, apply boot w (.call stack nested 7 2 [ptr]) =
        ⟨{ w.core with mem := m }, w.live.eraseP fun p => p.ptr = ptr, w.storage⟩ ∧
      Inv boot ⟨{ w.core with mem := m }, w.live.eraseP fun p => p.ptr = ptr, w.storage⟩ := by
  have small : ptr < 2 ^ 32 := by
    obtain rfl | ⟨p, hp, rfl⟩ := owned
    · exact Nat.two_pow_pos 32
    · have inside := phase.live_inside hp
      have fits := phase.placed.fits
      omega
  have filled : WritesOnly (boot.LooseByte w) w.core.mem (putArgs w.core.mem stack [ptr]) :=
    (putArgs_written [ptr] array.1).only fun x lo hi => .inl (.inl (array.2 x lo hi))
  have inv₁ := inv.loose ready filled
  have phase₁ := phase.loose inv ready filled
  have word : load32 (putArgs w.core.mem stack [ptr]) stack = ptr := putArgs_one array.1 small
  obtain ⟨m, core, entered, args, kept, written, _⟩ := phase₁.manager_call inv₁ ready (by decide)
    array (List.mem_cons_of_mem _ (List.mem_cons_self (a := (2, boot.code.kfree))))
    (enter boot.code nested)
  have inv₂ := inv₁.loose ready written
  have phase₂ := phase₁.loose inv₁ ready written
  have ptr' : load32 m stack = ptr :=
    (kept.load array.1 (Nat.le_refl _) (Nat.le_refl _)).trans word
  obtain ⟨m', bs', served, within, heap'⟩ := phase₂.kfree_owned owned
  have call : (coreInterruptHandler (enter boot.code nested)
      { w.core with mem := putArgs w.core.mem stack [ptr] } 7 2 0 stack).core =
        { w.core with mem := m' } := by
    refine entered.trans ?_
    rw [enter_other ready.different.2.2, command_kfree ready.different.1 args (m := m')
      (by rw [ptr']; exact served)]
    rfl
  obtain ⟨fixed, slots⟩ := inv₂.nodes_kept ready (phase₂.nodes_kept inv₂ ready within)
  refine ⟨m', ?_, ⟨inv.array, inv.irt, fixed, inv.low, inv.high, slots, inv.nonnull,
    .inr ⟨global, base, bs', heaped, bumped, phase.allocF, phase.storage, phase.within, phase.apart,
      phase.manager, phase.others, phase.above, phase.below, phase.placed, heap'⟩⟩⟩
  simp only [apply, syscall_core, call]

end Manager

end HiveRK.System
