import HiveRK.System.WriteOnce

/-!
# What is left alone

A module owns its stacks, its storage and what `kmalloc` gave it. No operation changes a byte of
these but where its caller names it: in an array of arguments, where a result is asked for, or in
a write. So what one module keeps in memory is out of reach of the requests of all others, and of
the core and the memory manager.
-/

namespace HiveRK.System

open Machine Queen Memory FirstFit

/-- The stretches of memory that a caller hands over, each by address and length. -/
def Op.reach : Op → List (Nat × Nat)
  | .call stack nested ID CMD args =>
      (stack, 4 * args.length) :: match ID, CMD, args with
        | 0, 1, _ => [(nested, 8)]
        | 0, 2, [_, out] | 0, 3, [_, out] | 0, 4, [out] | 7, 1, [_, out] => [(out, 4)]
        | _, _, _ => []
  | .write address _ => [(address, 1)]
  | .beeInit _ stack slot => [(stack, 8), (slot, 4)]

def Op.Reaches (op : Op) (x : Nat) : Prop := ∃ r ∈ op.reach, r.1 ≤ x ∧ x < r.1 + r.2

/-- The operation gives the allocation at `ptr` back. -/
def Op.Frees (ptr : Nat) (op : Op) : Prop := ∃ stack nested, op = .call stack nested 7 2 [ptr]

/-- A byte of a stack, of the storage of a module, or of a live allocation. The memory manager
keeps its own storage. -/
def Boot.OwnedByte (boot : Boot) (w : World) (x : Nat) : Prop :=
  boot.OutsideByte x ∨ (∃ s ∈ w.storage, s.id ≠ 7 ∧ s.ptr ≤ x ∧ x < s.ptr + s.size) ∨
    ∃ p ∈ w.live, p.ptr ≤ x ∧ x < p.ptr + p.size

section Bytes

variable {boot : Boot} {w w' : World} {x j global base : Nat} {bs : List Block}
  {heaped bumped : List Storage}

theorem Boot.Ready.nodes_le (ready : boot.Ready) : boot.nodes ≤ boot.core.memory := by
  obtain ⟨j, hj, -⟩ := ready.manager
  have inside := ready.inside j hj
  omega

theorem Boot.OwnedByte.mono (owned : boot.OwnedByte w x) (storage : w.storage ⊆ w'.storage)
    (live : w.live ⊆ w'.live) : boot.OwnedByte w' x :=
  owned.imp_right (Or.imp (fun ⟨s, hs, inside⟩ => ⟨s, storage hs, inside⟩)
    fun ⟨p, hp, inside⟩ => ⟨p, live hp, inside⟩)

/-- Nothing that is owned lies among the nodes. -/
theorem Inv.owned_off (inv : Inv boot w) (ready : boot.Ready) (owned : boot.OwnedByte w x) :
    x < boot.nodes ∨ boot.core.memory ≤ x := by
  have room := ready.room
  obtain ⟨off, -⟩ | ⟨s, hs, -, inside⟩ | ⟨p, hp, inside⟩ := owned
  · omega
  · have within := inv.storage_within hs
    omega
  · have within := inv.live_within hp
    omega

/-- Nor does it lie in what the bump allocator has left. -/
theorem Bumping.owned_off (phase : Bumping boot w) (inv : Inv boot w) (ready : boot.Ready)
    (owned : boot.OwnedByte w x) : x < w.core.memory ∨ boot.limit ≤ x := by
  have low := inv.low
  have nodes := ready.nodes_le
  obtain ⟨off, -⟩ | ⟨s, hs, -, inside⟩ | ⟨p, hp, -⟩ := owned
  · omega
  · have within := phase.within s hs
    omega
  · rw [phase.live] at hp
    exact absurd hp List.not_mem_nil

/-- In the heap it lies in a payload. -/
theorem Heaped.owned_cases (phase : Heaped boot w global base bs heaped bumped) (inv : Inv boot w)
    (ready : boot.Ready) (owned : boot.OwnedByte w x) :
    (x < base ∨ base + 64 * heapTotalUnits ≤ x) ∨
      ∃ p ∈ w.live ++ heaped.map Storage.block, p.ptr ≤ x ∧ x < p.ptr + p.size := by
  have low := inv.low
  have above := phase.above
  have below := phase.below
  have nodes := ready.nodes_le
  obtain ⟨off, -⟩ | ⟨s, hs, -, inside⟩ | ⟨p, hp, inside⟩ := owned
  · exact .inl (by omega)
  · rw [phase.storage] at hs
    obtain hs | hs := List.mem_append.mp hs
    · exact .inr ⟨s.block, List.mem_append_right _ (List.mem_map_of_mem hs), inside⟩
    · have within := phase.within s hs
      exact .inl (by omega)
  · exact .inr ⟨p, List.mem_append_left _ hp, inside⟩

/-- What a dispatch stores in a `CoreData` is not owned. -/
theorem Inv.node_kept (inv : Inv boot w) (ready : boot.Ready) (hj : j < boot.bees.length)
    {m m' : Mem} {a n : Nat} (written : WritesWithin m m' a n) (lo : boot.node j ≤ a)
    (hi : a + n ≤ boot.node j + 28) (owned : boot.OwnedByte w x) : m' x = m x := by
  have inside := ready.inside j hj
  have size := nodeSize_ge boot.bees[j]
  have off := inv.owned_off ready owned
  exact written x (by omega)

end Bytes

/-! ### The memory manager -/

section Manager

variable {boot : Boot} {w : World} {x stack out size global base : Nat} {bs : List Block}
  {heaped bumped : List Storage}

/-- An argument array on a stack. -/
theorem Heaped.withArgs (phase : Heaped boot w global base bs heaped bumped) (inv : Inv boot w)
    (ready : boot.Ready) (args : List Nat) (array : boot.Outside stack (4 * args.length)) :
    Heaped boot (w.withMem (putArgs w.core.mem stack args)) global base bs heaped bumped :=
  phase.loose inv ready
    ((putArgs_written args array.1).only fun x lo hi => .inl (.inl (array.2 x lo hi)))

/-- A command of the memory manager is entered in a memory that has all owned bytes. -/
theorem Heaped.dispatch_kept (phase : Heaped boot w global base bs heaped bumped)
    (inv : Inv boot w) (ready : boot.Ready) {CMD func n : Nat} (hn : 0 < n)
    (array : boot.Outside stack n)
    (entry : (CMD, func) ∈ [(1, boot.code.kmalloc), (2, boot.code.kfree)])
    (run : Call → Core → Core) :
    ∃ m core, (coreInterruptHandler run w.core 7 CMD 0 stack).core =
        run ⟨boot.code.adr func, [core, global]⟩ { w.core with mem := m } ∧
      load32 m (core + 12) = stack ∧ AgreeOn w.core.mem m stack n ∧
      Inv boot (w.withMem m) ∧ Heaped boot (w.withMem m) global base bs heaped bumped ∧
      ∀ x, boot.OwnedByte w x → m x = w.core.mem x := by
  obtain ⟨j, hj, id, -, table, first, second⟩ := ready.manager_entries
  have place : CMD < boot.bees[j].tableSize ∧ boot.bees[j].entry CMD = boot.code.adr func ∧
      boot.code.adr func ≠ 0 := by
    rw [table]
    obtain h | h := List.mem_cons.mp entry
    · obtain ⟨rfl, rfl⟩ := Prod.mk.inj h
      exact ⟨by decide, first, ready.entries.1⟩
    · obtain ⟨rfl, rfl⟩ := Prod.mk.inj (List.mem_singleton.mp h)
      exact ⟨by decide, second, ready.entries.2⟩
  obtain ⟨inTable, address, nonzero⟩ := place
  obtain ⟨m, entered, ptr, written⟩ := inv.dispatch ready hj (by rw [id]; decide) inTable
    (by rw [address]; exact nonzero) (array.lt hn) run
  rw [id, phase.pointerOf_manager, if_neg (phase.global_ne inv), address] at entered
  have loose : WritesOnly (boot.LooseByte w) w.core.mem m :=
    written.only fun x lo hi => .inr ⟨j, hj, lo, hi⟩
  exact ⟨m, coreData (boot.node j), entered, ptr, array.agree ready hj written,
    inv.loose ready loose, phase.loose inv ready loose,
    fun x owned => inv.node_kept ready hj written (by omega) (by omega) owned⟩

/-- A call of `kmalloc` changes no owned byte but those of the word where the caller asks for the
result. -/
theorem Heaped.kmalloc_kept (phase : Heaped boot w global base bs heaped bumped)
    (inv : Inv boot w) (ready : boot.Ready) (array : boot.Outside stack 8) (hsize : size ≤ maxSize)
    (word : load32 w.core.mem stack = size) (word' : load32 w.core.mem (stack + 4) = out)
    (run : Call → Core → Core) (enters : ∀ args c,
      run ⟨boot.code.adr boot.code.kmalloc, args⟩ c =
        command boot.code ⟨boot.code.adr boot.code.kmalloc, args⟩ c) :
    ∃ m v, (coreInterruptHandler run w.core 7 1 0 stack).core.mem = store32 m out v ∧
      ∀ x, boot.OwnedByte w x → m x = w.core.mem x := by
  obtain ⟨m, core, entered, ptr, kept, inv₁, phase₁, same⟩ :=
    phase.dispatch_kept inv ready (by decide) array List.mem_cons_self run
  obtain ⟨r, served, within, -⟩ := phase₁.kmalloc inv₁ ready hsize
  have fits := array.1
  have size' : load32 m stack = size :=
    (kept.load (by omega) (Nat.le_refl _) (by omega)).trans word
  have out' : load32 m (stack + 4) = out := (kept.load (by omega) (by omega) (by omega)).trans word'
  refine ⟨r.1, r.2, ?_, fun x owned => ?_⟩
  · rw [entered, enters, command_kmalloc ptr (by rw [size']; exact served), out']
  · refine Eq.trans ?_ (same x owned)
    obtain off | ⟨p, hp, lo, hi⟩ := phase.owned_cases inv ready owned
    · exact within x off
    · exact phase₁.heap.kmalloc_keeps phase₁.placed hsize served hp x lo hi

theorem Heaped.kfree_kept (phase : Heaped boot w global base bs heaped bumped)
    (inv : Inv boot w) (ready : boot.Ready) {ptr : Nat} (array : boot.Outside stack 4)
    (word : load32 w.core.mem stack = ptr) (owned : ptr = 0 ∨ ∃ p ∈ w.live, p.ptr = ptr)
    (nested : Nat) (has : boot.OwnedByte w x) :
    (coreInterruptHandler (enter boot.code nested) w.core 7 2 0 stack).core.mem x =
      w.core.mem x := by
  obtain ⟨m, core, entered, args, kept, inv₁, phase₁, same⟩ := phase.dispatch_kept inv ready
    (by decide) array (List.mem_cons_of_mem _ List.mem_cons_self) (enter boot.code nested)
  have ptr' : load32 m stack = ptr :=
    (kept.load array.1 (Nat.le_refl _) (Nat.le_refl _)).trans word
  obtain ⟨m', bs', served, within, -⟩ := phase₁.kfree_owned owned
  rw [entered, enter_other ready.different.2.2,
    command_kfree ready.different.1 args (by rw [ptr']; exact served)]
  refine Eq.trans ?_ (same x has)
  obtain off | ⟨p, hp, lo, hi⟩ := phase.owned_cases inv ready has
  · exact within x off
  · obtain rfl | ⟨q, hq, rfl⟩ := owned
    · rw [kfree, if_pos rfl] at served
      rw [← Except.ok.inj served]
      rfl
    · exact phase₁.heap.kfree_keeps phase₁.placed (List.mem_append_left _ hq) served hp x lo hi

end Manager

/-! ### One operation -/

section Operations

variable {boot : Boot} {w : World} {op : Op} {x j stack nested size global base : Nat}
  {bs : List Block} {heaped bumped : List Storage}

/-- The bump allocator clears what nobody owns. -/
theorem Bumping.alloc_kept (phase : Bumping boot w) (inv : Inv boot w) (ready : boot.Ready)
    (hj : j < boot.bees.length) (room : w.core.memory + 4 * size ≤ boot.limit)
    (owned : boot.OwnedByte w x) :
    (alloc w.core size (boot.node j + 20)).mem x = w.core.mem x := by
  have inside := ready.inside j hj
  have nodeSize := nodeSize_ge boot.bees[j]
  have low := inv.low
  have fits := ready.fits
  obtain ⟨m, allocated, -, -, written⟩ := alloc_spec
    (show boot.node j + 20 + 4 ≤ w.core.memory by omega)
    (show w.core.memory + 4 * size < 2 ^ 32 by omega)
  have off := inv.owned_off ready owned
  have behind := phase.owned_off inv ready owned
  rw [allocated]
  exact written x (by omega)

/-- `core_alloc` passes the request on to `kmalloc`. -/
theorem Heaped.coreAlloc_kept (phase : Heaped boot w global base bs heaped bumped)
    (inv : Inv boot w) (ready : boot.Ready) (hj : j < boot.bees.length)
    (inner : boot.Outside nested 8) (small : size ≤ maxSize) (owned : boot.OwnedByte w x)
    (apart : x < nested ∨ nested + 8 ≤ x) :
    (coreAlloc boot.code nested size (boot.node j + 20) w.core).mem x = w.core.mem x := by
  have max : maxSize < 2 ^ 32 := by decide
  have inside := ready.inside j hj
  have nodeSize := nodeSize_ge boot.bees[j]
  have fits := ready.node_fits hj
  have off := inv.owned_off ready owned
  have inv₁ := inv.withArgs [size, boot.node j + 20] ready inner
  have phase₁ := phase.withArgs inv ready [size, boot.node j + 20] inner
  obtain ⟨word, word'⟩ := putArgs_two (m := w.core.mem) (a := size) (b := boot.node j + 20) inner.1
    (by omega) (by omega)
  have array : putArgs w.core.mem nested [size, boot.node j + 20] x = w.core.mem x :=
    putArgs_written _ inner.1 x apart
  obtain ⟨m, v, stored, same⟩ := phase₁.kmalloc_kept inv₁ ready inner small word word'
    (command boot.code) fun _ _ => rfl
  simp only [World.withMem] at stored
  rw [coreAlloc, syscall_core (inv.getCoreIRT ready), stored]
  exact (store_outside (by omega) (by omega)).trans ((same x owned).trans array)

/-- What every call does after its arguments are stored. -/
theorem apply_call (boot : Boot) (w : World) (stack nested ID CMD : Nat) (args : List Nat) :
    (apply boot w (.call stack nested ID CMD args)).core =
      (coreInterruptHandler (enter boot.code nested)
        (w.withMem (putArgs w.core.mem stack args)).core ID CMD 0 stack).core := by
  simp only [apply, syscall_core]
  split
  · rfl
  · rfl
  · rfl
  · rfl

theorem not_reaches_iff : ¬ op.Reaches x ↔ ∀ r ∈ op.reach, x < r.1 ∨ r.1 + r.2 ≤ x := by
  constructor
  · intro free r hr
    by_contra inside
    exact free ⟨r, hr, by omega⟩
  · rintro off ⟨r, hr, inside⟩
    have apart := off r hr
    omega

theorem not_reaches {r : Nat × Nat} (hr : r ∈ op.reach) (free : ¬ op.Reaches x) :
    x < r.1 ∨ r.1 + r.2 ≤ x := not_reaches_iff.mp free r hr

/-- A call of the core that hands over an array and one stretch more. -/
theorem call_free {ID CMD : Nat} {args : List Nat} {r : Nat × Nat}
    (reach : (Op.call stack nested ID CMD args).reach = [(stack, 4 * args.length), r])
    (array : x < stack ∨ stack + 4 * args.length ≤ x) (off : x < r.1 ∨ r.1 + r.2 ≤ x) :
    ¬ (Op.call stack nested ID CMD args).Reaches x := by
  rw [not_reaches_iff, reach]
  exact List.forall_mem_cons.mpr ⟨array, List.forall_mem_singleton.mpr off⟩

theorem args_kept {ID CMD : Nat} {args : List Nat} {m : Mem}
    (fits : stack + 4 * args.length ≤ 2 ^ 32)
    (free : ¬ (Op.call stack nested ID CMD args).Reaches x) : putArgs m stack args x = m x :=
  putArgs_written args fits x (not_reaches List.mem_cons_self free)

/-- A request for storage. -/
theorem Inv.allocate_kept (inv : Inv boot w) (ready : boot.Ready) (hj : j < boot.bees.length)
    (array : boot.Outside stack 8) (inner : boot.Outside nested 8) (small : size ≤ maxSize)
    (room : w.core.allocF = .alloc → w.core.memory + 4 * size ≤ boot.limit)
    (owned : boot.OwnedByte w x)
    (free : ¬ (Op.call stack nested 0 1 [boot.bees[j].id, size]).Reaches x) :
    (apply boot w (.call stack nested 0 1 [boot.bees[j].id, size])).core.mem x = w.core.mem x := by
  have max : maxSize < 2 ^ 32 := by decide
  have inv₁ := inv.withArgs [boot.bees[j].id, size] ready array
  obtain ⟨id, word⟩ :=
    putArgs_two (m := w.core.mem) (b := size) array.1 (ready.id_lt hj) (by omega)
  rw [apply_call]
  refine Eq.trans ?_ (args_kept array.1 free)
  by_cases empty : pointerOf w.storage boot.bees[j].id = 0
  · rw [inv₁.handler_allocate (enter boot.code nested) ready hj id word empty]
    obtain phase | ⟨global, base, bs, heaped, bumped, phase⟩ := inv.phase
    · have phase₁ := phase.withMem (putArgs w.core.mem stack [boot.bees[j].id, size])
      rw [callAllocF_alloc phase₁.allocF]
      exact phase₁.alloc_kept inv₁ ready hj (room phase.allocF) owned
    · have inner' : (nested, 8) ∈ (Op.call stack nested 0 1 [boot.bees[j].id, size]).reach := by
        rw [Op.reach]
        exact List.mem_cons_of_mem _ List.mem_cons_self
      have phase₁ := phase.withArgs inv ready [boot.bees[j].id, size] array
      rw [callAllocF_custom phase₁.allocF, enter_coreAlloc]
      exact phase₁.coreAlloc_kept inv₁ ready hj inner small owned (not_reaches inner' free)
  · rw [inv₁.handler_served (enter boot.code nested) ready hj id empty]
    rfl

/-- A result is stored in the word that the caller names. -/
theorem out_kept {ID CMD out v : Nat} {args : List Nat}
    (stored : (coreInterruptHandler (enter boot.code nested)
      (w.withMem (putArgs w.core.mem stack args)).core ID CMD 0 stack).core =
        { w.core with mem := store32 (putArgs w.core.mem stack args) out v })
    (target : Client boot w out 4) (fits : stack + 4 * args.length ≤ 2 ^ 32)
    (named : (out, 4) ∈ (Op.call stack nested ID CMD args).reach)
    (free : ¬ (Op.call stack nested ID CMD args).Reaches x) :
    (apply boot w (.call stack nested ID CMD args)).core.mem x = w.core.mem x := by
  rw [apply_call, stored]
  exact (store_outside target.1 (not_reaches named free)).trans (args_kept fits free)

/-- A command of another module stores its arguments in its node. -/
theorem Inv.command_kept (inv : Inv boot w) (ready : boot.Ready) {CMD : Nat} {args : List Nat}
    (hj : j < boot.bees.length) (array : boot.Outside stack (4 * args.length))
    (low : stack < 2 ^ 32) (nonzero : boot.bees[j].id ≠ 0) (table : CMD < boot.bees[j].tableSize)
    (own : boot.bees[j].entry CMD ≠ boot.code.adr boot.code.kmalloc ∧
      boot.bees[j].entry CMD ≠ boot.code.adr boot.code.kfree ∧
      boot.bees[j].entry CMD ≠ boot.code.adr boot.code.coreAlloc)
    (owned : boot.OwnedByte w x)
    (free : ¬ (Op.call stack nested boot.bees[j].id CMD args).Reaches x) :
    (apply boot w (.call stack nested boot.bees[j].id CMD args)).core.mem x = w.core.mem x := by
  have inv₁ := inv.withArgs args ready array
  rw [apply_call]
  refine Eq.trans ?_ (args_kept array.1 free)
  by_cases word : boot.bees[j].entry CMD = 0
  · rw [(inv₁.servesAll ready).refuse ready.few ready.distinct hj nonzero
      (enter boot.code nested) CMD 0 stack
      (by rw [inv₁.idNodes, (inv₁.serves ready hj).table CMD table]; exact word)]
    rfl
  · obtain ⟨m, entered, -, written⟩ :=
      inv₁.dispatch ready hj nonzero table word low (enter boot.code nested)
    rw [entered, enter_other own.2.2, command_other own.1 own.2.1]
    exact inv₁.node_kept ready hj written (by omega) (by omega) owned

/-- One call. -/
theorem Inv.call_kept (inv : Inv boot w) (ready : boot.Ready) {ID CMD : Nat} {args : List Nat}
    (legal : Legal boot w (.call stack nested ID CMD args)) (owned : boot.OwnedByte w x)
    (free : ¬ (Op.call stack nested ID CMD args).Reaches x) :
    (apply boot w (.call stack nested ID CMD args)).core.mem x = w.core.mem x := by
  cases legal with
  | allocate array inner known small room own =>
      obtain ⟨j, hj, rfl⟩ := Boot.known known
      exact inv.allocate_kept ready hj array inner small room owned free
  | storage array known target =>
      obtain ⟨j, hj, rfl⟩ := Boot.known known
      obtain ⟨id, word⟩ := putArgs_two (m := w.core.mem) array.1 (ready.id_lt hj) target.lt
      have served := (inv.withArgs [_, _] ready array).handler_storage (enter boot.code nested)
        ready hj id word
      exact out_kept served target array.1 (List.mem_cons_of_mem _ List.mem_cons_self) free
  | coreData array known target =>
      obtain ⟨j, hj, rfl⟩ := Boot.known known
      obtain ⟨id, word⟩ := putArgs_two (m := w.core.mem) array.1 (ready.id_lt hj) target.lt
      have served := (inv.withArgs [_, _] ready array).handler_coreData (enter boot.code nested)
        ready hj id word
      exact out_kept served target array.1 (List.mem_cons_of_mem _ List.mem_cons_self) free
  | bumpEnd array target =>
      exact out_kept (handler_bumpEnd _ _ (putArgs_one array.1 target.lt)) target array.1
        (List.mem_cons_of_mem _ List.mem_cons_self) free
  | @kmalloc _ _ size out array switched small target =>
      have max : maxSize < 2 ^ 32 := by decide
      obtain ⟨_, _, _, _, _, phase⟩ := inv.switched switched
      have inv₁ := inv.withArgs [size, out] ready array
      have phase₁ := phase.withArgs inv ready [size, out] array
      obtain ⟨word, word'⟩ :=
        putArgs_two (m := w.core.mem) (a := size) array.1 (by omega) target.lt
      obtain ⟨m, v, stored, same⟩ := phase₁.kmalloc_kept inv₁ ready array small word word'
        (enter boot.code nested) fun _ _ => enter_other ready.different.2.1 _ _
      rw [apply_call, stored]
      have named : (out, 4) ∈ (Op.call stack nested 7 1 [size, out]).reach :=
        List.mem_cons_of_mem _ List.mem_cons_self
      exact (store_outside target.1 (not_reaches named free)).trans
        ((same x owned).trans (args_kept array.1 free))
  | @kfree _ _ ptr array switched live =>
      obtain ⟨_, _, _, _, _, phase⟩ := inv.switched switched
      have inv₁ := inv.withArgs [ptr] ready array
      have phase₁ := phase.withArgs inv ready [ptr] array
      have low : ptr < 2 ^ 32 := by
        obtain rfl | ⟨p, hp, rfl⟩ := live
        · exact Nat.two_pow_pos 32
        · have inside := phase.live_inside hp
          have fits := phase.placed.fits
          omega
      rw [apply_call]
      exact (phase₁.kfree_kept inv₁ ready array (putArgs_one array.1 low) live nested owned).trans
        (args_kept array.1 free)
  | command array low known nonzero other table own =>
      obtain ⟨j, hj, rfl⟩ := List.getElem_of_mem known
      exact inv.command_kept ready hj array low nonzero table own owned free

/-- The manager's storage is apart from what the others own. -/
theorem Bumping.owned_apart (phase : Bumping boot w) (inv : Inv boot w) (ready : boot.Ready)
    {ptr : Nat} (manager : ⟨7, ptr, size⟩ ∈ w.storage) (owned : boot.OwnedByte w x) :
    x < ptr ∨ ptr + size ≤ x := by
  have within := inv.storage_within manager
  have nodes := ready.nodes_le
  simp only at within
  obtain ⟨off, -⟩ | ⟨s, hs, other, inside⟩ | ⟨p, hp, -⟩ := owned
  · omega
  · have apart := phase.apart.forall hs manager fun same => other (congrArg Storage.id same)
    simp only [Storage.Apart] at apart
    omega
  · rw [phase.live] at hp
    exact absurd hp List.not_mem_nil

/-- `bee_init` of the memory manager is three calls, the heap, and a last call. -/
theorem beeInit_eq {code : Code} {c c₁ : Core} {m₂ m₃ : Mem} {core slot : Nat}
    (irt : load32 c.mem core = u32 c₁.irt)
    (first : syscall (enter code stack) c (u32 c₁.irt) stack 0 1 [7, 4] = c₁)
    (second : syscall (enter code stack) c₁ (u32 c₁.irt) stack 0 2 [7, slot] =
      { c₁ with mem := m₂ })
    (pointer : load32 m₂ slot = global)
    (third : syscall (enter code stack) { c₁ with mem := m₂ } (u32 c₁.irt) stack 0 4 [global] =
      { c₁ with mem := m₃ }) :
    ∃ adr f, beeInit code c core stack slot = { c₁ with
      mem := putArgs (Memory.initHeap m₃ global) stack [adr]
      allocF := f } := by
  have fourth (m : Mem) (a : Nat) : syscall (enter code stack) { c₁ with mem := m }
      (u32 c₁.irt) stack 0 5 [a] = { c₁ with
        mem := putArgs m stack [a]
        allocF := .custom (load32 (putArgs m stack [a]) stack) } := by
    rw [syscall_core rfl]
    rfl
  simp only [beeInit, irt, first, second, pointer, third, fourth]
  exact ⟨_, _, rfl⟩

/-- The heap is built where nobody owns anything. -/
theorem Inv.beeInit_kept (inv : Inv boot w) (ready : boot.Ready) (phase : Bumping boot w)
    {slot : Nat} (hj : j < boot.bees.length) (manager : boot.bees[j].id = 7)
    (array : boot.Outside stack 8) (outside : boot.Outside slot 4)
    (room : w.core.memory + 16 ≤ boot.limit)
    (above : ∀ bumpEnd,
      bumpEnd = (apply boot w (.beeInit (coreData (boot.node j)) stack slot)).core.memory →
      bumpEnd ≤ heapBase bumpEnd ∧ heapBase bumpEnd + 64 * heapTotalUnits ≤ boot.limit)
    (owned : boot.OwnedByte w x)
    (free : ¬ (Op.beeInit (coreData (boot.node j)) stack slot).Reaches x) :
    (apply boot w (.beeInit (coreData (boot.node j)) stack slot)).core.mem x = w.core.mem x := by
  have known : ∃ b ∈ boot.bees, b.id = 7 := ⟨boot.bees[j], List.getElem_mem hj, manager⟩
  have short : boot.Outside stack 4 :=
    ⟨by have := array.1; omega, fun x lo hi => array.2 x lo (by omega)⟩
  have offStack : x < stack ∨ stack + 8 ≤ x := not_reaches List.mem_cons_self free
  have offSlot : x < slot ∨ slot + 4 ≤ x :=
    not_reaches (List.mem_cons_of_mem _ List.mem_cons_self) free
  -- `CMD 1`: the manager has storage.
  obtain ⟨w₁, core₁, live₁, storage₁, nonzero, inv₁, phase₁⟩ :=
    inv.own_storage ready phase hj array room
  rw [manager] at core₁ storage₁ nonzero
  have owned₁ : boot.OwnedByte w₁ x := owned.mono
    (fun s hs => storage₁ ▸ List.mem_append_right _ hs) fun p hp => live₁.symm ▸ hp
  have same₁ : w₁.core.mem x = w.core.mem x := by
    rw [core₁]
    exact inv.call_kept ready
      (.allocate array array known (by decide) (fun _ => room) fun _ => Nat.le_refl 4) owned
      (call_free rfl offStack offStack)
  -- `CMD 2`: the pointer to it.
  obtain ⟨m₂, core₂, pointer, inv₂⟩ := inv₁.call_storage stack ready hj array (outside.client w₁)
  rw [manager] at core₂ pointer
  have same₂ : m₂ x = w₁.core.mem x := by
    have legal : Legal boot w₁ (.call stack stack 0 2 [7, slot]) :=
      .storage array known (outside.client w₁)
    have kept := inv₁.call_kept ready legal owned₁ (call_free rfl offStack offSlot)
    rwa [core₂] at kept
  generalize hglobal : pointerOf w₁.storage 7 = global at *
  -- `CMD 4`: the bump end.
  obtain ⟨size, -, mem⟩ := find_of_pointerOf hglobal nonzero
  have large := phase₁.own _ mem rfl
  have inside := phase₁.within _ mem
  simp only at inside large
  have high := inv₁.high
  have fits := ready.fits
  have own : Client boot (w₁.withMem m₂) global 4 := by
    refine ⟨by omega, fun x lo hi => .inr (.inl ⟨_, mem, fun _ => phase₁.allocF, lo, ?_⟩)⟩
    simp only
    omega
  have apart := phase₁.owned_apart inv₁ ready mem owned₁
  obtain ⟨m₃, core₃, bumpEnd, inv₃, -⟩ := inv₂.call_bumpEnd stack ready short own
  have same₃ : m₃ x = m₂ x := by
    have legal : Legal boot (w₁.withMem m₂) (.call stack stack 0 4 [global]) :=
      .bumpEnd short own
    have offGlobal : x < global ∨ global + 4 ≤ x := by omega
    have offArray : x < stack ∨ stack + 4 ≤ x := by omega
    have kept := inv₂.call_kept ready legal owned₁ (call_free rfl offArray offGlobal)
    rwa [core₃] at kept
  -- The run, call by call.
  have irt : u32 w.core.irt = u32 w₁.core.irt := by rw [inv.irt, inv₁.irt]
  rw [requestStorage, irt] at core₁
  obtain ⟨adr, f, run⟩ := beeInit_eq ((inv.core_words ready hj).1.trans irt) core₁.symm
    (congrArg World.core core₂) pointer (congrArg World.core core₃)
  have run : (apply boot w (.beeInit (coreData (boot.node j)) stack slot)).core = { w₁.core with
      mem := putArgs (Memory.initHeap m₃ global) stack [adr]
      allocF := f } := run
  -- The heap is built behind the bump end.
  obtain ⟨low, below⟩ := above w₁.core.memory (by rw [run])
  have units : heapTotalUnits = 16384 := by decide
  have placed : Placed global (heapBase w₁.core.memory) := ⟨by omega, .inl (by omega), by omega⟩
  have pointed : heap m₃ global = w₁.core.memory := bumpEnd
  have built := (heap_initHeap_of pointed placed).2
  have behind := phase₁.owned_off inv₁ ready owned₁
  rw [run]
  have last : x < stack ∨ stack + 4 ≤ x := by omega
  have stored : putArgs (Memory.initHeap m₃ global) stack [adr] x = Memory.initHeap m₃ global x :=
    putArgs_written [adr] short.1 x last
  exact (stored.trans ((built x (by omega)).trans same₃)).trans (same₂.trans same₁)

/-- One operation. -/
theorem Inv.kept (inv : Inv boot w) (ready : boot.Ready) (legal : Legal boot w op)
    (owned : boot.OwnedByte w x) (free : ¬ op.Reaches x) :
    (apply boot w op).core.mem x = w.core.mem x := by
  cases op with
  | call => exact inv.call_kept ready legal owned free
  | write address v =>
      have other : x < address ∨ address + 1 ≤ x := not_reaches List.mem_cons_self free
      exact Function.update_of_ne (by omega) _ _
  | beeInit =>
      cases legal with
      | beeInit hj manager first array global room above =>
          exact inv.beeInit_kept ready (inv.bumping first) hj manager array global room above owned
            free

/-- A live allocation stays live until it is given back. -/
theorem live_kept {p : Allocation} (hp : p ∈ w.live) (kept : ¬ op.Frees p.ptr) :
    p ∈ (apply boot w op).live := by
  cases op with
  | call stack nested ID CMD args =>
      simp only [apply]
      split
      · exact hp
      · split_ifs
        · exact hp
        · exact List.mem_cons_of_mem _ hp
      · rename_i ptr
        refine (List.mem_eraseP_of_neg ?_).mpr hp
        simp only [decide_eq_true_eq]
        rintro rfl
        exact kept ⟨stack, nested, rfl⟩
      · exact hp
  | write => exact hp
  | beeInit => exact hp

theorem Inv.storage_kept (inv : Inv boot w) (ready : boot.Ready) (legal : Legal boot w op)
    {s : Storage} (hs : s ∈ w.storage) : s ∈ (apply boot w op).storage := by
  obtain same | ⟨s', more, -⟩ := inv.storage_step ready legal
  · rwa [same]
  · rw [more]
    exact List.mem_cons_of_mem _ hs

end Operations

/-! ### Runs -/

section Runs

variable {boot : Boot} {w w' : World} {ops more : List Op} {x : Nat}

/-- While the operations leave it to its owner, an owned byte that none of them reaches keeps its
value. -/
theorem Inv.kept_run (inv : Inv boot w) (ready : boot.Ready) (Owner : World → Prop)
    (later : Runs (Step boot) w more w') (owner : Owner w)
    (owned : ∀ v, Owner v → boot.OwnedByte v x)
    (remains : ∀ v op, op ∈ more → Inv boot v → Legal boot v op → Owner v → Owner (apply boot v op))
    (free : ∀ op ∈ more, ¬ op.Reaches x) : Owner w' ∧ w'.core.mem x = w.core.mem x := by
  refine (later.invariant_on (fun v => Inv boot v ∧ Owner v ∧ v.core.mem x = w.core.mem x)
    ⟨inv, owner, rfl⟩ ?_).2
  rintro v op _ hop ⟨inv, owner, same⟩ ⟨legal, rfl⟩
  exact ⟨inv.step ready legal, remains v op hop inv legal owner,
    (inv.kept ready legal (owned v owner) (free op hop)).trans same⟩

/-- After every run, and whatever comes then: all storage stays with its module, and a live
allocation is live until it is given back. Of these, of the stacks and of what else lies outside of
the stretch, a byte that none of the later operations reaches keeps its value; only the storage of
the memory manager is at the manager's own disposal. -/
theorem memory_kept (ready : boot.Ready) (run : Runs (Step boot) (start boot) ops w)
    (later : Runs (Step boot) w more w') :
    (∀ s ∈ w.storage, s ∈ w'.storage ∧ (s.id ≠ 7 → ∀ x, s.ptr ≤ x → x < s.ptr + s.size →
      (∀ op ∈ more, ¬ op.Reaches x) → w'.core.mem x = w.core.mem x)) ∧
    (∀ p ∈ w.live, (∀ op ∈ more, ¬ op.Frees p.ptr) → p ∈ w'.live ∧
      ∀ x, p.ptr ≤ x → x < p.ptr + p.size → (∀ op ∈ more, ¬ op.Reaches x) →
        w'.core.mem x = w.core.mem x) ∧
    ∀ x, boot.OutsideByte x → (∀ op ∈ more, ¬ op.Reaches x) → w'.core.mem x = w.core.mem x := by
  have inv := inv_of_runs ready run
  refine ⟨fun s hs => ⟨?_, fun other x lo hi free => ?_⟩,
    fun p hp kept => ⟨?_, fun x lo hi free => ?_⟩, fun x off free => ?_⟩
  · refine (later.invariant (fun v => Inv boot v ∧ s ∈ v.storage) ⟨inv, hs⟩ ?_).2
    rintro v op _ ⟨inv, hs⟩ ⟨legal, rfl⟩
    exact ⟨inv.step ready legal, inv.storage_kept ready legal hs⟩
  · exact (inv.kept_run ready (s ∈ ·.storage) later hs
      (fun v hs => .inr (.inl ⟨s, hs, other, lo, hi⟩))
      (fun v op _ inv legal => inv.storage_kept ready legal) free).2
  · refine later.invariant_on (fun v => p ∈ v.live) hp ?_
    rintro v op _ hop hp ⟨-, rfl⟩
    exact live_kept hp (kept op hop)
  · exact (inv.kept_run ready (p ∈ ·.live) later hp (fun v hp => .inr (.inr ⟨p, hp, lo, hi⟩))
      (fun v op hop _ _ hp => live_kept hp (kept op hop)) free).2
  · exact (inv.kept_run ready (fun _ => True) later trivial (fun _ _ => .inl off)
      (fun _ _ _ _ _ => id) free).2

end Runs

/-- The storage of the first request, while the memory manager is initialised. -/
theorem memory_kept_beeInit : ∃ w w',
    Runs (Step smallBoot) (start smallBoot) [.call 0x1000 0x1100 0 1 [3, 16]] w ∧
      Runs (Step smallBoot) w [.beeInit (coreData (smallBoot.node 1)) 0x1000 0x1100] w' ∧
      w.storage = [⟨3, 0x8048, 16⟩] ∧ ⟨3, 0x8048, 16⟩ ∈ w'.storage ∧
      ∀ x, 0x8048 ≤ x → x < 0x8058 → w'.core.mem x = w.core.mem x := by
  obtain ⟨w, hw⟩ : ∃ w, w = apply smallBoot (start smallBoot) (.call 0x1000 0x1100 0 1 [3, 16]) :=
    ⟨_, rfl⟩
  obtain ⟨w', hw'⟩ : ∃ w', w' = apply smallBoot w
    (.beeInit (coreData (smallBoot.node 1)) 0x1000 0x1100) := ⟨_, rfl⟩
  obtain ⟨storage, bump, memory, memory'⟩ : w.storage = [⟨3, 0x8048, 16⟩] ∧
      w.core.allocF = .alloc ∧ w.core.memory = 0x8058 ∧ w'.core.memory = 0x805C := by
    rw [hw', hw]
    decide +kernel
  have run : Runs (Step smallBoot) (start smallBoot) [.call 0x1000 0x1100 0 1 [3, 16]] w :=
    .snoc .nil ⟨smallBoot_first_request, hw⟩
  have later : Runs (Step smallBoot) w
      [.beeInit (coreData (smallBoot.node 1)) 0x1000 0x1100] w' := by
    refine .snoc .nil ⟨.beeInit (j := 1) (by decide) rfl bump (smallBoot_outside (by decide))
      (smallBoot_outside (by decide)) ?_ ?_, hw'⟩
    · rw [memory]
      decide
    · rintro bumpEnd rfl
      rw [← hw', memory']
      decide
  have kept := (memory_kept smallBoot_ready run later).1 ⟨3, 0x8048, 16⟩
    (storage ▸ List.mem_cons_self)
  refine ⟨w, w', run, later, storage, kept.1, fun x lo hi => kept.2 (by decide) x lo hi ?_⟩
  intro op hop
  obtain rfl := List.mem_singleton.mp hop
  have offStack : x < 0x1000 ∨ 0x1000 + 8 ≤ x := by omega
  have offSlot : x < 0x1100 ∨ 0x1100 + 4 ≤ x := by omega
  exact not_reaches_iff.mpr (List.forall_mem_cons.mpr
    ⟨offStack, List.forall_mem_singleton.mpr offSlot⟩)

end HiveRK.System
