import HiveRK.Queen.Alloc
import HiveRK.System.Invariant

/-!
# One operation

Each operation keeps the invariant. A call first stores its argument array and is then served
by the dispatcher. `CMD 1` is served by the bump allocator or, through a second call of the
dispatcher, by the heap.
-/

namespace HiveRK.System

open Machine Queen Memory FirstFit

section Bases

variable {boot : Boot} {w : World} {j : Nat}

theorem inv_start (ready : boot.Ready) : Inv boot (start boot) := by
  refine ⟨rfl, rfl, fun _ _ => rfl, Nat.le_refl _, ready.room, fun j hj => ?_, by simp [start],
    .inl ⟨ready.bump, rfl, by simp [start], .nil, by simp [start]⟩⟩
  exact (ready.fresh j hj).globals

/-- The fixed half of a node. -/
theorem Inv.agree_head (inv : Inv boot w) (hj : j < boot.bees.length) :
    AgreeOn boot.core.mem w.core.mem (boot.node j) 12 := by
  intro x lo hi
  have size := nodeSize_ge boot.bees[j]
  exact inv.fixed x (.inl ⟨j, hj, lo, by omega, by omega⟩)

theorem Inv.agree_tail (inv : Inv boot w) (hj : j < boot.bees.length) :
    AgreeOn boot.core.mem w.core.mem (boot.node j + 24) (boot.bees[j].nodeSize - 24) := by
  intro x lo hi
  exact inv.fixed x (.inl ⟨j, hj, by omega, by omega, by omega⟩)

theorem Boot.Ready.node_fits (ready : boot.Ready) (hj : j < boot.bees.length) :
    boot.node j + boot.bees[j].nodeSize < 2 ^ 32 := by
  have inside := ready.inside j hj
  have room := ready.room
  have fits := ready.fits
  omega

theorem Inv.serves (inv : Inv boot w) (ready : boot.Ready) (hj : j < boot.bees.length) :
    Serves w.core.mem boot.bees[j] (boot.node j) := by
  have size : boot.bees[j].nodeSize = 28 + 4 * boot.bees[j].tableSize := rfl
  have fits := ready.node_fits hj
  refine (ready.fresh j hj).toServes.agree ((inv.agree_head hj).mono (Nat.le_refl _) (by omega))
    ((inv.agree_tail hj).mono ?_ ?_) (Nat.le_of_lt fits)
  · simp only [funcSlot]
    omega
  · simp only [funcSlot]
    omega

theorem Inv.servesAll (inv : Inv boot w) (ready : boot.Ready) : ServesAll boot.bees w.core := by
  intro j hj
  rw [inv.array]
  exact ⟨inv.serves ready hj, Nat.le_of_lt (ready.node_fits hj)⟩

theorem Inv.lookup (inv : Inv boot w) (ready : boot.Ready) (hj : j < boot.bees.length) :
    lookupID w.core boot.bees[j].id = j + 1 :=
  (inv.servesAll ready).lookupID ready.few ready.distinct hj

theorem Inv.idNodes (inv : Inv boot w) (j : Nat) : w.core.idNodes j = boot.node j := by
  rw [inv.array]
  rfl

theorem Boot.Ready.id_lt (ready : boot.Ready) (hj : j < boot.bees.length) :
    boot.bees[j].id < 2 ^ 32 := by
  rw [← (ready.fresh j hj).id]
  exact load32_lt _ _

/-- The published word is the address of the dispatcher. -/
theorem Inv.getCoreIRT (inv : Inv boot w) (ready : boot.Ready) :
    HiveRK.getCoreIRT w.core.mem = u32 w.core.irt := by
  have same : AgreeOn boot.core.mem w.core.mem CORE_GLOBAL_MEMORY 4 :=
    fun x lo hi => inv.fixed x (.inr ⟨lo, hi⟩)
  rw [inv.irt, ← ready.published]
  exact same.load (by decide) (Nat.le_refl _) (Nat.le_refl _)

/-- An argument array on a stack. -/
theorem Inv.withArgs (inv : Inv boot w) (args : List Nat) (ready : boot.Ready) {stack : Nat}
    (array : boot.Outside stack (4 * args.length)) :
    Inv boot (w.withMem (putArgs w.core.mem stack args)) :=
  inv.loose ready ((putArgs_written args array.1).only fun x lo hi => .inl (.inl (array.2 x lo hi)))

/-- A result stored where the caller asked for it. -/
theorem Inv.putOut (inv : Inv boot w) (ready : boot.Ready) {out : Nat}
    (target : Client boot w out 4)
    (v : Nat) : Inv boot (w.withMem (store32 w.core.mem out v)) := by
  have written : WritesWithin w.core.mem (store32 w.core.mem out v) out 4 :=
    .store target.1 (Nat.le_refl _) (Nat.le_refl _)
  exact inv.loose ready (written.only fun x lo hi => .inl (target.2 x lo hi))

/-- A dispatch to a module whose table word is not 0 stores the arguments in its `CoreData`
and enters that word. -/
theorem Inv.dispatch (inv : Inv boot w) (ready : boot.Ready) (hj : j < boot.bees.length)
    (nonzero : boot.bees[j].id ≠ 0) {CMD stack : Nat} (inTable : CMD < boot.bees[j].tableSize)
    (word : boot.bees[j].entry CMD ≠ 0) (low : stack < 2 ^ 32) (run : Call → Core → Core) :
    ∃ m, (coreInterruptHandler run w.core boot.bees[j].id CMD 0 stack).core =
        run ⟨boot.bees[j].entry CMD, if pointerOf w.storage boot.bees[j].id = 0 then
          [coreData (boot.node j)]
          else [coreData (boot.node j), pointerOf w.storage boot.bees[j].id]⟩
          { w.core with mem := m } ∧
      load32 m (coreData (boot.node j) + 12) = stack ∧
      WritesWithin w.core.mem m (boot.node j + 12) 8 := by
  have fits := ready.node_fits hj
  have size : boot.bees[j].nodeSize = 28 + 4 * boot.bees[j].tableSize := rfl
  have entry := (inv.serves ready hj).table CMD inTable
  have slot := inv.slots j hj
  have called := (inv.servesAll ready).call ready.few ready.distinct hj nonzero run CMD 0 stack
    (by rw [inv.idNodes, entry]; exact word)
  simp only [inv.idNodes] at called
  have written : WritesWithin w.core.mem
      (store32 (store32 w.core.mem (coreData (boot.node j) + 8) 0)
        (coreData (boot.node j) + 12) stack)
      (boot.node j + 12) 8 := by
    refine (WritesWithin.store ?_ ?_ ?_).andStore ?_ ?_ ?_ <;> simp only [coreData] <;> omega
  have ptr : load32 (store32 (store32 w.core.mem (coreData (boot.node j) + 8) 0)
      (coreData (boot.node j) + 12) stack) (coreData (boot.node j) + 12) = stack := by
    refine load_store_self _ ?_ low
    simp only [coreData]
    omega
  generalize store32 (store32 w.core.mem (coreData (boot.node j) + 8) 0)
    (coreData (boot.node j) + 12) stack = m at called written ptr
  have entry' : func m (boot.node j) CMD = boot.bees[j].entry CMD := by
    refine (written.load ?_ ?_).trans entry <;> simp only [funcSlot] <;> omega
  have slot' : globalValues m (boot.node j) = globalValues w.core.mem (boot.node j) :=
    written.load (by omega) (by omega)
  rw [entry', slot', slot] at called
  exact ⟨m, congrArg Reply.core called, ptr, written⟩

end Bases

/-! ### New storage -/

section Storage

variable {boot : Boot} {w : World} {j global base : Nat} {bs : List Block}
  {heaped bumped : List Storage}

theorem pointerOf_cons_self {id ptr size : Nat} (storage : List Storage) :
    pointerOf (⟨id, ptr, size⟩ :: storage) id = ptr := by
  simp [pointerOf]

theorem pointerOf_cons_ne {id id' ptr size : Nat} (storage : List Storage) (h : id ≠ id') :
    pointerOf (⟨id, ptr, size⟩ :: storage) id' = pointerOf storage id' := by
  simp [pointerOf, h]

theorem Boot.Ready.id_ne (ready : boot.Ready) {i : Nat} (hi : i < boot.bees.length)
    (hj : j < boot.bees.length) (hij : i ≠ j) : boot.bees[i].id ≠ boot.bees[j].id := by
  obtain lt | gt := Nat.lt_or_gt_of_ne hij
  · exact List.pairwise_iff_getElem.mp ready.distinct i j hi hj lt
  · exact (List.pairwise_iff_getElem.mp ready.distinct j i hj hi gt).symm

/-- A new pointer in one node, and changes behind the nodes, keep what the invariant says of
the nodes. -/
theorem Inv.grant_kept (inv : Inv boot w) (size : Nat) (ready : boot.Ready)
    (hj : j < boot.bees.length) {m : Mem}
    {ptr : Nat}
    (written : WritesOnly (fun x => (boot.node j + 20 ≤ x ∧ x < boot.node j + 20 + 4) ∨
      (boot.core.memory ≤ x ∧ x < boot.limit)) w.core.mem m)
    (stored : globalValues m (boot.node j) = ptr) :
    (∀ x, boot.FixedByte x ∨ Published x → m x = boot.core.mem x) ∧
      ∀ (i : Nat) (h : i < boot.bees.length), globalValues m (boot.node i) =
        pointerOf (⟨boot.bees[j].id, ptr, size⟩ :: w.storage) boot.bees[i].id := by
  have room := ready.room
  have fits := ready.fits
  have insideJ := ready.inside j hj
  have sizeJ := nodeSize_ge boot.bees[j]
  have outside := ready.outside
  constructor
  · intro x hx
    refine (written x ?_).trans (inv.fixed x hx)
    obtain ⟨i, hi, lo, hi', free⟩ | published := hx
    · have insideI := ready.inside i hi
      by_cases hij : i = j
      · subst hij
        omega
      · have apart := ready.nodes_apart hi hj hij
        omega
    · simp only [Published] at published
      omega
  · intro i hi
    by_cases hij : i = j
    · subst hij
      rw [stored, pointerOf_cons_self]
    · have insideI := ready.inside i hi
      have sizeI := nodeSize_ge boot.bees[i]
      have apart := ready.nodes_apart hi hj hij
      rw [pointerOf_cons_ne _ (ready.id_ne hj hi (Ne.symm hij)), ← inv.slots i hi]
      exact (written.agreeOn fun x lo hi => by omega).load (by omega) (Nat.le_refl _)
        (Nat.le_refl _)

/-- The bump allocator serves a request. -/
theorem Inv.bump (inv : Inv boot w) (ready : boot.Ready) (phase : Bumping boot w)
    (hj : j < boot.bees.length) {size : Nat} (room : w.core.memory + 4 * size ≤ boot.limit)
    (own : boot.bees[j].id = 7 → 4 ≤ size) :
    ∃ m, alloc w.core size (boot.node j + 20) =
        { w.core with mem := m, memory := w.core.memory + size } ∧
      globalValues m (boot.node j) = w.core.memory ∧ w.core.memory ≠ 0 ∧
      (∀ x, w.core.memory ≤ x → x < w.core.memory + size → m x = 0) ∧
      Inv boot ⟨{ w.core with mem := m, memory := w.core.memory + size }, w.live,
        ⟨boot.bees[j].id, w.core.memory, size⟩ :: w.storage⟩ ∧
      Bumping boot ⟨{ w.core with mem := m, memory := w.core.memory + size }, w.live,
        ⟨boot.bees[j].id, w.core.memory, size⟩ :: w.storage⟩ := by
  have fits := ready.fits
  have inside := ready.inside j hj
  have nodeSize := nodeSize_ge boot.bees[j]
  have low := inv.low
  have high := inv.high
  have below : boot.node j + 20 + 4 ≤ w.core.memory := by omega
  obtain ⟨m, served, stored, cleared, written⟩ := alloc_spec below
    (show w.core.memory + 4 * size < 2 ^ 32 by omega)
  have bumping : Bumping boot ⟨{ w.core with mem := m, memory := w.core.memory + size }, w.live,
      ⟨boot.bees[j].id, w.core.memory, size⟩ :: w.storage⟩ := by
    refine ⟨phase.allocF, phase.live, ?_, ?_, ?_⟩
    · refine List.forall_mem_cons.mpr ⟨⟨low, Nat.le_refl _⟩, fun s hs => ?_⟩
      have within := phase.within s hs
      exact ⟨within.1, Nat.le_trans within.2 (Nat.le_add_right _ _)⟩
    · refine List.pairwise_cons.mpr ⟨fun s hs => .inr ?_, phase.apart⟩
      exact (phase.within s hs).2
    · exact List.forall_mem_cons.mpr ⟨own, phase.own⟩
  have nonzero : w.core.memory ≠ 0 := by omega
  obtain ⟨fixed, slots⟩ := inv.grant_kept size ready hj
    (written.mono fun x hx => by omega) stored
  refine ⟨m, served, stored, nonzero, fun x lo hi => cleared x lo (by omega), ?_, bumping⟩
  refine ⟨inv.array, inv.irt, fixed, ?_, ?_, slots, ?_, .inl bumping⟩
  · exact Nat.le_trans low (Nat.le_add_right _ _)
  · show w.core.memory + size ≤ boot.limit
    omega
  · exact List.forall_mem_cons.mpr ⟨nonzero, inv.nonnull⟩

/-- What the heap writes reaches neither the nodes nor the published word. -/
theorem Heaped.nodes_kept (phase : Heaped boot w global base bs heaped bumped) (inv : Inv boot w)
    (ready : boot.Ready) {m : Mem} (within : WritesWithin w.core.mem m base (64 * heapTotalUnits))
    (x : Nat) (hx : boot.NodeByte x) : m x = w.core.mem x := by
  have above := phase.above
  have below := phase.below
  have low := inv.low
  have room := ready.room
  have outside := ready.outside
  apply within x
  obtain ⟨i, hi, lo, hi', _⟩ | published | ⟨i, hi, lo, hi'⟩ := hx
  · have inside := ready.inside i hi
    omega
  · have first : boot.nodes ≤ boot.core.memory := by
      obtain ⟨j, hj, _⟩ := ready.manager
      have inside := ready.inside j hj
      omega
    simp only [Published] at published
    omega
  · have inside := ready.inside i hi
    have size := nodeSize_ge boot.bees[i]
    omega

theorem Heaped.base_ne (phase : Heaped boot w global base bs heaped bumped) (inv : Inv boot w)
    (ready : boot.Ready) : base ≠ 0 := by
  obtain ⟨j, hj, _⟩ := ready.manager
  have inside := ready.inside j hj
  have size := nodeSize_ge boot.bees[j]
  have low := inv.low
  have above := phase.above
  omega

/-- `kmalloc` changes nothing and outputs 0, or hands out a new live allocation. -/
theorem Heaped.kmalloc (phase : Heaped boot w global base bs heaped bumped) (inv : Inv boot w)
    (ready : boot.Ready) {size : Nat} (hsize : size ≤ maxSize) :
    ∃ r, Memory.kmalloc passFuel w.core.mem global size = .ok r ∧
      WritesWithin w.core.mem r.1 base (64 * heapTotalUnits) ∧
      (r = (w.core.mem, 0) ∧ (size = 0 ∨ allocate (bytesToUnits size) bs = none) ∨
        r.2 ≠ 0 ∧ base ≤ r.2 ∧ r.2 < 2 ^ 32 ∧ AgreeOn w.core.mem r.1 r.2 size ∧
          (∃ off bs', allocate (bytesToUnits size) bs = some (off, bs') ∧
            r.2 = base + 64 * off + 8) ∧
          ∃ bs', Heaped boot ⟨{ w.core with mem := r.1 }, ⟨r.2, size⟩ :: w.live, w.storage⟩
              global base bs' heaped bumped ∧
            Inv boot ⟨{ w.core with mem := r.1 }, ⟨r.2, size⟩ :: w.live, w.storage⟩) := by
  obtain ⟨t, bs', taken, heap', _, _⟩ := kmalloc_step phase.heap phase.placed hsize
  have fits := phase.placed.fits
  rcases kmalloc_cases phase.heap.heap phase.placed hsize (Nat.lt_succ_self heapTotalUnits) with
    ⟨call, why⟩ | ⟨m, off, _, _, _, _, call, _, _, found, _⟩
  · refine ⟨_, call, WritesWithin.refl _ _ _, .inl ⟨rfl, ?_⟩⟩
    exact why.imp_right fun why => why.resolve_left (phase.base_ne inv ready)
  · have within := kmalloc_within phase.heap phase.placed hsize call
    have payload := kmalloc_payload phase.heap phase.placed hsize call (Nat.succ_ne_zero _)
    simp only [Memory.apply, passFuel, call, Except.map, Nat.succ_ne_zero, if_false] at taken
    obtain rfl := Except.ok.inj taken
    have inside := heap'.inside (p := ⟨base + 64 * off + 8, size⟩) List.mem_cons_self
    simp only at inside
    have phase' : Heaped boot ⟨{ w.core with mem := m }, ⟨base + 64 * off + 8, size⟩ :: w.live,
        w.storage⟩ global base bs' heaped bumped :=
      ⟨phase.allocF, phase.storage, phase.within, phase.apart, phase.manager, phase.others,
        phase.above, phase.below, phase.placed, heap'⟩
    obtain ⟨fixed, slots⟩ := inv.nodes_kept ready (phase.nodes_kept inv ready within)
    refine ⟨_, call, within, .inr ⟨Nat.succ_ne_zero _, by simp only; omega, by simp only; omega,
      payload, ⟨off, _, found, rfl⟩, bs', phase', ?_⟩⟩
    exact ⟨inv.array, inv.irt, fixed, inv.low, inv.high, slots, inv.nonnull,
      .inr ⟨_, _, _, _, _, phase'⟩⟩

/-- A live allocation becomes the storage of a module that has none. -/
theorem Heaped.adopt {p : Allocation} {live : List Allocation}
    (phase : Heaped boot ⟨w.core, p :: live, w.storage⟩ global base bs heaped bumped)
    (inv : Inv boot ⟨w.core, p :: live, w.storage⟩) (ready : boot.Ready)
    (hj : j < boot.bees.length) (other : boot.bees[j].id ≠ 7) (nonzero : p.ptr ≠ 0)
    (low : p.ptr < 2 ^ 32) :
    ∃ m, store32 w.core.mem (boot.node j + 20) p.ptr = m ∧
      globalValues m (boot.node j) = p.ptr ∧
      Heaped boot ⟨{ w.core with mem := m }, live, ⟨boot.bees[j].id, p.ptr, p.size⟩ :: w.storage⟩
        global base bs (⟨boot.bees[j].id, p.ptr, p.size⟩ :: heaped) bumped ∧
      Inv boot ⟨{ w.core with mem := m }, live, ⟨boot.bees[j].id, p.ptr, p.size⟩ :: w.storage⟩ := by
  have fits := ready.fits
  have room := ready.room
  have inside := ready.inside j hj
  have nodeSize := nodeSize_ge boot.bees[j]
  have above := phase.above
  have memory : boot.core.memory ≤ w.core.memory := inv.low
  simp only at above
  have written : WritesWithin w.core.mem (store32 w.core.mem (boot.node j + 20) p.ptr)
      (boot.node j + 20) 4 := .store (by omega) (Nat.le_refl _) (Nat.le_refl _)
  have stored : globalValues (store32 w.core.mem (boot.node j + 20) p.ptr) (boot.node j) = p.ptr :=
    load_store_self _ (by omega) low
  generalize store32 w.core.mem (boot.node j + 20) p.ptr = m at written stored
  obtain ⟨fixed, slots⟩ := inv.grant_kept p.size ready hj
    (written.only fun x lo hi => .inl ⟨lo, hi⟩) stored
  obtain ⟨managerSize, hsize, manager, found⟩ := phase.manager
  have managerIn := (phase.within _ manager).1
  simp only at managerIn
  have heap' : Memory.Inv global base bs ⟨m, p :: live ++ heaped.map Storage.block⟩ := by
    refine phase.heap.agree phase.placed (written.agreeOn (by omega)) fun pre b post _ => ?_
    exact written.agreeOn (by omega)
  have phase' : Heaped boot ⟨{ w.core with mem := m }, live,
      ⟨boot.bees[j].id, p.ptr, p.size⟩ :: w.storage⟩ global base bs
      (⟨boot.bees[j].id, p.ptr, p.size⟩ :: heaped) bumped := by
    refine ⟨phase.allocF, congrArg (_ :: ·) phase.storage, phase.within, phase.apart,
      ⟨managerSize, hsize, manager, ?_⟩, ?_, phase.above, phase.below, phase.placed, ?_⟩
    · exact (List.find?_cons_of_neg (by simpa using other)).trans found
    · exact List.forall_mem_cons.mpr ⟨other, phase.others⟩
    · exact heap'.perm List.perm_middle.symm
  refine ⟨m, rfl, stored, phase', inv.array, inv.irt, fixed, inv.low, inv.high, slots, ?_,
    .inr ⟨_, _, _, _, _, phase'⟩⟩
  exact List.forall_mem_cons.mpr ⟨nonzero, inv.nonnull⟩

end Storage

end HiveRK.System
