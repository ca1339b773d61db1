import HiveRK.System.Allocate

/-!
# The switch of the allocators

`bee_init` of the memory manager asks the core for its storage, has the bump end stored
there, builds the heap above it, and installs `core_alloc`. From then on nothing is bumped.
-/

namespace HiveRK.System

open Machine Queen Memory FirstFit

section Switch

variable {boot : Boot} {w : World} {j stack slot global : Nat}

theorem Boot.Outside.client {a n : Nat} (outside : boot.Outside a n) (w : World) :
    Client boot w a n :=
  ⟨outside.1, fun x lo hi => .inl (outside.2 x lo hi)⟩

/-- The storage that a pointer comes from. -/
theorem find_of_pointerOf {storage : List Storage} {id : Nat} (h : pointerOf storage id = global)
    (nonzero : global ≠ 0) : ∃ size, storage.find? (fun s => s.id = id) = some ⟨id, global, size⟩ ∧
      ⟨id, global, size⟩ ∈ storage := by
  rw [pointerOf] at h
  cases found : storage.find? (fun s => s.id = id) with
  | none =>
      rw [found] at h
      exact absurd h.symm nonzero
  | some s =>
      rw [found] at h
      obtain ⟨id', ptr, size⟩ := s
      obtain rfl : ptr = global := h
      obtain rfl : id' = id := of_decide_eq_true (List.find?_some found :)
      exact ⟨size, rfl, List.mem_of_find?_eq_some found⟩

/-- Behind its own `CMD 1` the manager has storage, whether it had it before or not. -/
theorem Inv.own_storage (inv : Inv boot w) (ready : boot.Ready) (phase : Bumping boot w)
    (hj : j < boot.bees.length) (array : boot.Outside stack 8)
    (room : w.core.memory + 16 ≤ boot.limit) :
    ∃ w₁, w₁.core = requestStorage boot w stack stack boot.bees[j].id 4 ∧ w₁.live = w.live ∧
      w₁.storage = (if pointerOf w.storage boot.bees[j].id = 0 then
        [⟨boot.bees[j].id, pointerOf w₁.storage boot.bees[j].id, 4⟩] else []) ++ w.storage ∧
      pointerOf w₁.storage boot.bees[j].id ≠ 0 ∧ Inv boot w₁ ∧ Bumping boot w₁ := by
  by_cases empty : pointerOf w.storage boot.bees[j].id = 0
  · obtain ⟨m, core, _, _, inv₁, phase₁⟩ :=
      inv.request_bump stack ready phase hj array empty (by decide) room
        fun _ => Nat.le_refl 4
    refine ⟨⟨_, w.live, ⟨boot.bees[j].id, w.core.memory, 4⟩ :: w.storage⟩, core.symm, rfl, ?_, ?_,
      inv₁, phase₁⟩
    · rw [if_pos empty, pointerOf_cons_self]
      rfl
    · rw [pointerOf_cons_self]
      exact inv₁.nonnull _ List.mem_cons_self
  · obtain ⟨m, served, inv₁⟩ :=
      inv.call_served stack ready hj array empty (show 4 < 2 ^ 32 by decide)
    refine ⟨w.withMem m, ?_, rfl, ?_, empty, inv₁, phase.withMem m⟩
    · rw [apply_request] at served
      exact (congrArg World.core served).symm
    · rw [if_neg empty]
      rfl

/-- The heap built in the free stretch above the bump end. -/
theorem Inv.initHeap (inv : Inv boot w) (ready : boot.Ready) (phase : Bumping boot w)
    (pointer : pointerOf w.storage 7 = global) (nonzero : global ≠ 0)
    (bumpEnd : heap w.core.mem global = w.core.memory)
    (above : w.core.memory ≤ heapBase w.core.memory)
    (below : heapBase w.core.memory + 64 * heapTotalUnits ≤ boot.limit) :
    Inv boot ⟨{ w.core with
      mem := Memory.initHeap w.core.mem global
      allocF := .custom (boot.code.adr boot.code.coreAlloc) }, w.live, w.storage⟩ := by
  have units : heapTotalUnits = 16384 := by decide
  have fits := ready.fits
  have low := inv.low
  obtain ⟨size, found, manager⟩ := find_of_pointerOf pointer nonzero
  have inside := phase.within _ manager
  have large : 4 ≤ size := phase.own _ manager rfl
  simp only at inside
  have placed : Placed global (heapBase w.core.memory) := ⟨by omega, .inl (by omega), by omega⟩
  obtain ⟨built, written⟩ := heap_initHeap_of bumpEnd placed
  generalize Memory.initHeap w.core.mem global = m at built written
  generalize heapBase w.core.memory = base at *
  have kept : ∀ x, boot.NodeByte x → m x = w.core.mem x := by
    intro x hx
    apply written x
    have outside := ready.outside
    obtain ⟨i, hi, _, _, _⟩ | published | ⟨i, hi, _, _⟩ := hx
    · have node := ready.inside i hi
      omega
    · obtain ⟨i, hi, _⟩ := ready.manager
      have node := ready.inside i hi
      simp only [Published] at published
      omega
    · have node := ready.inside i hi
      have nodeSize := nodeSize_ge boot.bees[i]
      omega
  obtain ⟨fixed, slots⟩ := inv.nodes_kept ready kept
  have heap' :
      Memory.Inv global base [⟨heapTotalUnits, true⟩] ⟨m, w.live ++ [].map Storage.block⟩ := by
    rw [phase.live]
    exact ⟨built, by simp [used_cons_free], by simp, by simp⟩
  refine ⟨inv.array, inv.irt, fixed, inv.low, inv.high, slots, inv.nonnull,
    .inr ⟨global, base, _, [], w.storage, rfl, rfl, phase.within, phase.apart,
      ⟨size, large, manager, found⟩, by simp, above, below, placed, heap'⟩⟩

theorem Boot.Ready.manager_base (ready : boot.Ready) (hj : j < boot.bees.length)
    (manager : boot.bees[j].id = 7) : boot.bees[j].base = boot.code.base := by
  obtain ⟨i, hi, id, base, _⟩ := ready.manager
  by_cases hij : i = j
  · subst hij
    exact base
  · exact absurd (id.trans manager.symm) (ready.id_ne hi hj hij)

/-- The words of its `CoreData` that `bee_init` reads. -/
theorem Inv.core_words (inv : Inv boot w) (ready : boot.Ready) (hj : j < boot.bees.length) :
    load32 w.core.mem (coreData (boot.node j)) = u32 w.core.irt ∧
      load32 w.core.mem (coreData (boot.node j) + 4) = boot.bees[j].base := by
  have fits := ready.node_fits hj
  have size := nodeSize_ge boot.bees[j]
  have head := inv.agree_head hj
  have fresh := ready.fresh j hj
  refine ⟨?_, ?_⟩
  · rw [inv.irt, ← fresh.irt]
    exact head.load (by simp only [coreData]; omega) (by simp only [coreData]; omega)
      (by simp only [coreData]; omega)
  · rw [← fresh.baseAdr]
    exact head.load (by simp only [coreData]; omega) (by simp only [coreData]; omega)
      (by simp only [coreData]; omega)

/-- `bee_init` up to its last call: the manager has storage, and the bump end is in it. -/
theorem Inv.beeInit_calls (inv : Inv boot w) (ready : boot.Ready) (phase : Bumping boot w)
    (hj : j < boot.bees.length) (manager : boot.bees[j].id = 7) (array : boot.Outside stack 8)
    (outside : boot.Outside slot 4) (room : w.core.memory + 16 ≤ boot.limit) :
    ∃ w' global, Inv boot w' ∧ Bumping boot w' ∧ w'.live = w.live ∧
      w'.storage = (if pointerOf w.storage 7 = 0 then [⟨7, global, 4⟩] else []) ++ w.storage ∧
      pointerOf w'.storage 7 = global ∧ global ≠ 0 ∧
      heap w'.core.mem global = w'.core.memory ∧
      ∃ adr, adr = u32 (load32 (Memory.initHeap w'.core.mem global) (coreData (boot.node j) + 4) +
          boot.code.coreAlloc) ∧
        beeInit boot.code w.core (coreData (boot.node j)) stack slot = { w'.core with
          mem := putArgs (Memory.initHeap w'.core.mem global) stack [adr]
          allocF := .custom
            (load32 (putArgs (Memory.initHeap w'.core.mem global) stack [adr]) stack) } := by
  obtain ⟨w₁, core₁, live₁, storage₁, nonzero, inv₁, phase₁⟩ :=
    inv.own_storage ready phase hj array room
  rw [manager] at core₁ storage₁ nonzero
  -- `CMD 2`: the pointer to the storage.
  obtain ⟨m₂, core₂, pointer, inv₂⟩ := inv₁.call_storage stack ready hj array
    (outside.client w₁)
  rw [manager] at core₂ pointer
  generalize hglobal : pointerOf w₁.storage 7 = global at *
  -- `CMD 4`: the bump end.
  obtain ⟨size, found, mem⟩ := find_of_pointerOf hglobal nonzero
  have large := phase₁.own _ mem rfl
  have inside := phase₁.within _ mem
  simp only at inside large
  have room₁ := inv₁.high
  have fits := ready.fits
  have own : Client boot (w₁.withMem m₂) global 4 := by
    refine ⟨by omega, fun x lo hi => .inr (.inl ⟨_, mem, fun _ => phase₁.allocF, lo, ?_⟩)⟩
    simp only
    omega
  have short : boot.Outside stack 4 :=
    ⟨by have := array.1; omega, fun x lo hi => array.2 x lo (by omega)⟩
  obtain ⟨m₃, core₃, bumpEnd, inv₃, _⟩ := inv₂.call_bumpEnd stack ready short own
  have irt₁ : w₁.core.irt = w.core.irt := inv₁.irt.trans inv.irt.symm
  refine ⟨w₁.withMem m₃, global, inv₃, phase₁.withMem m₃, live₁, storage₁, hglobal, nonzero,
    bumpEnd,
    _, rfl, ?_⟩
  -- The run, call by call.
  have second : syscall (enter boot.code stack) w₁.core (u32 w.core.irt) stack 0 2 [7, slot] =
      { w₁.core with mem := m₂ } := by
    rw [← irt₁]
    exact congrArg World.core core₂
  have third : syscall (enter boot.code stack) { w₁.core with mem := m₂ } (u32 w.core.irt) stack 0 4
      [global] = { w₁.core with mem := m₃ } := by
    rw [← irt₁]
    exact congrArg World.core core₃
  have fourth (m : Mem) (a : Nat) : syscall (enter boot.code stack) { w₁.core with mem := m }
      (u32 w.core.irt) stack 0 5 [a] = { w₁.core with
        mem := putArgs m stack [a]
        allocF := .custom (load32 (putArgs m stack [a]) stack) } := by
    rw [← irt₁, syscall_core rfl]
    rfl
  rw [requestStorage] at core₁
  simp only [beeInit, (inv.core_words ready hj).1]
  rw [← core₁, second]
  simp only [pointer, third, fourth, World.withMem]

/-- `bee_init` gives the manager its storage and keeps the invariant. -/
theorem Inv.call_beeInit (inv : Inv boot w) (ready : boot.Ready) (phase : Bumping boot w)
    (hj : j < boot.bees.length) (manager : boot.bees[j].id = 7) (array : boot.Outside stack 8)
    (outside : boot.Outside slot 4) (room : w.core.memory + 16 ≤ boot.limit)
    (above : ∀ bumpEnd,
      bumpEnd = (apply boot w (.beeInit (coreData (boot.node j)) stack slot)).core.memory →
      bumpEnd ≤ heapBase bumpEnd ∧ heapBase bumpEnd + 64 * heapTotalUnits ≤ boot.limit) :
    Inv boot (apply boot w (.beeInit (coreData (boot.node j)) stack slot)) := by
  obtain ⟨w', global, inv', phase', live, storage, pointer, nonzero, bumpEnd, adr, hadr, run⟩ :=
    inv.beeInit_calls ready phase hj manager array outside room
  have short : boot.Outside stack 4 :=
    ⟨by have := array.1; omega, fun x lo hi => array.2 x lo (by omega)⟩
  obtain ⟨low, high⟩ := above w'.core.memory (by simp only [apply, run])
  have inv₄ := inv'.initHeap ready phase' pointer nonzero bumpEnd low high
  -- The address of `core_alloc`.
  have base : load32 (Memory.initHeap w'.core.mem global) (coreData (boot.node j) + 4) =
      boot.bees[j].base := (inv₄.core_words ready hj).2
  rw [base, ready.manager_base hj manager] at hadr
  have read : load32 (putArgs (Memory.initHeap w'.core.mem global) stack [adr]) stack = adr :=
    putArgs_one short.1 (by rw [hadr]; exact u32_lt _)
  have inv₅ := inv₄.withArgs [adr] ready short
  rw [read] at run
  generalize putArgs (Memory.initHeap w'.core.mem global) stack [adr] = m at *
  -- What `bee_init` was granted is the storage that the manager has now.
  have slot : globalValues m (boot.node j) = global := by
    have slots := inv₅.slots j hj
    rw [manager] at slots
    exact slots.trans pointer
  have given := inv.granted_eq ready hj { w'.core with
    mem := m
    allocF := .custom adr } 4
  simp only [manager, slot, nonzero, ne_eq, not_false_eq_true, and_true] at given
  rw [apply, run, given, ← storage, ← live, hadr]
  exact inv₅

end Switch

end HiveRK.System
