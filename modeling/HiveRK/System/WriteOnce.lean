import HiveRK.System.Boot
import HiveRK.System.Switch

/-!
# Storage is written once

Every legal operation keeps the invariant, so it holds after every run. From it follow that
no module ever gets other storage than the first, and that all storage and all live
allocations are apart.
-/

namespace HiveRK.System

open Machine Queen Memory FirstFit

section Step

variable {boot : Boot} {w : World} {op : Op}

theorem Boot.known {boot : Boot} {id : Nat} (known : ∃ b ∈ boot.bees, b.id = id) :
    ∃ (j : Nat) (h : j < boot.bees.length), boot.bees[j].id = id := by
  obtain ⟨b, hb, id⟩ := known
  obtain ⟨j, hj, rfl⟩ := List.getElem_of_mem hb
  exact ⟨j, hj, id⟩

/-- Behind the switch the heap is there. -/
theorem Inv.switched (inv : Inv boot w) (h : w.core.allocF ≠ .alloc) :
    ∃ global base bs heaped bumped, Heaped boot w global base bs heaped bumped := by
  obtain phase | phase := inv.phase
  · exact absurd phase.allocF h
  · exact phase

theorem Inv.bumping (inv : Inv boot w) (h : w.core.allocF = .alloc) : Bumping boot w := by
  obtain phase | ⟨_, _, _, _, _, phase⟩ := inv.phase
  · exact phase
  · exact nomatch phase.allocF.symm.trans h

theorem Inv.call_allocate (inv : Inv boot w) (ready : boot.Ready) {j stack nested size : Nat}
    (hj : j < boot.bees.length) (array : boot.Outside stack 8) (inner : boot.Outside nested 8)
    (small : size ≤ maxSize) (room : w.core.allocF = .alloc → w.core.memory + 4 * size ≤ boot.limit)
    (own : boot.bees[j].id = 7 → 4 ≤ size) :
    Inv boot (apply boot w (.call stack nested 0 1 [boot.bees[j].id, size])) := by
  by_cases empty : pointerOf w.storage boot.bees[j].id = 0
  · rw [apply_request]
    obtain phase | ⟨_, _, _, _, _, phase⟩ := inv.phase
    · have max : maxSize < 2 ^ 32 := by decide
      obtain ⟨m, core, given, _, inv', _⟩ := inv.request_bump nested ready phase hj array
        empty (Nat.lt_of_le_of_lt small max) (room phase.allocF) own
      rw [core, given]
      exact inv'
    · obtain ⟨m, core, ⟨given, inv', _⟩ | ⟨p, given, _, _, inv'⟩⟩ :=
        inv.request_coreAlloc ready phase hj array inner empty small
      · rw [core, given]
        exact inv'
      · rw [core, given]
        exact inv'
  · have max : maxSize < 2 ^ 32 := by decide
    obtain ⟨m, served, inv'⟩ := inv.call_served nested ready hj array empty
      (Nat.lt_of_le_of_lt small max)
    rw [served]
    exact inv'

/-- One operation. -/
theorem Inv.step (inv : Inv boot w) (ready : boot.Ready) (legal : Legal boot w op) :
    Inv boot (apply boot w op) := by
  cases legal with
  | allocate array inner known small room own =>
      obtain ⟨j, hj, rfl⟩ := Boot.known known
      exact inv.call_allocate ready hj array inner small room own
  | storage array known target =>
      obtain ⟨j, hj, rfl⟩ := Boot.known known
      obtain ⟨m, served, _, inv'⟩ := inv.call_storage _ ready hj array target
      rw [served]
      exact inv'
  | coreData array known target =>
      obtain ⟨j, hj, rfl⟩ := Boot.known known
      obtain ⟨m, served, inv'⟩ := inv.call_coreData ready hj array target
      rw [served]
      exact inv'
  | bumpEnd array target =>
      obtain ⟨m, served, _, inv', _⟩ := inv.call_bumpEnd _ ready array target
      rw [served]
      exact inv'
  | kmalloc array switched small target =>
      obtain ⟨_, _, _, _, _, phase⟩ := inv.switched switched
      obtain ⟨m, p, served, inv'⟩ := inv.call_kmalloc ready phase array small target
      rw [served]
      exact inv'
  | kfree array switched owned =>
      obtain ⟨_, _, _, _, _, phase⟩ := inv.switched switched
      obtain ⟨m, served, inv'⟩ := inv.call_kfree ready phase array owned
      rw [served]
      exact inv'
  | command array low known nonzero other table own =>
      obtain ⟨j, hj, rfl⟩ := List.getElem_of_mem known
      obtain ⟨m, served, inv'⟩ := inv.call_command ready hj array low nonzero other table own
      rw [served]
      exact inv'
  | write target =>
      refine inv.loose ready fun x hx => Function.update_of_ne (fun same => hx ?_) _ _
      exact .inl (target.2 x (Nat.le_of_eq same.symm) (Nat.lt_succ_of_le (Nat.le_of_eq same)))
  | beeInit hj manager first array global room above =>
      exact inv.call_beeInit ready (inv.bumping first) hj manager array global room above

/-- The invariant holds after every run. -/
theorem inv_of_runs (ready : boot.Ready) {ops : List Op}
    (run : Runs (Step boot) (start boot) ops w) : Inv boot w := by
  refine run.invariant (Inv boot) (inv_start ready) ?_
  rintro w op w' inv ⟨legal, rfl⟩
  exact inv.step ready legal

end Step

/-! ### Growth -/

section Growth

variable {boot : Boot} {w w' : World} {op : Op} {ops : List Op}

/-- New storage goes to a module that has none. -/
theorem Inv.granted_cases (inv : Inv boot w) (ready : boot.Ready) {j : Nat}
    (hj : j < boot.bees.length) (c' : Core) (size : Nat) :
    granted w.core c' boot.bees[j].id size = [] ∨
      ∃ s, granted w.core c' boot.bees[j].id size = [s] ∧ pointerOf w.storage s.id = 0 := by
  rw [inv.granted_eq ready hj]
  split_ifs with given
  · exact .inr ⟨_, rfl, given.1⟩
  · exact .inl rfl

/-- An operation adds storage for at most one module, which had none. -/
theorem Inv.storage_step (inv : Inv boot w) (ready : boot.Ready) (legal : Legal boot w op) :
    (apply boot w op).storage = w.storage ∨
      ∃ s, (apply boot w op).storage = s :: w.storage ∧ pointerOf w.storage s.id = 0 := by
  have given {j : Nat} (hj : j < boot.bees.length) (c' : Core) (size : Nat) :
      granted w.core c' boot.bees[j].id size ++ w.storage = w.storage ∨
        ∃ s, granted w.core c' boot.bees[j].id size ++ w.storage = s :: w.storage ∧
          pointerOf w.storage s.id = 0 := by
    obtain none | ⟨s, some, empty⟩ := inv.granted_cases ready hj c' size
    · exact .inl (by rw [none, List.nil_append])
    · exact .inr ⟨s, by rw [some, List.singleton_append], empty⟩
  cases legal with
  | allocate array inner known small room own =>
      obtain ⟨j, hj, rfl⟩ := Boot.known known
      exact given hj _ _
  | storage | coreData | bumpEnd | kmalloc | kfree | write => exact .inl rfl
  | command array low known nonzero other table own =>
      refine .inl ?_
      simp only [apply]
      split
      · exact absurd (by assumption) nonzero
      · rfl
      · rfl
      · rfl
  | @beeInit j stack slot hj manager first array global room above =>
      have own := given hj (beeInit boot.code w.core (coreData (boot.node j)) stack slot) 4
      rw [manager] at own
      exact own

/-- What `pointerOf` finds once, it finds after every further operation. -/
theorem Inv.pointerOf_step (inv : Inv boot w) (ready : boot.Ready) (legal : Legal boot w op)
    {id : Nat}
    (h : pointerOf w.storage id ≠ 0) :
    pointerOf (apply boot w op).storage id = pointerOf w.storage id := by
  obtain same | ⟨s, more, empty⟩ := inv.storage_step ready legal
  · rw [same]
  · rw [more]
    exact pointerOf_cons_ne _ fun same => h (same ▸ empty)

theorem Inv.pointerOf_runs (inv : Inv boot w) (ready : boot.Ready) {id : Nat}
    (h : pointerOf w.storage id ≠ 0) (run : Runs (Step boot) w ops w') :
    Inv boot w' ∧ pointerOf w'.storage id = pointerOf w.storage id := by
  refine run.invariant (fun v => Inv boot v ∧ pointerOf v.storage id = pointerOf w.storage id)
    ⟨inv, rfl⟩ ?_
  rintro v op _ ⟨inv', same⟩ ⟨legal, rfl⟩
  exact ⟨inv'.step ready legal, (inv'.pointerOf_step ready legal (same ▸ h)).trans same⟩

/-- Each module has storage once. -/
theorem storage_nodup (ready : boot.Ready) (run : Runs (Step boot) (start boot) ops w) :
    (w.storage.map Storage.id).Nodup := by
  refine (run.invariant (fun v => Inv boot v ∧ (v.storage.map Storage.id).Nodup)
    ⟨inv_start ready, List.nodup_nil⟩ ?_).2
  rintro v op _ ⟨inv, nodup⟩ ⟨legal, rfl⟩
  refine ⟨inv.step ready legal, ?_⟩
  obtain same | ⟨s, more, empty⟩ := inv.storage_step ready legal
  · rwa [same]
  · rw [more, List.map_cons]
    refine List.nodup_cons.mpr ⟨fun known => ?_, nodup⟩
    obtain ⟨t, ht, same⟩ := List.mem_map.mp known
    -- A module without a pointer has no storage.
    rw [pointerOf] at empty
    cases found : v.storage.find? (fun t => t.id = s.id) with
    | none => exact List.find?_eq_none.mp found t ht (decide_eq_true same)
    | some t' =>
        rw [found] at empty
        exact inv.nonnull t' (List.mem_of_find?_eq_some found) empty

/-- All storage and all live allocations are apart. -/
theorem Inv.apart (inv : Inv boot w) :
    (w.storage.map Storage.block ++ w.live).Pairwise
      fun p q => p.ptr + p.size ≤ q.ptr ∨ q.ptr + q.size ≤ p.ptr := by
  obtain phase | ⟨global, base, bs, heaped, bumped, phase⟩ := inv.phase
  · rw [phase.live, List.append_nil]
    exact List.pairwise_map.mpr phase.apart
  · -- The heap lies above what was bumped.
    have heap := phase.heap.isolated.disjoint
    have bump : (bumped.map Storage.block).Pairwise
        fun p q => p.ptr + p.size ≤ q.ptr ∨ q.ptr + q.size ≤ p.ptr :=
      List.pairwise_map.mpr phase.apart
    have all := List.pairwise_append.mpr ⟨bump, heap, fun p hp q hq => .inl ?_⟩
    · refine all.perm ?_ fun h => h.symm
      rw [phase.storage, List.map_append, List.append_assoc, ← List.append_assoc]
      exact List.perm_append_comm
    · obtain ⟨s, hs, rfl⟩ := List.mem_map.mp hp
      have low := phase.within s hs
      have above := phase.above
      have high := phase.heap.inside hq
      simp only [Storage.block]
      omega

end Growth

section Claim

variable {boot : Boot} {w : World} {ops : List Op}

/-- What `CMD 2` stores where the caller asked for it. -/
def storageOf (boot : Boot) (w : World) (stack nested id out : Nat) : Nat :=
  load32 (apply boot w (.call stack nested 0 2 [id, out])).core.mem out

theorem Legal.of_storage {stack nested id out : Nat}
    (legal : Legal boot w (.call stack nested 0 2 [id, out])) :
    boot.Outside stack 8 ∧ (∃ b ∈ boot.bees, b.id = id) ∧ Client boot w out 4 := by
  generalize h : Op.call stack nested 0 2 [id, out] = op at legal
  cases legal with
  | storage array known target =>
      obtain ⟨rfl, _, _, _, h⟩ := Op.call.inj h
      simp only [List.cons.injEq] at h
      obtain ⟨rfl, rfl, _⟩ := h
      exact ⟨array, known, target⟩
  | command _ _ _ nonzero => exact absurd (Op.call.inj h).2.2.1.symm nonzero
  | _ => simp at h

theorem Inv.storageOf_eq (inv : Inv boot w) (ready : boot.Ready) {stack nested id out : Nat}
    (legal : Legal boot w (.call stack nested 0 2 [id, out])) :
    storageOf boot w stack nested id out = pointerOf w.storage id := by
  obtain ⟨array, known, target⟩ := legal.of_storage
  obtain ⟨j, hj, rfl⟩ := Boot.known known
  obtain ⟨m, served, read, _⟩ := inv.call_storage nested ready hj array target
  rw [storageOf, served]
  exact read

/-- After every run the storage of the modules and the live allocations are apart, each
module has at most one, and the pointer that `CMD 2` returns for it stays the same in every
continuation. -/
theorem storage_written_once (ready : boot.Ready) (run : Runs (Step boot) (start boot) ops w) :
    (w.storage.map Storage.id).Nodup ∧
      (w.storage.map Storage.block ++ w.live).Pairwise
        (fun p q => p.ptr + p.size ≤ q.ptr ∨ q.ptr + q.size ≤ p.ptr) ∧
      ∀ {stack nested id out : Nat}, Legal boot w (.call stack nested 0 2 [id, out]) →
        storageOf boot w stack nested id out ≠ 0 →
          (∃ s ∈ w.storage, s.id = id ∧ s.ptr = storageOf boot w stack nested id out) ∧
          ∀ {more : List Op} {t : World}, Runs (Step boot) w more t →
            ∀ {stack' nested' out' : Nat}, Legal boot t (.call stack' nested' 0 2 [id, out']) →
              storageOf boot t stack' nested' id out' = storageOf boot w stack nested id out := by
  have inv := inv_of_runs ready run
  refine ⟨storage_nodup ready run, inv.apart, ?_⟩
  intro stack nested id out legal nonzero
  have pointer := inv.storageOf_eq ready legal
  rw [pointer] at nonzero ⊢
  refine ⟨?_, fun {more t} later {stack' nested' out'} legal' => ?_⟩
  · obtain ⟨size, _, mem⟩ := find_of_pointerOf rfl nonzero
    exact ⟨_, mem, rfl, rfl⟩
  · obtain ⟨inv', same⟩ := inv.pointerOf_runs ready nonzero later
    rw [inv'.storageOf_eq ready legal', same]

end Claim

/-! ### A recycled block -/

/-- Behind the switch `CMD 1` needs no bump memory. -/
theorem smallBoot_request {w : World} (switched : w.core.allocF ≠ .alloc) :
    Legal smallBoot w (.call 0x1000 0x1100 0 1 [3, 16]) :=
  .allocate (smallBoot_outside (by decide)) (smallBoot_outside (by decide))
    ⟨beeThree, List.mem_cons_self, rfl⟩ (by decide) (fun bump => absurd bump switched) (by decide)

/-- A word on a stack can receive what `kmalloc` returns. -/
theorem smallBoot_kmalloc {w : World} (switched : w.core.allocF ≠ .alloc) {size : Nat}
    (small : size ≤ maxSize) : Legal smallBoot w (.call 0x1000 0x1100 7 1 [size, 0x1200]) :=
  .kmalloc (smallBoot_outside (by decide)) switched small ((smallBoot_outside (by decide)).client w)

def switched : World :=
  apply smallBoot (start smallBoot) (.beeInit (coreData (smallBoot.node 1)) 0x1000 0x1100)

def allocated : World := apply smallBoot switched (.call 0x1000 0x1100 7 1 [16, 0x1200])

def filled : World := apply smallBoot allocated (.write 0x8088 0xFF)

def recycled : World := apply smallBoot filled (.call 0x1000 0x1100 7 2 [0x8088])

theorem recycled_steps :
    Step smallBoot (start smallBoot) (.beeInit (coreData (smallBoot.node 1)) 0x1000 0x1100)
      switched ∧
    Step smallBoot switched (.call 0x1000 0x1100 7 1 [16, 0x1200]) allocated ∧
    Step smallBoot allocated (.write 0x8088 0xFF) filled ∧
    Step smallBoot filled (.call 0x1000 0x1100 7 2 [0x8088]) recycled := by
  obtain ⟨memory, heap⟩ : switched.core.memory = 0x804C ∧
      switched.core.allocF = .custom 0x4900 := by decide +kernel
  have live : allocated.live = [⟨0x8088, 16⟩] := by decide +kernel
  have first : Step smallBoot (start smallBoot)
      (.beeInit (coreData (smallBoot.node 1)) 0x1000 0x1100) switched := by
    refine ⟨.beeInit (j := 1) (by decide) rfl smallBoot_ready.bump (smallBoot_outside (by decide))
      (smallBoot_outside (by decide)) ?_ ?_, rfl⟩
    · rw [show (start smallBoot).core.memory = 0x8048 from bootCore_memory]
      decide
    · intro bumpEnd h
      obtain rfl : bumpEnd = 0x804C := h.trans memory
      decide
  have second : Step smallBoot switched (.call 0x1000 0x1100 7 1 [16, 0x1200]) allocated := by
    exact ⟨smallBoot_kmalloc (by rw [heap]; exact nofun) (by decide), rfl⟩
  have third : Step smallBoot allocated (.write 0x8088 0xFF) filled := by
    refine ⟨.write ⟨by decide, fun x lo hi => .inr (.inr ⟨⟨0x8088, 16⟩, ?_, lo, ?_⟩)⟩, rfl⟩
    · rw [live]
      exact List.mem_cons_self
    · exact Nat.lt_trans hi (by decide)
  have fourth : Step smallBoot filled (.call 0x1000 0x1100 7 2 [0x8088]) recycled := by
    obtain ⟨switch, live⟩ : filled.core.allocF = .custom 0x4900 ∧
        filled.live = [⟨0x8088, 16⟩] := by decide +kernel
    refine ⟨.kfree (smallBoot_outside (by decide)) (by rw [switch]; exact nofun)
      (.inr ⟨⟨0x8088, 16⟩, ?_, rfl⟩), rfl⟩
    rw [live]
    exact List.mem_cons_self
  exact ⟨first, second, third, fourth⟩

/-- A block is allocated, filled and freed again. -/
theorem recycled_runs : Runs (Step smallBoot) (start smallBoot)
    [.beeInit (coreData (smallBoot.node 1)) 0x1000 0x1100, .call 0x1000 0x1100 7 1 [16, 0x1200],
      .write 0x8088 0xFF, .call 0x1000 0x1100 7 2 [0x8088]] recycled := by
  obtain ⟨first, second, third, fourth⟩ := recycled_steps
  exact .snoc (.snoc (.snoc (.snoc .nil first) second) third) fourth

def reused : World := apply smallBoot recycled (.call 0x1000 0x1100 0 1 [3, 16])

/-- The block becomes storage of a module, and another one is allocated behind it. -/
theorem storage_written_once_reused : ∃ w,
    Runs (Step smallBoot) (start smallBoot)
      [.beeInit (coreData (smallBoot.node 1)) 0x1000 0x1100, .call 0x1000 0x1100 7 1 [16, 0x1200],
        .write 0x8088 0xFF, .call 0x1000 0x1100 7 2 [0x8088], .call 0x1000 0x1100 0 1 [3, 16],
        .call 0x1000 0x1100 7 1 [100, 0x1200]] w ∧
      w.storage = [⟨3, 0x8088, 16⟩, ⟨7, 0x8048, 4⟩] ∧ w.live = [⟨0x80C8, 100⟩] ∧
      (w.storage.map Storage.id).Nodup ∧
      (w.storage.map Storage.block ++ w.live).Pairwise
        fun p q => p.ptr + p.size ≤ q.ptr ∨ q.ptr + q.size ≤ p.ptr := by
  have switch : recycled.core.allocF ≠ .alloc ∧ reused.core.allocF ≠ .alloc := by decide +kernel
  have granted := smallBoot_request switch.1
  have served := smallBoot_kmalloc switch.2 (show 100 ≤ maxSize by decide)
  have run := (recycled_runs.snoc ⟨granted, rfl⟩).snoc ⟨served, rfl⟩
  have owned : (apply smallBoot reused (.call 0x1000 0x1100 7 1 [100, 0x1200])).storage =
      [⟨3, 0x8088, 16⟩, ⟨7, 0x8048, 4⟩] ∧
      (apply smallBoot reused (.call 0x1000 0x1100 7 1 [100, 0x1200])).live =
        [⟨0x80C8, 100⟩] := by decide +kernel
  obtain ⟨nodup, apart, _⟩ := storage_written_once smallBoot_ready run
  exact ⟨_, run, owned.1, owned.2, nodup, apart⟩

/-! ### Requests that are not legal -/

section Admitted

variable (boot : Boot)

/-- As `Legal`, but the memory manager may be given storage of any size, and its commands may be
called before its `bee_init`. -/
inductive Admitted (w : World) : Op → Prop
  | legal {op : Op} (legal : Legal boot w op) : Admitted w op
  | allocate {stack nested id size : Nat} (array : boot.Outside stack 8)
      (inner : boot.Outside nested 8) (known : ∃ b ∈ boot.bees, b.id = id) (small : size ≤ maxSize)
      (room : w.core.allocF = .alloc → w.core.memory + 4 * size ≤ boot.limit) :
      Admitted w (.call stack nested 0 1 [id, size])
  | kmalloc {stack nested size out : Nat} (array : boot.Outside stack 8) (small : size ≤ maxSize)
      (target : Client boot w out 4) : Admitted w (.call stack nested 7 1 [size, out])
  | kfree {stack nested ptr : Nat} (array : boot.Outside stack 4)
      (owned : ptr = 0 ∨ ∃ p ∈ w.live, p.ptr = ptr) : Admitted w (.call stack nested 7 2 [ptr])

def AdmittedStep (w : World) (op : Op) (w' : World) : Prop :=
  Admitted boot w op ∧ w' = apply boot w op

end Admitted

/-- Module 7 gets storage of no bytes, and module 3 gets its own at the same address. -/
def shared : World :=
  apply smallBoot (apply smallBoot (start smallBoot) (.call 0x1000 0x1100 0 1 [7, 0]))
    (.call 0x1000 0x1100 0 1 [3, 16])

/-- `bee_init` stores the heap pointer there. -/
def pointed : World :=
  apply smallBoot shared (.beeInit (coreData (smallBoot.node 1)) 0x1000 0x1100)

/-- The word receives what `kmalloc` returns, so the heap begins in a payload. -/
def moved : World := apply smallBoot pointed (.call 0x1000 0x1100 7 1 [100, 0x8048])

/-- `CMD 2` stores a header there: `0x8048` units, and a flag. -/
def forged : World :=
  apply smallBoot (apply smallBoot moved (.call 0x1000 0x1100 0 2 [3, 0x8088]))
    (.call 0x1000 0x1100 0 2 [3, 0x808A])

theorem shared_runs : Runs (AdmittedStep smallBoot) (start smallBoot)
    [.call 0x1000 0x1100 0 1 [7, 0], .call 0x1000 0x1100 0 1 [3, 16]] shared := by
  have first : Admitted smallBoot (start smallBoot) (.call 0x1000 0x1100 0 1 [7, 0]) := by
    refine .allocate (smallBoot_outside (by decide)) (smallBoot_outside (by decide))
      ⟨beeSeven, by decide, rfl⟩ (by decide) fun _ => ?_
    rw [show (start smallBoot).core.memory = 0x8048 from bootCore_memory]
    decide
  have second : Admitted smallBoot
      (apply smallBoot (start smallBoot) (.call 0x1000 0x1100 0 1 [7, 0]))
      (.call 0x1000 0x1100 0 1 [3, 16]) := by
    refine .allocate (smallBoot_outside (by decide)) (smallBoot_outside (by decide))
      ⟨beeThree, by decide, rfl⟩ (by decide) fun _ => ?_
    have memory : (apply smallBoot (start smallBoot)
      (.call 0x1000 0x1100 0 1 [7, 0])).core.memory = 0x8048 := by decide +kernel
    rw [memory]
    decide
  exact .snoc (.snoc .nil ⟨first, rfl⟩) ⟨second, rfl⟩

/-- A word inside a live payload. -/
theorem client_live {boot : Boot} {w : World} {p : Allocation} {a : Nat} (hp : p ∈ w.live)
    (fits : a + 4 ≤ 2 ^ 32) (lo : p.ptr ≤ a) (hi : a + 4 ≤ p.ptr + p.size) : Client boot w a 4 :=
  ⟨fits, fun _ lo' hi' => .inr (.inr ⟨p, hp, by omega, by omega⟩)⟩

theorem forged_runs : Runs (AdmittedStep smallBoot) shared
    [.beeInit (coreData (smallBoot.node 1)) 0x1000 0x1100, .call 0x1000 0x1100 7 1 [100, 0x8048],
      .call 0x1000 0x1100 0 2 [3, 0x8088], .call 0x1000 0x1100 0 2 [3, 0x808A]] forged := by
  obtain ⟨memory, bump, memory', storage, live, live'⟩ : shared.core.memory = 0x8058 ∧
      shared.core.allocF = .alloc ∧ pointed.core.memory = 0x8058 ∧
      pointed.storage = [⟨3, 0x8048, 16⟩, ⟨7, 0x8048, 0⟩] ∧ moved.live = [⟨0x8088, 100⟩] ∧
      (apply smallBoot moved (.call 0x1000 0x1100 0 2 [3, 0x8088])).live = [⟨0x8088, 100⟩] := by
    decide +kernel
  have known : ∃ b ∈ smallBoot.bees, b.id = 3 := ⟨beeThree, by decide, rfl⟩
  have first : Legal smallBoot shared
      (.beeInit (coreData (smallBoot.node 1)) 0x1000 0x1100) := by
    refine .beeInit (j := 1) (by decide) rfl bump (smallBoot_outside (by decide))
      (smallBoot_outside (by decide)) ?_ ?_
    · rw [memory]
      decide
    · intro bumpEnd h
      obtain rfl : bumpEnd = 0x8058 := h.trans memory'
      decide
  have second : Admitted smallBoot pointed (.call 0x1000 0x1100 7 1 [100, 0x8048]) := by
    refine .kmalloc (smallBoot_outside (by decide)) (by decide) ⟨by decide, fun x lo hi => ?_⟩
    refine .inr (.inl ⟨⟨3, 0x8048, 16⟩, ?_, nofun, lo, Nat.lt_trans hi (by decide)⟩)
    rw [storage]
    exact List.mem_cons_self
  have third : Legal smallBoot moved (.call 0x1000 0x1100 0 2 [3, 0x8088]) :=
    .storage (smallBoot_outside (by decide)) known
      (client_live (p := ⟨0x8088, 100⟩) (by simp [live]) (by decide) (by decide) (by decide))
  have fourth : Legal smallBoot (apply smallBoot moved (.call 0x1000 0x1100 0 2 [3, 0x8088]))
      (.call 0x1000 0x1100 0 2 [3, 0x808A]) :=
    .storage (smallBoot_outside (by decide)) known
      (client_live (p := ⟨0x8088, 100⟩) (by simp [live']) (by decide) (by decide) (by decide))
  exact .snoc (.snoc (.snoc (.snoc .nil ⟨.legal first, rfl⟩) ⟨second, rfl⟩) ⟨.legal third, rfl⟩)
    ⟨.legal fourth, rfl⟩

/-- Then `kmalloc` hands out a part of a live allocation. -/
theorem storage_overlaps : ∃ ops w, Runs (AdmittedStep smallBoot) (start smallBoot) ops w ∧
    w.live = [⟨0x8090, 56⟩, ⟨0x8088, 100⟩] ∧
    ¬ (w.storage.map Storage.block ++ w.live).Pairwise
      fun p q => p.ptr + p.size ≤ q.ptr ∨ q.ptr + q.size ≤ p.ptr := by
  obtain ⟨switch, live⟩ : forged.core.allocF ≠ .alloc ∧
      (apply smallBoot forged (.call 0x1000 0x1100 7 1 [56, 0x1200])).live =
        [⟨0x8090, 56⟩, ⟨0x8088, 100⟩] := by decide +kernel
  have run := (shared_runs.append forged_runs).snoc
    ⟨.legal (smallBoot_kmalloc switch (show 56 ≤ maxSize by decide)), rfl⟩
  refine ⟨_, _, run, live, fun apart => ?_⟩
  rw [live] at apart
  have both := (List.pairwise_append.mp apart).2.1
  exact absurd both (by decide)

end HiveRK.System
