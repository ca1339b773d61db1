import HiveRK.System.WriteOnce

/-!
# What new storage holds

The documentation of `CMD 1` promises storage that is zero. The bump allocator clears what
it hands out; `kmalloc`, which serves the requests behind the switch, does not, and gives
out the bytes that the last owner of the block left.
-/

namespace HiveRK.System

open Machine Queen Memory FirstFit

section Zeroed

variable {boot : Boot} {w : World} {j stack nested size : Nat}

/-- The storage that `CMD 1` provides, if it provides any, is zero when it returns. -/
def Zeroed (boot : Boot) (w : World) (stack nested id size : Nat) : Prop :=
  let w' := apply boot w (.call stack nested 0 1 [id, size])
  ∀ s, w'.storage = s :: w.storage → ∀ x, s.ptr ≤ x → x < s.ptr + s.size → w'.core.mem x = 0

/-- The request is for the bump allocator, or not granted, or the free block that serves it
holds zeros where the storage will be. -/
def RoomIsZero (w : World) (id size : Nat) : Prop :=
  w.core.allocF = .alloc ∨ pointerOf w.storage id ≠ 0 ∨
    ∀ h ∈ firstFit w.core.mem (pointerOf w.storage 7) (bytesToUnits size),
      ∀ i < size, w.core.mem (h.address + 8 + i) = 0

theorem Inv.zeroed_of_served (inv : Inv boot w) (ready : boot.Ready) (hj : j < boot.bees.length)
    (array : boot.Outside stack 8) (full : pointerOf w.storage boot.bees[j].id ≠ 0)
    (small : size ≤ maxSize) : Zeroed boot w stack nested boot.bees[j].id size := by
  have max : maxSize < 2 ^ 32 := by decide
  obtain ⟨m, served, _⟩ := inv.call_served nested ready hj array full
    (Nat.lt_of_le_of_lt small max)
  intro s given
  rw [served] at given
  exact absurd given (List.cons_ne_self s w.storage).symm

theorem Inv.zeroed_of_bump (inv : Inv boot w) (nested : Nat) (ready : boot.Ready)
    (phase : Bumping boot w)
    (hj : j < boot.bees.length) (array : boot.Outside stack 8) (small : size ≤ maxSize)
    (room : w.core.memory + 4 * size ≤ boot.limit) (own : boot.bees[j].id = 7 → 4 ≤ size) :
    Zeroed boot w stack nested boot.bees[j].id size := by
  have max : maxSize < 2 ^ 32 := by decide
  by_cases empty : pointerOf w.storage boot.bees[j].id = 0
  · obtain ⟨m, core, given, cleared, _⟩ := inv.request_bump nested ready phase hj array
      empty (Nat.lt_of_le_of_lt small max) room own
    intro s storage x lo hi
    rw [apply_request, core, given] at storage ⊢
    obtain rfl := (List.cons.inj storage).1
    exact cleared x lo hi
  · exact inv.zeroed_of_served ready hj array empty small

/-- A request is answered with zeros if and only if the room for it is zero. -/
theorem Inv.zeroed_iff (inv : Inv boot w) (ready : boot.Ready) (hj : j < boot.bees.length)
    (array : boot.Outside stack 8) (inner : boot.Outside nested 8) (small : size ≤ maxSize)
    (room : w.core.allocF = .alloc → w.core.memory + 4 * size ≤ boot.limit)
    (own : boot.bees[j].id = 7 → 4 ≤ size) :
    Zeroed boot w stack nested boot.bees[j].id size ↔ RoomIsZero w boot.bees[j].id size := by
  obtain phase | ⟨global, base, bs, heaped, bumped, phase⟩ := inv.phase
  · exact iff_of_true (inv.zeroed_of_bump _ ready phase hj array small (room phase.allocF) own)
      (.inl phase.allocF)
  by_cases empty : pointerOf w.storage boot.bees[j].id = 0
  · have bumped : w.core.allocF ≠ .alloc := by
      rw [phase.allocF]
      exact nofun
    have served : RoomIsZero w boot.bees[j].id size ↔
        ∀ h ∈ firstFit w.core.mem global (bytesToUnits size),
          ∀ i < size, w.core.mem (h.address + 8 + i) = 0 := by
      rw [RoomIsZero, phase.pointerOf_manager]
      simp only [bumped, empty, ne_eq, not_true_eq_false, false_or]
    rw [served]
    obtain ⟨m, core, ⟨given, _, why⟩ | ⟨p, given, ⟨h, fit, place⟩, kept, _⟩⟩ :=
      inv.request_coreAlloc ready phase hj array inner empty small
    · -- Nothing is granted, and no block fits.
      refine iff_of_true (fun s storage => ?_) fun h hit i hi => ?_
      · rw [apply_request, core, given] at storage
        exact absurd storage (List.cons_ne_self s w.storage).symm
      · obtain zero | none := why
        · omega
        · exact nomatch none.symm.trans hit
    · -- The bytes of the storage are those of the block.
      have same (i : Nat) (hi : i < size) : m (p + i) = w.core.mem (h.address + 8 + i) := by
        rw [kept (p + i) (Nat.le_add_right p i) (Nat.add_lt_add_left hi p), place]
      constructor
      · intro zeroed h' hit i hi
        obtain rfl := Option.some.inj (fit.symm.trans hit)
        rw [← same i hi]
        have storage := zeroed ⟨boot.bees[j].id, p, size⟩ (by rw [apply_request, core, given]; rfl)
          (p + i) (Nat.le_add_right p i) (Nat.add_lt_add_left hi p)
        rwa [apply_request, core] at storage
      · intro zero s storage x lo hi
        rw [apply_request, core, given] at storage
        rw [apply_request, core]
        obtain rfl := (List.cons.inj storage).1
        obtain ⟨i, rfl⟩ := Nat.exists_eq_add_of_le lo
        have small : i < size := Nat.add_lt_add_iff_left.mp hi
        exact (same i small).trans (zero h fit i small)
  · exact iff_of_true (inv.zeroed_of_served ready hj array empty small) (.inr (.inl empty))

end Zeroed

/-! ### Runs -/

/-- The storage that an operation provides is zero when the `CMD 1` in it returns. -/
def ProvidesZeros (boot : Boot) (w : World) : Op → Prop
  | .call stack nested 0 1 [id, size] => Zeroed boot w stack nested id size
  | .beeInit _ stack _ => Zeroed boot w stack stack 7 4
  | _ => True

def FindsZeros (w : World) : Op → Prop
  | .call _ _ 0 1 [id, size] => RoomIsZero w id size
  | _ => True

section Runs

variable {boot : Boot} {w : World} {ops : List Op}

theorem Inv.providesZeros_iff (inv : Inv boot w) (ready : boot.Ready) {op : Op}
    (legal : Legal boot w op) : ProvidesZeros boot w op ↔ FindsZeros w op := by
  cases legal with
  | allocate array inner known small room own =>
      obtain ⟨j, hj, rfl⟩ := Boot.known known
      exact inv.zeroed_iff ready hj array inner small room own
  | storage | coreData | bumpEnd | kmalloc | kfree | write => exact Iff.rfl
  | command _ _ _ nonzero =>
      obtain ⟨id, hid⟩ := Nat.exists_eq_succ_of_ne_zero nonzero
      rw [hid]
      exact Iff.rfl
  | @beeInit j stack slot hj manager first array global room above =>
      refine iff_of_true ?_ trivial
      have zeroed := inv.zeroed_of_bump stack ready (inv.bumping first) hj array
        (show 4 ≤ maxSize by decide) room fun _ => Nat.le_refl 4
      rw [manager] at zeroed
      exact zeroed

/-- The storage of all modules is zero when they get it, in a run in which every request
finds zeros, and in no other. -/
theorem storage_zeroed_run_iff (ready : boot.Ready) :
    Runs (fun w op w' => Step boot w op w' ∧ ProvidesZeros boot w op) (start boot) ops w ↔
      Runs (fun w op w' => Step boot w op w' ∧ FindsZeros w op) (start boot) ops w := by
  constructor
  · intro run
    refine (run.imp (Inv boot) (inv_start ready) ?_).1
    rintro w op _ inv ⟨⟨legal, rfl⟩, zeros⟩
    exact ⟨⟨⟨legal, rfl⟩, (inv.providesZeros_iff ready legal).mp zeros⟩, inv.step ready legal⟩
  · intro run
    refine (run.imp (Inv boot) (inv_start ready) ?_).1
    rintro w op _ inv ⟨⟨legal, rfl⟩, zeros⟩
    exact ⟨⟨⟨legal, rfl⟩, (inv.providesZeros_iff ready legal).mpr zeros⟩, inv.step ready legal⟩

/-- Behind the block of another module, the heap is as `bee_init` found it. -/
theorem storage_zeroed_run_iff_behind : ∃ w,
    Runs (fun w op w' => Step smallBoot w op w' ∧ ProvidesZeros smallBoot w op) (start smallBoot)
      [.beeInit (coreData (smallBoot.node 1)) 0x1000 0x1100, .call 0x1000 0x1100 7 1 [16, 0x1200],
        .write 0x8088 0xFF, .call 0x1000 0x1100 0 1 [3, 16]] w := by
  obtain ⟨first, second, third, _⟩ := recycled_steps
  obtain ⟨switch, fit, zeros⟩ : filled.core.allocF ≠ .alloc ∧
      firstFit filled.core.mem (pointerOf filled.storage 7) (bytesToUnits 16) =
        some ⟨0x80C0, 16383, 1, 0⟩ ∧
      ∀ i < 16, filled.core.mem (0x80C0 + 8 + i) = 0 := by decide +kernel
  have last := smallBoot_request switch
  refine ⟨_, (storage_zeroed_run_iff smallBoot_ready).mpr (.snoc (.snoc (.snoc (.snoc .nil
    ⟨first, trivial⟩) ⟨second, trivial⟩) ⟨third, trivial⟩) ⟨⟨last, rfl⟩, .inr (.inr ?_)⟩)⟩
  intro h hit
  obtain rfl := Option.some.inj (fit.symm.trans hit)
  exact zeros

/-! ### A recycled block -/

/-- A module fills a block and frees it. The next module that asks for its storage gets the
block with what is in it. -/
theorem storage_keeps_old_bytes :
    Runs (Step smallBoot) (start smallBoot)
      [.beeInit (coreData (smallBoot.node 1)) 0x1000 0x1100, .call 0x1000 0x1100 7 1 [16, 0x1200],
        .write 0x8088 0xFF, .call 0x1000 0x1100 7 2 [0x8088]] recycled ∧
      Legal smallBoot recycled (.call 0x1000 0x1100 0 1 [3, 16]) ∧
      (apply smallBoot recycled (.call 0x1000 0x1100 0 1 [3, 16])).storage =
        ⟨3, 0x8088, 16⟩ :: recycled.storage ∧
      (apply smallBoot recycled (.call 0x1000 0x1100 0 1 [3, 16])).core.mem 0x8088 = 0xFF ∧
      ¬ Zeroed smallBoot recycled 0x1000 0x1100 3 16 := by
  -- One evaluation of the run gives all three.
  obtain ⟨storage, byte, switch⟩ :
      (apply smallBoot recycled (.call 0x1000 0x1100 0 1 [3, 16])).storage =
          ⟨3, 0x8088, 16⟩ :: recycled.storage ∧
        (apply smallBoot recycled (.call 0x1000 0x1100 0 1 [3, 16])).core.mem 0x8088 = 0xFF ∧
        recycled.core.allocF ≠ .alloc := by decide +kernel
  refine ⟨recycled_runs, smallBoot_request switch, storage, byte, fun zeroed => ?_⟩
  have zero := zeroed ⟨3, 0x8088, 16⟩ storage 0x8088 (by decide) (by decide)
  exact absurd (byte.symm.trans zero) (by decide)

end Runs

end HiveRK.System
