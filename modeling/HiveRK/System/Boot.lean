import HiveRK.System.Basic

/-!
# What the loader provides

`setupLookupArray` leaves what a run begins with, when the memory manager is among the
modules and the published word lies outside of the stretch that the nodes, bump memory and
the heap take.
-/

namespace HiveRK.System

open Machine Queen Memory

/-- A run begins behind main's `setupLookupArray`. -/
theorem ready_of_setUp {page0 limit : Nat} {rest : List Nat} {bees : List Bee} {c c₁ : Core}
    {code : Code} (setUp : SetUp page0 rest bees c c₁) (few : bees.length ≤ MAX_BEES)
    (distinct : bees.Pairwise fun b b' => b.id ≠ b'.id) (bump : c.allocF = .alloc)
    (published : getCoreIRT c.mem = u32 c.irt) (behind : CORE_GLOBAL_MEMORY + 4 ≤ c.memory)
    (room : c₁.memory ≤ limit) (fits : limit < 2 ^ 32)
    (manager : ∃ (j : Nat) (h : j < bees.length), bees[j].id = 7 ∧ bees[j].base = code.base ∧
      bees[j].exports = [⟨1, code.kmalloc⟩, ⟨2, code.kfree⟩])
    (entries : code.adr code.kmalloc ≠ 0 ∧ code.adr code.kfree ≠ 0)
    (different : code.adr code.kfree ≠ code.adr code.kmalloc ∧
      code.adr code.kmalloc ≠ code.adr code.coreAlloc ∧
      code.adr code.kfree ≠ code.adr code.coreAlloc) :
    Boot.Ready ⟨bees, c₁, code, c.memory, limit⟩ where
  few := few
  distinct := distinct
  fresh j hj := setUp.irt ▸ setUp.fresh hj
  inside j hj := setUp.inside hj
  apart _ _ hi hij hj := setUp.apart hi hij hj
  room := room
  fits := fits
  bump := setUp.allocF.trans bump
  published := by
    have low : c.memory + nodesSize bees < 2 ^ 32 := by
      rw [← setUp.memory]
      exact Nat.lt_of_le_of_lt room fits
    simp only [getCoreIRT, setUp.irt, ← published]
    exact setUp.written.load (by decide) (.inl behind)
  outside := .inl behind
  manager := manager
  entries := entries
  different := different

/-! ### A small system -/

/-- The memory manager: `kmalloc` and `kfree` behind each other. -/
def beeSeven : Bee where
  name := 0x6D :: List.replicate 31 0
  data := 0x4800
  base := 0x4600
  id := 7
  priority := 1
  format := 0
  init := 0x40
  exports := [⟨1, 0x100⟩, ⟨2, 0x200⟩]

/-- The data page of `beeSeven`. -/
def beeSevenPage : Mem := fun x =>
  ([0x00, 0x46, 0, 0, 7, 0, 0, 0, 1, 0, 2, 0, 0, 0, 0x40, 0x46, 0, 0,
    1, 0, 0, 0, 0x00, 0x47, 0, 0, 2, 0, 0, 0, 0x00, 0x48, 0, 0] : List Byte).getD (x - 0x4800) 0

theorem beeSevenPage_dataPage : DataPage beeSevenPage beeSeven := by
  constructor <;> decide

/-- `beeThree` and `beeSeven` are loaded, and everything up to `0x8000` is taken. -/
def coreThreeSeven : Core :=
  publish { coreThree.extend 0x4000 1 beeSevenPage beeSeven with memory := 0x8000 }

theorem registered_three_seven : Registered 0x4000 [beeThree, beeSeven] coreThreeSeven := by
  have registered : Registered 0x4000 [beeThree, beeSeven]
      (coreThree.extend 0x4000 1 beeSevenPage beeSeven) :=
    registered_three.extend (by decide) beeSevenPage_dataPage rfl (by decide) (by decide)
      (by decide)
  obtain ⟨rest, loaded⟩ := registered.loaded
  refine Registered.publish ?_ (by decide)
  exact .elsewhere registered loaded.names (fun _ _ => .refl _ _ _) (fun _ _ => .refl _ _ _)
    (show 0x4A00 ≤ 0x8000 by decide) (by decide)

/-- Where `beeSeven` was linked. -/
def sevenCode : Code := ⟨0x4600, 0x100, 0x200, 0x300⟩

/-- The core behind `setupLookupArray`. -/
def bootCore : Core :=
  ((setupLookupArray 3 coreThreeSeven 0x4000 0).toOption.map Prod.fst).getD coreThreeSeven

/-- The small system, with two megabytes for bump memory and the heap. -/
def smallBoot : Boot := ⟨[beeThree, beeSeven], bootCore, sevenCode, 0x8000, 0x208000⟩

theorem smallBoot_setUp :
    ∃ rest, SetUp 0x4000 rest [beeThree, beeSeven] coreThreeSeven bootCore := by
  obtain ⟨rest, loaded⟩ := registered_three_seven.loaded
  obtain ⟨c₁, setUp⟩ := loaded.setUp (fun b hb => ⟨by revert b; decide, by revert b; decide⟩)
    (by decide)
  have run := setUp.run 3 (show 2 < 3 by decide)
  have built : bootCore = c₁ :=
    congrArg (fun r => (r.toOption.map Prod.fst).getD coreThreeSeven) run
  exact ⟨rest, built ▸ setUp⟩

theorem bootCore_memory : bootCore.memory = 0x8048 :=
  smallBoot_setUp.elim fun _ setUp => setUp.memory

theorem smallBoot_ready : smallBoot.Ready := by
  obtain ⟨rest, setUp⟩ := smallBoot_setUp
  have published : getCoreIRT coreThreeSeven.mem = u32 coreThreeSeven.irt :=
    load_store_self _ (by decide) (by decide)
  exact ready_of_setUp setUp (by decide) (by decide) rfl published (by decide)
    (by rw [bootCore_memory]; decide) (by decide) ⟨1, by decide, rfl, rfl, rfl⟩ (by decide)
      (by decide)

/-- Low memory is no part of the nodes, bump memory and the heap. -/
theorem smallBoot_outside {a n : Nat} (low : a + n ≤ 0x6000) : smallBoot.Outside a n := by
  have global : CORE_GLOBAL_MEMORY = 0x6000 := rfl
  refine ⟨Nat.le_trans low (by decide), fun x _ hi => ⟨.inl ?_, fun published => ?_⟩⟩
  · show x < 0x8000
    omega
  · have first := published.1
    omega

theorem smallBoot_first_request :
    Legal smallBoot (start smallBoot) (.call 0x1000 0x1100 0 1 [3, 16]) := by
  refine .allocate (smallBoot_outside (by decide)) (smallBoot_outside (by decide))
    ⟨beeThree, List.mem_cons_self, rfl⟩ (by decide) (fun _ => ?_) (by decide)
  rw [show (start smallBoot).core.memory = 0x8048 from bootCore_memory]
  decide

end HiveRK.System
