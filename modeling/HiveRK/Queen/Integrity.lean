import HiveRK.Queen.Dispatch
import HiveRK.Queen.Images
import Mathlib.Data.List.TakeWhile

/-!
# The integrity of the bump region

All that the core carves before a module runs is one history of bump allocation: the load
loop, `setupLookupArray`, and then any calls of `alloc`.
-/

namespace HiveRK.Queen

open Machine Bump

section Results

variable {d : Disk} {page0 : Nat} {steps : List (Step Kind Byte)} {loads : List Load} {c : Core}

/-- `MEMORY` never decreases, all regions are apart, every byte written lies in the region that
is carved for it, and older regions are kept. Excepted are the slots and links that
`addNameToPage` fills, and for `alloc` the word that receives its result and the words that it
clears above `MEMORY`. At most `MAX_BEES` modules are entered in `idNodes`, so no store goes
behind the array. -/
theorem bump_integrity (loading : Loading d page0 steps loads c) (few : loads.length ≤ MAX_BEES)
    (nonneg : ∀ l ∈ loads, l.bee.NonNegative)
    (fits : c.memory + nodesSize (namedPrefix (loads.map Load.bee)) < 2 ^ 32) :
    ∃ c₁ events,
      (∀ fuel, loads.length < fuel → setupLookupArray fuel c page0 0 = .ok (c₁, events)) ∧
      c₁ = setupNodes c 0 (visits events) ∧
      (∀ j, MAX_BEES ≤ j → c₁.idNodes j = c.idNodes j) ∧
      ∀ calls, AllocsFit c₁.memory calls →
        Integrity (steps ++ nodeSteps c 0 (visits events) ++ allocSteps c₁ calls) := by
  obtain ⟨m₀, loaded⟩ := loading.history
  have nonneg' : ∀ b ∈ loads.map Load.bee, b.NonNegative := by
    intro b hb
    obtain ⟨l, hl, rfl⟩ := List.mem_map.mp hb
    exact nonneg l hl
  obtain ⟨c₁, events, run, built, _, array, nodes⟩ := loading.registered.nodes nonneg' fits
  have short := length_namedPrefix_le (loads.map Load.bee)
  rw [List.length_map] at run short
  refine ⟨c₁, events, run, built, fun j hj => array j (by omega), fun calls room => ?_⟩
  exact ((loaded.append nodes).append (allocSteps_history room)).integrity

end Results

/-! ### A disk with two modules -/

/-- Each takes a sector for its data page, and they take three for their images. -/
theorem splitPair_loading : ∃ steps loads c, Loading (diskOf splitPair) 0x4000 steps loads c ∧
    (loads.map Load.bee).map Bee.manifest = splitPair.map Part.manifest ∧ c.memory = 0x4C00 ∧
    loadLoop (diskOf splitPair) 0x4000 3 (prepare emptyCore) 0 = .ok c := by
  have room : demand 0 512 splitPair = 0xA00 := by decide +kernel
  obtain ⟨steps, loads, c, loading, brought, top, loop⟩ := loading_diskOf splitPair_layout
    (by decide +kernel) (by rw [room]; decide)
  exact ⟨steps, loads, c, loading, manifests_of_brings brought, by rw [top, room],
    loop 3 (by decide)⟩

section Pair

variable {bees : List Bee} (manifests : bees.map Bee.manifest = splitPair.map Part.manifest)
include manifests

theorem pair_length : bees.length = 2 := length_of_manifests manifests

theorem pair_named {b : Bee} (hb : b ∈ bees) : b.Named :=
  named_of_manifests manifests (by decide +kernel) hb

theorem pair_nonneg {b : Bee} (hb : b ∈ bees) : b.NonNegative :=
  nonneg_of_manifests manifests (by decide +kernel) hb

theorem pair_namedPrefix : namedPrefix bees = bees :=
  List.takeWhile_eq_self_iff.mpr fun _ hb => decide_eq_true (pair_named manifests hb)

theorem pair_nodesSize : nodesSize bees = 64 := by
  rw [nodesSize_of_manifests manifests]
  decide +kernel

end Pair

theorem bump_integrity_split_pair : ∃ steps loads c c₁ events,
    Loading (diskOf splitPair) 0x4000 steps loads c ∧
    setupLookupArray 3 c 0x4000 0 = .ok (c₁, events) ∧
      Integrity (steps ++ nodeSteps c 0 (visits events) ++
        allocSteps c₁ [(4, 0x9000), (20, 0x9004)]) := by
  obtain ⟨steps, loads, c, loading, manifests, top, _⟩ := splitPair_loading
  have count : loads.length = 2 := List.length_map Load.bee ▸ pair_length manifests
  have size : nodesSize (namedPrefix (loads.map Load.bee)) = 64 := by
    rw [pair_namedPrefix manifests, pair_nodesSize manifests]
  have nonneg : ∀ b ∈ loads.map Load.bee, b.NonNegative := fun _ hb => pair_nonneg manifests hb
  obtain ⟨c₁, events, run, _, _, integrity⟩ := bump_integrity loading (by rw [count]; decide)
    (fun l hl => nonneg l.bee (List.mem_map_of_mem hl)) (by rw [size, top]; decide)
  obtain ⟨c₂, events', run', _, memory, _⟩ :=
    loading.registered.nodes nonneg (by rw [size, top]; decide)
  rw [List.length_map] at run'
  have three : loads.length < 3 := by omega
  obtain ⟨rfl, _⟩ := Prod.mk.inj (Except.ok.inj ((run' 3 three).symm.trans (run 3 three)))
  rw [size, top] at memory
  exact ⟨steps, loads, c, c₂, events, loading, run 3 three,
    integrity _ ⟨by rw [memory]; decide, by decide, by rw [memory]; decide, by decide, trivial⟩⟩

/-- `CMD 1` lets `alloc` store its result in the node of the module, which is older than what
`alloc` carves. -/
theorem alloc_writes_node : ∃ steps loads c c₁ events,
    Loading (diskOf splitPair) 0x4000 steps loads c ∧
    setupLookupArray 3 c 0x4000 0 = .ok (c₁, events) ∧
    AllocsFit c₁.memory [(4, c₁.idNodes 0 + 20)] ∧
    ¬ Integrity (steps ++ nodeSteps c 0 (visits events) ++
      [step c₁ (alloc c₁ 4 (c₁.idNodes 0 + 20)) (some ⟨.storage, c₁.memory, 4⟩) nowhere 12]) := by
  obtain ⟨steps, loads, c, loading, manifests, top, _⟩ := splitPair_loading
  have count := pair_length manifests
  have size := pair_nodesSize manifests
  obtain ⟨c₁, events, run, _, memory, _, history⟩ := loading.registered.nodes
    (fun _ hb => pair_nonneg manifests hb) (by rw [pair_namedPrefix manifests, size, top]; decide)
  rw [pair_namedPrefix manifests, size, top] at memory
  obtain ⟨rest, loaded⟩ := loading.registered.loaded
  obtain ⟨c₂, setUp⟩ := loaded.setUp
    (fun b hb => ⟨pair_named manifests hb, pair_nonneg manifests hb⟩) (by rw [size, top]; decide)
  have three : (loads.map Load.bee).length < 3 := by omega
  obtain ⟨rfl, _⟩ := Prod.mk.inj (Except.ok.inj ((run 3 three).symm.trans (setUp.run 3 three)))
  have one : 0 < (loads.map Load.bee).length := by omega
  have node : c₁.idNodes 0 = 0x4C00 := ((setUp.nodes.get one).1).trans top
  have empty : globalValues c₁.mem (c₁.idNodes 0) = 0 := (setUp.fresh one).globals
  rw [node] at empty
  refine ⟨steps, loads, c, c₁, events, loading, run 3 three, ?_, fun integrity => ?_⟩
  · rw [node, memory]
    exact ⟨by decide, by decide, trivial⟩
  rw [node] at integrity
  obtain ⟨m, done, result, _⟩ :=
    alloc_spec (show 0x4C00 + 20 + 4 ≤ c₁.memory by rw [memory]; decide)
    (show c₁.memory + 4 * 4 < 2 ^ 32 by rw [memory]; decide)
  -- The four bytes lie in the node, and a carved region is kept.
  have covered := history.covers (P := fun _ => True) fun s hs x _ lo hi =>
    nodeSteps_cover s hs x lo hi
  have kept : ∀ x, 0x4C00 + 20 ≤ x → x < 0x4C00 + 24 → m x = c₁.mem x := by
    intro x lo hi
    obtain ⟨s, hs, r, hr, has⟩ := covered x trivial (by omega) (by omega)
    have last := (List.pairwise_append.mp integrity.kept).2.2 s (List.mem_append_right _ hs) _
      (List.mem_singleton.mpr rfl) r hr x has not_false
    simp only [step, done] at last
    exact last
  have same : load32 m (0x4C00 + 20) = globalValues c₁.mem 0x4C00 := by
    refine load_congr fun i hi => ?_
    rw [u32_of_lt (by omega)]
    exact kept _ (by omega) (by omega)
  rw [result, empty, memory] at same
  exact absurd same (by decide)

end HiveRK.Queen
