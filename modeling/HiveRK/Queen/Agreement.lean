import HiveRK.Queen.Dispatch
import HiveRK.Queen.Images
import HiveRK.Queen.Walkers

/-!
# The walkers agree

The tour through the registry is the same for `setupLookupArray`, for a pass of
`run_inits` and for `list-bees`. The first two change memory on the way, and what they
change has to stay away from the pages that are still to be read.
-/

namespace HiveRK.Queen

open Machine

section Agreement

variable {page0 : Nat} {bees : List Bee} {c : Core}

/-- Everything in `pages` is in `m'` as it is in `m`. -/
def SamePages (pages : List Nat) (m m' : Mem) : Prop := ∀ p ∈ pages, AgreeOn m m' p 512

/-- All three walkers make the same tour through the names pages: they use the slots of the
modules in order, each once, and look at nothing that was not written. -/
theorem walkers_agree (registered : Registered page0 bees c) (named : ∀ b ∈ bees, b.Named) :
    ∃ rest,
      let pages := page0 :: rest
      let tour := walk pages bees.length
      Tour pages bees.length tour ∧
      (positions pages bees.length).Nodup ∧
      List.Forall₂ (fun at_ b => Holds c.mem at_.1 at_.2 b) (positions pages bees.length) bees ∧
      ((∀ b ∈ bees, b.NonNegative) → c.memory + nodesSize bees < 2 ^ 32 →
        bees.length ≤ MAX_BEES → ∃ c₁,
          (∀ fuel, bees.length < fuel → setupLookupArray fuel c page0 0 = .ok (c₁, tour)) ∧
          ∀ (k : Nat) (h : k < bees.length), Fresh c₁.mem c.irt bees[k] (c₁.idNodes k)) ∧
      (∀ run : Call → Core → Core,
        (∀ s call, SamePages pages c.mem s.mem → SamePages pages c.mem (run call s).mem) →
        ∀ s, SamePages pages c.mem s.mem → ∀ priority fuel, bees.length < fuel →
          ∃ s' calls, initPass run priority fuel s page0 0 = .ok (s', calls, tour)) ∧
      ∀ m, SamePages pages c.mem m → ∀ fuel, bees.length < fuel →
        listBees m fuel page0 0 = .ok tour := by
  obtain ⟨rest, loaded⟩ := registered.loaded
  have apart : (page0 :: rest).Nodup :=
    loaded.pagesApart.imp fun {p q} behind => by omega
  have fits : ∀ p ∈ page0 :: rest, p + 512 ≤ 2 ^ 32 := by
    intro p hp
    have below := loaded.pagesBelow p hp
    have top := loaded.fits
    omega
  have reads : ∀ m, SamePages (page0 :: rest) c.mem m → Reads m (page0 :: rest) bees :=
    fun m same => loaded.names.reads.agree same fits
  refine ⟨rest, walk_tour loaded.names, positions_nodup apart _, positions_hold loaded.names.reads,
    ?_, ?_, ?_⟩
  · intro nonneg room _
    obtain ⟨c₁, setUp⟩ := loaded.setUp (fun b hb => ⟨named b hb, nonneg b hb⟩) room
    exact ⟨c₁, setUp.run, fun k hk => setUp.fresh hk⟩
  · intro run kept s same priority fuel hfuel
    obtain ⟨s', calls, pass, _⟩ := initPass_spec (Q := fun _ _ => True) kept
      (fun s same => reads s.mem same) named (Nat.zero_le _) (by decide) same (by omega)
    exact ⟨s', calls, by rw [pass, walkFrom_zero]⟩
  · intro m same fuel hfuel
    rw [listBees_spec (reads m same) named (Nat.zero_le _) (by decide) rfl (by omega),
      walkFrom_zero]

end Agreement

theorem fifteenParts_layout : Layout (diskOf (plainParts 15)) 512 (plainParts 15) :=
  layout_diskOf (by decide +kernel) (by decide) (by decide) (by decide +kernel)

/-- The slots of fifteen modules lie on two pages. -/
theorem positions_fifteen {pages : List Nat}
    (some : (positions (0x4000 :: pages) 15).length = 15)
    (distinct : (positions (0x4000 :: pages) 15).Nodup) : ∃ page, page ≠ 0x4000 ∧
      positions (0x4000 :: pages) 15 =
        (List.range 14).map (fun i => (0x4000, i)) ++ [(page, 0)] := by
  cases pages with
  | nil => exact absurd some (by decide)
  | cons page rest =>
      have whole : positions (0x4000 :: page :: rest) 15 =
          (List.range 14).map (fun i => (0x4000, i)) ++ [(page, 0)] :=
        congrArg (fun behind => (List.range 14).map (fun i => (0x4000, i)) ++
          ([(page, 0)] ++ behind)) (positions_zero rest)
      refine ⟨page, ?_, whole⟩
      rintro rfl
      rw [whole] at distinct
      exact absurd distinct (by decide)

/-- The fifteenth module has its slot on a second page. -/
theorem walkers_agree_fifteen : ∃ steps loads c page c₁ s calls tour,
    Loading (diskOf (plainParts 15)) 0x4000 steps loads c ∧ page ≠ 0x4000 ∧
      visits tour = (List.range 14).map (fun i => (0x4000, i)) ++ [(page, 0)] ∧
      setupLookupArray 16 c 0x4000 0 = .ok (c₁, tour) ∧
      initPass (fun _ s => s) 0 16 c 0x4000 0 = .ok (s, calls, tour) ∧
      listBees c.mem 16 0x4000 0 = .ok tour := by
  have room : demand 0 512 (plainParts 15) = 0x4000 := by decide +kernel
  obtain ⟨steps, loads, c, loading, brought, top, _⟩ :=
    loading_diskOf fifteenParts_layout (plainParts_whole 15) (by rw [room]; decide)
  have manifests := manifests_of_brings brought
  have count : (loads.map Load.bee).length = 15 := length_of_manifests manifests
  have sizes : nodesSize (loads.map Load.bee) = 420 := by
    rw [nodesSize_of_manifests manifests]
    decide +kernel
  obtain ⟨rest, tour, distinct, hold, setup, pass, list⟩ := walkers_agree loading.registered
    fun _ hb => named_of_manifests manifests (by decide +kernel) hb
  obtain ⟨c₁, built, _⟩ := setup
    (fun _ hb => nonneg_of_manifests manifests (by decide +kernel) hb)
    (by rw [sizes, top, room]; decide) (by rw [count]; decide)
  have same : SamePages (0x4000 :: rest) c.mem c.mem := fun _ _ => AgreeOn.refl _ _ _
  have enough : (loads.map Load.bee).length < 16 := by omega
  obtain ⟨s, calls, walked⟩ := pass (fun _ s => s) (fun _ _ same => same) c same 0 16 enough
  have visited := tour.visits
  have length := hold.length_eq
  rw [count] at length distinct
  obtain ⟨page, other, slots⟩ := positions_fifteen length distinct
  refine ⟨steps, loads, c, page, c₁, s, calls, _, loading, other, ?_, built 16 enough, walked,
    list _ same 16 enough⟩
  rw [visited, count, slots]

/-- A module whose one export has a negative id: its table entry lies in the second slot of
the names page. -/
def beeAstray : Bee := { beeThree with exports := [⟨0xFFFFFE82, 0x50⟩] }

/-- The data page of `beeAstray`. -/
def beeAstrayPage : Mem := fun x =>
  ([0x00, 0x42, 0, 0, 3, 0, 0, 0, 0, 0, 1, 0, 0, 0, 0x40, 0x42, 0, 0,
    0x82, 0xFE, 0xFF, 0xFF, 0x50, 0x42, 0, 0] : List Byte).getD (x - 0x4400) 0

theorem beeAstrayPage_dataPage : DataPage beeAstrayPage beeAstray := by
  constructor <;> decide

/-- `beeAstray` is loaded. -/
def coreAstray : Core := (prepare emptyCore).extend 0x4000 0 beeAstrayPage beeAstray

theorem registered_astray : Registered 0x4000 [beeAstray] coreAstray :=
  registered_none.extend (by decide) beeAstrayPage_dataPage rfl (by decide) (by decide) (by decide)

/-- One module is registered, and yet `setupLookupArray` uses two slots, because the module
has a negative export id. So does a pass that calls an init function which writes a name. -/
theorem walkers_go_astray : Registered 0x4000 [beeAstray] coreAstray ∧ beeAstray.Named ∧
    (setupLookupArray 2 coreAstray 0x4000 0).map (fun built => visits built.2) =
      .ok [(0x4000, 0), (0x4000, 1)] ∧
    (initPass (fun _ s => { s with mem := store8 s.mem (slot 0x4000 1) 0x62 }) 0 3 coreAstray
      0x4000 0).map (fun pass => visits pass.2.2) = .ok [(0x4000, 0), (0x4000, 1)] := by
  refine ⟨registered_astray, by decide, ?_, ?_⟩
  · rfl
  · rfl

end HiveRK.Queen
