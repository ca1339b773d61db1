import HiveRK.Queen.Carving

/-!
# Loading a laid out disk

What a module says of itself does not depend on where it is placed: `Manifest` is that part
of a `Bee`. On a disk that consists of gaps and modules, `main` loads every module in order,
and what it registers has the manifests that the images have.
-/

namespace HiveRK.Queen

open Machine Bump

/-- What a module says of itself. -/
structure Manifest where
  name : List Byte
  id : Nat
  priority : Nat
  format : Nat
  init : Nat
  exports : List Export
deriving DecidableEq, Repr

def Bee.manifest (b : Bee) : Manifest :=
  ⟨b.name, b.id, b.priority, b.format, b.init, b.exports⟩

def Manifest.nodeSize (m : Manifest) : Nat := 28 + 4 * tableSize m.exports

/-- A memory with the image at 0. -/
def imageMem (image : List Byte) : Mem := fun x => image.getD x 0

def Part.manifest (p : Part) : Manifest := (imageBee (imageMem p.image) 0 0).manifest

/-- The header, the exports and the offset of `init` lie inside the image. -/
def Part.Whole (p : Part) : Prop := 50 + 8 * p.manifest.exports.length ≤ p.image.length

instance (p : Part) : Decidable p.Whole := inferInstanceAs (Decidable (_ ≤ _))

section Manifests

variable {m m' : Mem} {buf buf' data data' n : Nat}

/-- Equal images have equal manifests. -/
theorem imageBee_manifest (same : ∀ i < n, m' (u32 (buf' + i)) = m (u32 (buf + i)))
    (inside : 50 + 8 * load32 m (buf + 42) ≤ n) :
    (imageBee m' buf' data').manifest = (imageBee m buf data).manifest := by
  have word : ∀ k i, i + k ≤ n → load k m' (buf' + i) = load k m (buf + i) := by
    intro k i hi
    refine load_congr fun x hx => ?_
    simpa only [Nat.add_assoc] using same (i + x) (by omega)
  have name : loadBytes m' (buf' + 9) 32 = loadBytes m (buf + 9) 32 := by
    refine List.map_congr_left fun i hi => ?_
    have small := List.mem_range.mp hi
    simpa only [Nat.add_assoc] using same (9 + i) (by omega)
  have count : load32 m' (buf' + 42) = load32 m (buf + 42) := word 4 42 (by omega)
  simp only [Bee.manifest, imageBee, Manifest.mk.injEq, count]
  refine ⟨name, word 4 5 (by omega), word 1 41 (by omega), word 1 4 (by omega), ?_, ?_⟩
  · simpa only [Nat.add_assoc] using word 4 (46 + 8 * load32 m (buf + 42)) (by omega)
  · refine List.map_congr_left fun s hs => ?_
    have small := List.mem_range.mp hs
    have id := word 4 (46 + 8 * s) (by omega)
    have offset := word 4 (50 + 8 * s) (by omega)
    simp only [← Nat.add_assoc] at id offset
    exact congrArg₂ Export.mk id offset

theorem Part.manifest_count (p : Part) :
    p.manifest.exports.length = load32 (imageMem p.image) 42 := by
  simp only [Part.manifest, Bee.manifest]
  exact imageBee_count _ _ _

/-- A module that was loaded whole has its image's manifest. -/
theorem imageBee_part {p : Part} (whole : p.Whole) (fits : p.image.length ≤ 2 ^ 32)
    (bytes : loadBytes m buf p.image.length = p.image) :
    (imageBee m buf data).manifest = p.manifest := by
  refine imageBee_manifest (n := p.image.length) (fun i hi => ?_) ?_
  · have read := getElem_loadBytes (m := m) (a := buf) (n := p.image.length) (i := i)
      (by simpa using hi)
    simp only [bytes] at read
    rw [← read, Nat.zero_add, u32_of_lt (by omega), imageMem, List.getD_eq_getElem?_getD,
      List.getElem?_eq_getElem hi]
    rfl
  · rw [Nat.zero_add, ← p.manifest_count]
    exact whole

end Manifests

/-! ### The rounds of the load loop -/

/-- The load brought the module `p` to the address that is its base. -/
structure Brings (l : Load) (p : Part) : Prop where
  manifest : l.bee.manifest = p.manifest
  placed : ∃ off s, Finds off p.image s ∧ s.address = l.bee.base

/-- The bytes that the modules take from `MEMORY`, when `n` were loaded before and the first
gap starts at `a`. -/
def demand : Nat → Nat → List Part → Nat
  | _, _, [] => 0
  | n, a, p :: ps =>
      512 * sectorsTouched (a + p.gap.length) p.image.length +
        sectorRound (18 + 8 * p.manifest.exports.length) + (if Grows n then 512 else 0) +
          demand (n + 1) (a + p.gap.length + p.image.length) ps

section Rounds

variable {d : Disk} {a page0 : Nat} {p : Part} {ps parts : List Part} {c : Core}

/-- What a scan finds on a laid out disk can be loaded. -/
theorem Layout.loadable (h : Layout d a (p :: ps)) (low : 512 ≤ a) (last : c.lastEnd = a)
    (positive : 0 < c.memory) (whole : p.Whole)
    (room : c.memory + 512 * sectorsTouched (a + p.gap.length) p.image.length +
      (18 + 8 * p.manifest.exports.length) + 1023 < 2 ^ 32) :
    Loadable d c (a + p.gap.length) (a + p.gap.length + p.image.length) ∧
      Brings ⟨a + p.gap.length, a + p.gap.length + p.image.length, loadedBee d c⟩ p := by
  have hlen := length_contents_cons p ps
  have long := p.length_image
  have fits := h.fits
  have used := memoryUsed_eq (show 0 < p.image.length by omega)
    (show a + p.gap.length + p.image.length < 2 ^ 32 by omega)
  obtain ⟨finds, _⟩ := h.scan_finds low last positive (by omega)
  have manifest : (loadedBee d c).manifest = p.manifest :=
    imageBee_part whole (by omega) finds.bytes
  have exports : (loadedBee d c).exports.length = p.manifest.exports.length :=
    congrArg (fun m => m.exports.length) manifest
  have base : (loadedBee d c).base = c.memory + (a + p.gap.length) % 512 := finds.address
  have inside : (a + p.gap.length) % 512 + p.image.length ≤
      512 * sectorsTouched (a + p.gap.length) p.image.length := by
    rw [sectorsTouched]
    omega
  have second := h.findBee_stop
  refine ⟨⟨last ▸ h.findBee_start, by omega, by omega, by omega, by omega, by omega,
    finds.nonzero, ?_, ?_⟩, manifest, _, _, finds, rfl⟩
  · rw [base, exports, used]
    simp only [Part.Whole] at whole
    omega
  · rw [Bee.pageSize, exports, used]
    omega

/-- What the next module needs, if all modules fit. -/
theorem Layout.room_of_demand {n : Nat} (h : Layout d a (p :: ps)) (whole : p.Whole)
    (room : c.memory + demand n a (p :: ps) + 1024 ≤ 2 ^ 32) :
    c.memory + 512 * sectorsTouched (a + p.gap.length) p.image.length +
      (18 + 8 * p.manifest.exports.length) + 1023 < 2 ^ 32 := by
  have count : 18 + 8 * p.manifest.exports.length ≤
      sectorRound (18 + 8 * p.manifest.exports.length) := by
    refine (sectorRound_bounds ?_).1
    have image := h.images p List.mem_cons_self
    have window : SEARCH_LIMIT = 102400 := rfl
    simp only [Part.Whole] at whole
    omega
  rw [demand] at room
  omega

/-- A round on a laid out disk: what the next module demands is taken from `MEMORY`. -/
theorem Layout.round {bees : List Bee} (h : Layout d a (p :: ps)) (low : 512 ≤ a)
    (last : c.lastEnd = a) (registered : Registered page0 bees c) (whole : p.Whole)
    (room : c.memory + 512 * sectorsTouched (a + p.gap.length) p.image.length +
      (18 + 8 * p.manifest.exports.length) + 1023 < 2 ^ 32) :
    Loadable d c (a + p.gap.length) (a + p.gap.length + p.image.length) ∧
      Brings ⟨a + p.gap.length, a + p.gap.length + p.image.length, loadedBee d c⟩ p ∧
      (loadRound d page0 bees.length c).lastEnd = a + p.gap.length + p.image.length ∧
      (loadRound d page0 bees.length c).memory = c.memory +
        (512 * memoryUsed (a + p.gap.length) (a + p.gap.length + p.image.length) +
          sectorRound (loadedBee d c).pageSize + if Grows bees.length then 512 else 0) ∧
      demand bees.length a (p :: ps) =
        512 * memoryUsed (a + p.gap.length) (a + p.gap.length + p.image.length) +
          sectorRound (loadedBee d c).pageSize + (if Grows bees.length then 512 else 0) +
            demand (bees.length + 1) (a + p.gap.length + p.image.length) ps := by
  obtain ⟨_, loaded⟩ := registered.loaded
  have positive : 0 < c.memory := by
    have grown := loaded.grown
    omega
  obtain ⟨next, brings⟩ := h.loadable low last positive whole room
  have long := p.length_image
  have hlen := length_contents_cons p ps
  have fits := h.fits
  have used := memoryUsed_eq (show 0 < p.image.length by omega)
    (show a + p.gap.length + p.image.length < 2 ^ 32 by omega)
  have exports : (loadedBee d c).exports.length = p.manifest.exports.length :=
    congrArg (fun m => m.exports.length) brings.manifest
  have top := next.loadRound_memory registered
  refine ⟨next, brings, next.loadRound_lastEnd registered, ?_, ?_⟩
  · simp only [top, Nat.add_assoc]
  · rw [demand, Bee.pageSize, exports, used]

/-- `main` loads all modules of a laid out disk, in order. -/
theorem Loading.layout {steps : List (Step Kind Byte)} {loads : List Load}
    (before : Loading d page0 steps loads c) (h : Layout d a ps) (low : 512 ≤ a)
    (last : c.lastEnd = a) (whole : ∀ p ∈ ps, p.Whole)
    (room : c.memory + demand loads.length a ps + 1024 ≤ 2 ^ 32) :
    ∃ steps' loads' c', Loading d page0 (steps ++ steps') (loads ++ loads') c' ∧
      List.Forall₂ Brings loads' ps ∧ c'.memory = c.memory + demand loads.length a ps ∧
      ∀ fuel, ps.length < fuel → loadLoop d page0 fuel c loads.length = .ok c' := by
  induction ps generalizing a c steps loads with
  | nil =>
      refine ⟨[], [], c, by rwa [List.append_nil, List.append_nil], .nil, rfl, fun fuel hfuel => ?_⟩
      obtain ⟨fuel, rfl⟩ : ∃ k, fuel = k + 1 := ⟨fuel - 1, by omega⟩
      obtain ⟨none, same⟩ := h.scan_ends last
      simp only [scan] at none same
      rw [loadLoop]
      simp only [none, if_true, same]
  | cons p ps ih =>
      have registered := before.registered
      have count : (loads.map Load.bee).length = loads.length := List.length_map _
      rw [← count] at room
      obtain ⟨next, brings, stop, top, demanded⟩ :=
        h.round low last registered (whole p List.mem_cons_self)
          (h.room_of_demand (whole p List.mem_cons_self) room)
      have after := before.round next
      rw [count] at room stop top demanded after
      have more : ∀ l, (loads ++ [l]).length = loads.length + 1 := fun l => List.length_append
      obtain ⟨steps', loads', c', run, brought, memory, loop⟩ := ih after h.tail (by omega) stop
        (fun q hq => whole q (List.mem_cons_of_mem _ hq)) (by rw [more]; omega)
      rw [more] at memory loop
      rw [List.append_assoc, List.append_assoc] at run
      refine ⟨_, _, c', run, .cons brings brought, by omega, fun fuel hfuel => ?_⟩
      obtain ⟨fuel, rfl⟩ : ∃ k, fuel = k + 1 := ⟨fuel - 1, by omega⟩
      rw [loadLoop]
      simp only [if_neg next.read]
      exact loop fuel (by simpa using hfuel)

end Rounds

theorem manifests_of_brings {loads : List Load} {parts : List Part}
    (brought : List.Forall₂ Brings loads parts) :
    (loads.map Load.bee).map Bee.manifest = parts.map Part.manifest := by
  have each := brought.imp fun _ _ brings => brings.manifest
  rw [List.map_map]
  exact List.forall₂_eq_eq_eq ▸
    List.forall₂_map_left_iff.mpr (List.forall₂_map_right_iff.mpr each)

section Manifests

variable {bees : List Bee} {parts : List Part}
  (manifests : bees.map Bee.manifest = parts.map Part.manifest)
include manifests

theorem length_of_manifests : bees.length = parts.length := by
  have count := congrArg List.length manifests
  rwa [List.length_map, List.length_map] at count

theorem manifest_mem {b : Bee} (hb : b ∈ bees) : ∃ p ∈ parts, p.manifest = b.manifest :=
  List.mem_map.mp (manifests ▸ List.mem_map_of_mem hb)

theorem named_of_manifests (named : ∀ p ∈ parts, p.manifest.name.headD 0 ≠ 0) {b : Bee}
    (hb : b ∈ bees) : b.Named := by
  obtain ⟨p, hp, same⟩ := manifest_mem manifests hb
  have first := named p hp
  rwa [same] at first

theorem nonneg_of_manifests (nonneg : ∀ p ∈ parts, ∀ e ∈ p.manifest.exports, e.id < 2 ^ 31)
    {b : Bee} (hb : b ∈ bees) : b.NonNegative := by
  obtain ⟨p, hp, same⟩ := manifest_mem manifests hb
  have exports := nonneg p hp
  rwa [same] at exports

theorem nodesSize_of_manifests :
    nodesSize bees = ((parts.map Part.manifest).map Manifest.nodeSize).sum := by
  rw [← manifests, List.map_map]
  rfl

end Manifests

/-! ### Small modules -/

/-- A module without exports and without code. -/
def plainPart (id : Byte) : Part :=
  ⟨[], [0, id, 0, 0, 0, 0x61] ++ List.replicate 40 0⟩

theorem plainPart_exports (id : Byte) : (plainPart id).manifest.exports.length = 0 :=
  (plainPart id).manifest_count.trans rfl

theorem plainPart_whole (id : Byte) : (plainPart id).Whole := by
  rw [Part.Whole, plainPart_exports, Part.length_image]
  exact Nat.le_add_left 50 4

/-- Modules with the ids from 1 on. -/
def plainParts (n : Nat) : List Part :=
  (List.range n).map fun i => plainPart (BitVec.ofNat 8 (i + 1))

theorem plainParts_whole (n : Nat) : ∀ p ∈ plainParts n, p.Whole := by
  intro p hp
  obtain ⟨i, _, rfl⟩ := List.mem_map.mp hp
  exact plainPart_whole _

/-- `main` loads a disk of modules one behind the other. -/
theorem loading_diskOf {parts : List Part} (layout : Layout (diskOf parts) 512 parts)
    (whole : ∀ p ∈ parts, p.Whole) (room : 0x4200 + demand 0 512 parts + 1024 ≤ 2 ^ 32) :
    ∃ steps loads c, Loading (diskOf parts) 0x4000 steps loads c ∧
      List.Forall₂ Brings loads parts ∧ c.memory = 0x4200 + demand 0 512 parts ∧
      ∀ fuel, parts.length < fuel →
        loadLoop (diskOf parts) 0x4000 fuel (prepare emptyCore) 0 = .ok c := by
  have start : Loading (diskOf parts) 0x4000 _ [] (prepare emptyCore) := .prepare rfl (by decide)
  have memory : (prepare emptyCore).memory = 0x4200 := by decide
  obtain ⟨steps, loads, c, loading, brought, top, loop⟩ :=
    start.layout layout (Nat.le_refl _) rfl whole (by rw [memory]; exact room)
  rw [memory] at top
  exact ⟨_, loads, c, loading, brought, top, loop⟩

end HiveRK.Queen
