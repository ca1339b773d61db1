import HiveRK.Queen.CoreGlobal
import HiveRK.Queen.Inits

/-!
# Where a module lies does not matter

The same modules may lie on a disk in any order and with any gaps. What differs then are the
addresses, and what the core does with a module is relative to the module's base.
-/

namespace HiveRK.Queen

open Machine Bump

/-! ### Loaded images stay -/

/-- The module `p` was loaded as `b`, away from the names pages. -/
structure Resident (pages : List Nat) (c : Core) (b : Bee) (p : Part) : Prop where
  manifest : b.manifest = p.manifest
  bytes : loadBytes c.mem b.base p.image.length = p.image
  below : b.base + p.image.length ≤ c.memory
  apart : ∀ q ∈ pages, b.base + p.image.length ≤ q ∨ q + 512 ≤ b.base

section Resident

variable {d : Disk} {c c' : Core} {pages pages' rest : List Nat} {b : Bee} {p : Part}
  {bees : List Bee} {page0 start stop : Nat}

theorem Resident.keep (h : Resident pages c b p) (fits : c.memory ≤ 2 ^ 32)
    (same : AgreeOn c.mem c'.mem b.base p.image.length) (grown : c.memory ≤ c'.memory)
    (apart : ∀ q ∈ pages', q ∈ pages ∨ c.memory ≤ q) : Resident pages' c' b p := by
  have below := h.below
  refine ⟨h.manifest, ?_, Nat.le_trans below grown, fun q hq => ?_⟩
  · exact (same.loadBytes (by omega) (Nat.le_refl _) (Nat.le_refl _)).trans h.bytes
  · obtain old | new := apart q hq
    · exact h.apart q old
    · exact .inl (Nat.le_trans below new)

/-- A round adds no names page but the one that it carves. -/
theorem Loadable.namesPages {rest' : List Nat} (next : Loadable d c start stop)
    (loaded : Loaded page0 rest bees c)
    (loaded' : Loaded page0 rest' (bees ++ [loadedBee d c]) (loadRound d page0 bees.length c)) :
    ∀ q ∈ page0 :: rest', q ∈ page0 :: rest ∨ q = (madeCore d c).memory := by
  obtain ⟨m, added, _, names, _⟩ := next.added loaded
  have last := loaded'.names
  rw [pagesAfter_cons] at names
  rw [added] at last
  intro q hq
  rw [← names.unique last, ← pagesAfter_cons] at hq
  exact (mem_pagesAfter.mp hq).imp id And.right

/-- The names are written to the names pages and above everything that was carved. -/
theorem Loadable.kept (next : Loadable d c start stop) (loaded : Loaded page0 rest bees c) :
    ∀ x < (madeCore d c).memory, (∀ q ∈ page0 :: rest, x < q ∨ q + 512 ≤ x) →
      (loadRound d page0 bees.length c).mem x = (madeCore d c).mem x := by
  obtain ⟨m, added, _, _, written⟩ := next.added loaded
  intro x low apart
  rw [added]
  refine written x fun touched => ?_
  obtain ⟨q, hq, inside⟩ | inside := touched.inside
  · have := apart q hq
    omega
  · omega

/-- A round keeps the images that are there, and adds one. -/
theorem Loadable.resident (next : Loadable d c start stop) (registered : Registered page0 bees c)
    (loaded : Loaded page0 rest bees c) :
    ∃ rest', Loaded page0 rest' (bees ++ [loadedBee d c]) (loadRound d page0 bees.length c) ∧
      (∀ b p, Resident (page0 :: rest) c b p →
        Resident (page0 :: rest') (loadRound d page0 bees.length c) b p) ∧
      ∀ p, (loadedBee d c).manifest = p.manifest → Finds start p.image (Queen.scan d c) →
        start % 512 + p.image.length ≤ 512 * memoryUsed start stop →
        Resident (page0 :: rest') (loadRound d page0 bees.length c) (loadedBee d c) p := by
  have room := next.room
  have top := next.memory
  obtain ⟨rest', loaded'⟩ := (registered.load next).loaded
  obtain ⟨m₂, made, kept₂⟩ := next.made
  obtain ⟨m, run, _, written₂⟩ := next.make
  have grown := next.loadRound_memory registered
  have fresh : (beeScanAndLoad d c).1.memory ≤ (madeCore d c).memory := by
    rw [made, top]
    exact Nat.le_add_right _ _
  have mem₂ : (madeCore d c).mem = m := by rw [madeCore, run]
  have pages := next.namesPages loaded loaded'
  have kept₃ := next.kept loaded
  refine ⟨rest', loaded', fun b p h => ?_, fun p manifest finds inside => ?_⟩
  · have below := h.below
    refine h.keep (by omega) (fun x lo hi => ?_) (by omega) fun q hq =>
      (pages q hq).imp id (by omega)
    have apart : ∀ q ∈ page0 :: rest, x < q ∨ q + 512 ≤ x := by
      intro q hq
      have := h.apart q hq
      omega
    rw [kept₃ x (by omega) apart, made]
    exact kept₂ x (by omega)
  · have address : (loadedBee d c).base = c.memory + start % 512 := finds.address
    have bytes : loadBytes (beeScanAndLoad d c).1.mem (loadedBee d c).base p.image.length =
      p.image :=
      finds.bytes
    have old : ∀ q ∈ page0 :: rest, q + 512 ≤ (loadedBee d c).base := by
      intro q hq
      have := loaded.pagesBelow q hq
      omega
    have same : AgreeOn (beeScanAndLoad d c).1.mem (loadRound d page0 bees.length c).mem
        (loadedBee d c).base p.image.length := by
      intro x lo hi
      have apart : ∀ q ∈ page0 :: rest, x < q ∨ q + 512 ≤ x := fun q hq => by
        have := old q hq
        omega
      rw [kept₃ x (by omega) apart, mem₂]
      exact written₂ x (.inl (by omega))
    refine ⟨manifest, ?_, by omega, fun q hq => ?_⟩
    · exact (same.loadBytes (by omega) (Nat.le_refl _) (Nat.le_refl _)).trans bytes
    · obtain hq | rfl := pages q hq
      · exact .inr (old q hq)
      · exact .inl (by omega)

end Resident

/-! ### Loading below `CORE_GLOBAL_MEMORY` -/

section Load

variable {d : Disk} {a : Nat} {p : Part} {ps done : List Part} {c : Core} {bees : List Bee}
  {rest : List Nat}

/-- Below the word there is room for any module. -/
theorem Layout.room_of_low (h : Layout d a (p :: ps)) (whole : p.Whole) (low : Low c) :
    c.memory + 512 * sectorsTouched (a + p.gap.length) p.image.length +
      (18 + 8 * p.manifest.exports.length) + 1023 < 2 ^ 32 := by
  have global : CORE_GLOBAL_MEMORY = 0x6000 := rfl
  have window : SEARCH_LIMIT = 102400 := rfl
  have image := h.images p List.mem_cons_self
  simp only [Part.Whole, Low, sectorsTouched] at *
  omega

/-- `main` loads all modules of a laid out disk, if what it carves for them is clear of the word
that it stores afterwards. -/
theorem Layout.load {fuel : Nat} (h : Layout d a ps) (low : 512 ≤ a) (last : c.lastEnd = a)
    (registered : Registered 0x4000 bees c) (loaded : Loaded 0x4000 rest bees c)
    (below : Below bees.length c)
    (resident : List.Forall₂ (Resident (0x4000 :: rest) c) bees done)
    (whole : ∀ p ∈ ps, p.Whole) (hfuel : ps.length < fuel)
    (clear : ∀ r ∈ loadRegions d 0x4000 fuel c bees.length, ClearOfGlobal r) :
    ∃ rest' more c', (∀ fuel, ps.length < fuel → loadLoop d 0x4000 fuel c bees.length = .ok c') ∧
      Registered 0x4000 (bees ++ more) c' ∧ Loaded 0x4000 rest' (bees ++ more) c' ∧
      List.Forall₂ (Resident (0x4000 :: rest') c') (bees ++ more) (done ++ ps) ∧ Low c' := by
  induction ps generalizing a c bees done rest fuel with
  | nil =>
      refine ⟨rest, [], c, fun fuel hfuel => ?_, by rwa [List.append_nil], by rwa [List.append_nil],
        by rwa [List.append_nil, List.append_nil], below.low⟩
      obtain ⟨fuel, rfl⟩ : ∃ k, fuel = k + 1 := ⟨fuel - 1, by omega⟩
      obtain ⟨none, same⟩ := h.scan_ends last
      simp only [scan] at none same
      rw [loadLoop]
      simp only [none, if_true, same]
  | cons p ps ih =>
      obtain ⟨fuel, rfl⟩ : ∃ k, fuel = k + 1 := ⟨fuel - 1, by omega⟩
      have wholeP := whole p List.mem_cons_self
      have room := h.room_of_low wholeP below.low
      obtain ⟨next, brings, stop, top, _⟩ := h.round low last registered wholeP room
      rw [loadRegions, if_neg next.read, List.forall_mem_append] at clear
      have carves := below.round next.read
      obtain ⟨below₁, _⟩ := carves.after ((carves.clear_iff below.low).mp clear.1)
      obtain ⟨rest₁, loaded₁, keep, add⟩ := next.resident registered loaded
      have positive : 0 < c.memory := by
        have grown := loaded.grown
        omega
      have long := p.length_image
      have hlen := length_contents_cons p ps
      have fits := h.fits
      have used := memoryUsed_eq (show 0 < p.image.length by omega)
        (show a + p.gap.length + p.image.length < 2 ^ 32 by omega)
      obtain ⟨finds, _⟩ := h.scan_finds low last positive (by omega)
      have inside : (a + p.gap.length) % 512 + p.image.length ≤
          512 * memoryUsed (a + p.gap.length) (a + p.gap.length + p.image.length) := by
        rw [used, sectorsTouched]
        omega
      have resident₁ := List.rel_append (resident.imp fun b p => keep b p)
        (.cons (add p brings.manifest finds inside) .nil)
      have more : (bees ++ [loadedBee d c]).length = bees.length + 1 := List.length_append
      rw [← more] at below₁ clear
      obtain ⟨rest', others, c', loop, all, loaded', residents, low'⟩ := ih h.tail (by omega) stop
        (registered.load next) loaded₁ below₁ resident₁
        (fun q hq => whole q (List.mem_cons_of_mem _ hq)) (by simpa using hfuel) clear.2
      rw [more] at loop
      rw [List.append_assoc] at all loaded' residents
      rw [List.append_assoc] at residents
      refine ⟨rest', _, c', fun fuel hfuel => ?_, all, loaded', residents, low'⟩
      obtain ⟨fuel, rfl⟩ : ∃ k, fuel = k + 1 := ⟨fuel - 1, by omega⟩
      rw [loadLoop]
      simp only [if_neg next.read]
      exact loop fuel (by simpa using hfuel)

end Load

/-! ### The start of the core -/

/-- A disk with modules that the core can serve, and whose id nodes fit into memory. -/
structure WellFormed (d : Disk) (parts : List Part) : Prop where
  layout : Layout d 512 parts
  whole : ∀ p ∈ parts, p.Whole
  few : parts.length ≤ MAX_BEES
  named : ∀ p ∈ parts, p.manifest.name.headD 0 ≠ 0
  distinct : parts.Pairwise fun p q => p.manifest.id ≠ q.manifest.id
  nonzero : ∀ p ∈ parts, p.manifest.id ≠ 0
  nonneg : ∀ p ∈ parts, ∀ e ∈ p.manifest.exports, e.id < 2 ^ 31
  tables : CORE_GLOBAL_MEMORY + (parts.map fun p => p.manifest.nodeSize).sum < 2 ^ 32

/-- From `c₀` on `main` loads the modules on the disk as `bees`, with their names in `pages`, and
`setupLookupArray` ends in `c₁`. -/
structure Started (d : Disk) (parts : List Part) (c₀ : Core) (pages : List Nat) (bees : List Bee)
    (c₁ : Core) : Prop where
  run : ∃ c events, loadLoop d 0x4000 (parts.length + 1) (prepare c₀) 0 = .ok c ∧
    setupLookupArray (parts.length + 1) (publish c) 0x4000 0 = .ok (c₁, events)
  names : NamesAt c₁.mem pages bees
  manifests : bees.map Bee.manifest = parts.map Part.manifest
  images : List.Forall₂ (fun b p => loadBytes c₁.mem b.base p.image.length = p.image) bees parts
  nodes : ∀ (j : Nat) (h : j < bees.length), dataBaseAdr c₁.mem (c₁.idNodes j) = bees[j].base

section Start

variable {d : Disk} {parts : List Part} {c₀ : Core} {bees : List Bee}

theorem WellFormed.serves (formed : WellFormed d parts)
    (manifests : bees.map Bee.manifest = parts.map Part.manifest) :
    bees.length ≤ MAX_BEES ∧ (∀ b ∈ bees, b.Named) ∧ (bees.Pairwise fun b b' => b.id ≠ b'.id) ∧
      (∀ b ∈ bees, b.id ≠ 0) ∧ (∀ b ∈ bees, b.NonNegative) ∧
      CORE_GLOBAL_MEMORY + nodesSize bees < 2 ^ 32 := by
  have count : bees.length = parts.length := by simpa using congrArg List.length manifests
  have part : ∀ b ∈ bees, ∃ p ∈ parts, p.manifest = b.manifest := by
    intro b hb
    exact List.mem_map.mp (manifests ▸ List.mem_map_of_mem hb)
  refine ⟨count ▸ formed.few, fun b hb => ?_, ?_, fun b hb => ?_, fun b hb => ?_, ?_⟩
  · obtain ⟨p, hp, same⟩ := part b hb
    have named := formed.named p hp
    rwa [same] at named
  · have distinct : (parts.map Part.manifest).Pairwise fun m m' => m.id ≠ m'.id :=
      List.pairwise_map.mpr formed.distinct
    rw [← manifests, List.pairwise_map] at distinct
    exact distinct
  · obtain ⟨p, hp, same⟩ := part b hb
    have nonzero := formed.nonzero p hp
    rwa [same] at nonzero
  · obtain ⟨p, hp, same⟩ := part b hb
    have nonneg := formed.nonneg p hp
    rwa [same] at nonneg
  · have tables := formed.tables
    have sizes : bees.map Bee.nodeSize = parts.map fun p => p.manifest.nodeSize := by
      have both := congrArg (List.map Manifest.nodeSize) manifests
      rwa [List.map_map, List.map_map] at both
    rwa [← sizes] at tables

theorem WellFormed.start (formed : WellFormed d parts) (start : c₀.memory = 0x4000)
    (first : c₀.lastEnd = 512)
    (clear : ∀ r ∈ regionsBefore d (parts.length + 1) c₀, ClearOfGlobal r) :
    ∃ c rest bees c₁, Started d parts c₀ (0x4000 :: rest) bees c₁ ∧
      SetUp 0x4000 rest bees c c₁ ∧ Loaded 0x4000 rest bees c₁ := by
  have global : CORE_GLOBAL_MEMORY = 0x6000 := rfl
  have registered : Registered 0x4000 [] (prepare c₀) := .prepare start (by decide)
  have empty : Loaded 0x4000 [] [] (prepare c₀) := start ▸ loaded_prepare (by omega)
  have clearLoads :
      ∀ r ∈ loadRegions d 0x4000 (parts.length + 1) (prepare c₀) ([] : List Bee).length,
      ClearOfGlobal r := (List.forall_mem_cons.mp clear).2
  obtain ⟨rest, bees, c, loop, _, loaded, resident, low⟩ := formed.layout.load (Nat.le_refl _)
    (show (prepare c₀).lastEnd = 512 from first) registered empty (below_prepare start) .nil
    formed.whole (Nat.lt_succ_self parts.length) clearLoads
  rw [List.nil_append] at loaded resident
  rw [List.nil_append] at resident
  have manifests : bees.map Bee.manifest = parts.map Part.manifest := by
    have each := resident.imp fun _ _ h => h.manifest
    exact List.forall₂_eq_eq_eq ▸
      List.forall₂_map_left_iff.mpr (List.forall₂_map_right_iff.mpr each)
  have count : bees.length = parts.length := by simpa using congrArg List.length manifests
  obtain ⟨few, named, distinct, nonzero, nonneg, tables⟩ := formed.serves manifests
  have fits := loaded.fits
  have published : ∀ x < c.memory, (publish c).mem x = c.mem x := by
    intro x hx
    exact store_outside (by decide) (.inl (Nat.lt_of_lt_of_le hx low))
  have loaded' : Loaded 0x4000 rest bees (publish c) := loaded.above published (Nat.le_refl _) fits
  have room : (publish c).memory + nodesSize bees < 2 ^ 32 :=
    Nat.lt_of_le_of_lt (Nat.add_le_add_right low _) tables
  obtain ⟨c₁, setUp⟩ := loaded'.setUp (fun b hb => ⟨named b hb, nonneg b hb⟩) room
  have kept : ∀ x < c.memory, c₁.mem x = c.mem x := fun x hx =>
    (setUp.written x (.inl hx)).trans (published x hx)
  have loaded₁ : Loaded 0x4000 rest bees c₁ :=
    loaded.above kept (setUp.memory ▸ Nat.le_add_right _ _) (setUp.memory ▸ room)
  refine ⟨publish c, rest, bees, c₁, ⟨⟨c, _, loop _ (Nat.lt_succ_self _), setUp.run _ ?_⟩,
    loaded₁.names, manifests, resident.imp fun b p h => ?_, fun j hj => (setUp.fresh hj).baseAdr⟩,
    setUp, loaded₁⟩
  · rw [count]
    exact Nat.lt_succ_self _
  · have below := h.below
    have same : AgreeOn c.mem c₁.mem b.base p.image.length := fun x _ hi => kept x (by omega)
    exact (same.loadBytes (by omega) (Nat.le_refl _) (Nat.le_refl _)).trans h.bytes

end Start

/-! ### Two disks -/

/-- A call of `CMD` in the module `b` enters the function `offset` bytes behind the module's base,
with the `CoreData` in `node`. It is refused if that address is 0. -/
def Resolves (s : Core) (b : Bee) (node CMD offset : Nat) : Prop :=
  ∀ (run : Call → Core → Core) (arsSize dataPtr : Nat),
    if u32 (b.base + offset) = 0 then
      coreInterruptHandler run s b.id CMD arsSize dataPtr = ⟨s, [], some CORE_ERROR_NO_CMD⟩
    else ∃ (m : Mem) (args : List Nat),
      let call : Call := ⟨u32 (b.base + offset), coreData node :: args⟩
      coreInterruptHandler run s b.id CMD arsSize dataPtr =
          ⟨run call { s with mem := m }, [call], some CORE_ERROR_NONE⟩ ∧
        WritesWithin s.mem m (coreData node + 8) 8

/-- The modules with some priority, with their numbers. -/
def atPriority (bees : List Bee) (priority : Nat) : List (Bee × Nat) :=
  bees.zipIdx.filter fun x => x.1.priority = priority

/-- Their init calls. -/
def callsAt (c : Core) (bees : List Bee) (priority : Nat) : List Call :=
  (atPriority bees priority).map fun x =>
    ⟨u32 (x.1.base + x.1.init), [coreData (c.idNodes x.2)]⟩

/-- Their ids, and the offsets of their init functions. -/
def initsAt (bees : List Bee) (priority : Nat) : List (Nat × Nat) :=
  (atPriority bees priority).map fun x => (x.1.id, x.1.init)

section Served

variable {page0 : Nat} {rest : List Nat} {bees bees' : List Bee} {c c₁ s : Core} {j : Nat}

theorem ServesAll.resolves (h : ServesAll bees s) (few : bees.length ≤ MAX_BEES)
    (distinct : bees.Pairwise fun b b' => b.id ≠ b'.id) (hj : j < bees.length)
    (nonzero : bees[j].id ≠ 0) {CMD : Nat} {e : Export} (found : bees[j].lastExport CMD = some e) :
    Resolves s bees[j] (s.idNodes j) CMD e.offset := by
  intro run arsSize dataPtr
  split_ifs with zero
  · exact h.refuse few distinct hj nonzero run CMD arsSize dataPtr ((h.word hj found).trans zero)
  · obtain ⟨m, entered, _, _, written⟩ :=
      h.enters few distinct hj nonzero found zero run arsSize dataPtr
    refine ⟨m, if globalValues s.mem (s.idNodes j) = 0 then []
      else [globalValues s.mem (s.idNodes j)], ?_, written⟩
    split_ifs at entered ⊢ <;> exact entered

theorem initOrder_eq_flatMap (bytes : ∀ b ∈ bees, b.priority < 256) :
    initOrder bees = (List.range 256).flatMap (atPriority bees) := by
  rw [← buckets_zipIdx bytes, BucketSort.buckets_eq_flatMap, List.range_eq_range']
  rfl

theorem initsAt_eq (bees : List Bee) (priority : Nat) :
    initsAt bees priority = ((bees.map Bee.manifest).filter fun m => m.priority = priority).map
      fun m => (m.id, m.init) := by
  have numbered : bees.map Bee.manifest = bees.zipIdx.map fun x => x.1.manifest := by
    have fst := List.zipIdx_map_fst 0 bees
    conv_lhs => rw [← fst]
    exact List.map_map
  rw [numbered, List.filter_map, List.map_map]
  rfl

/-- What a started core does with its modules. -/
theorem WellFormed.serving {d : Disk} {parts : List Part} {c₀ : Core}
    (formed : WellFormed d parts) (started : Started d parts c₀ (page0 :: rest) bees c₁)
    (setUp : SetUp page0 rest bees c c₁) (loaded : Loaded page0 rest bees c₁) :
    (∀ (j : Nat) (hj : j < bees.length) (s : Core) (CMD : Nat) (e : Export), Later bees c₁ s →
      bees[j].lastExport CMD = some e → Resolves s bees[j] (c₁.idNodes j) CMD e.offset) ∧
    ∀ run, (∀ s call, Undisturbed (page0 :: rest) bees c₁ s →
        Undisturbed (page0 :: rest) bees c₁ (run call s)) →
      ∃ s, runInits run (parts.length + 1) c₁ page0 =
        .ok (s, (List.range 256).flatMap (callsAt c₁ bees)) := by
  obtain ⟨few, named, distinct, nonzero, _, _⟩ := formed.serves started.manifests
  have count : bees.length = parts.length := by simpa using congrArg List.length started.manifests
  refine ⟨fun j hj s CMD e later found => ?_, fun run kept => ?_⟩
  · have all := (setUp.servesAll loaded.fits).later later
    have resolves := all.resolves few distinct hj (nonzero _ (List.getElem_mem hj)) found
    rwa [later.array j hj] at resolves
  · have bytes : ∀ b ∈ bees, b.priority < 256 := fun b hb => (loaded.data b hb).priority_lt
    obtain ⟨s, ran⟩ := setUp.runInits_eq loaded named few distinct kept
      (show bees.length < parts.length + 1 by omega)
    rw [initOrder_eq_flatMap bytes, List.map_flatMap] at ran
    exact ⟨s, ran⟩

end Served

section Results

variable {d d' : Disk} {parts parts' : List Part} {c₀ c₀' : Core}

/-- Two disks with the same modules, in any order and with any gaps: every exported command
resolves to the same offset behind the module's own base, and with init functions that leave the
core's records alone, the same modules are initialised with each priority. -/
theorem placement_independent (formed : WellFormed d parts) (formed' : WellFormed d' parts')
    (same : (parts.map Part.body).Perm (parts'.map Part.body))
    (start : c₀.memory = 0x4000) (first : c₀.lastEnd = 512)
    (clear : ∀ r ∈ regionsBefore d (parts.length + 1) c₀, ClearOfGlobal r)
    (start' : c₀'.memory = 0x4000) (first' : c₀'.lastEnd = 512)
    (clear' : ∀ r ∈ regionsBefore d' (parts'.length + 1) c₀', ClearOfGlobal r) :
    ∃ pages bees c₁ pages' bees' c₁',
      Started d parts c₀ pages bees c₁ ∧ Started d' parts' c₀' pages' bees' c₁' ∧
      (∀ (i : Nat) (hi : i < bees.length), ∃ (j : Nat) (hj : j < bees'.length),
        bees'[j].manifest = bees[i].manifest ∧
        ∀ s s', Later bees c₁ s → Later bees' c₁' s' →
          ∀ CMD e, bees[i].lastExport CMD = some e →
            Resolves s bees[i] (c₁.idNodes i) CMD e.offset ∧
            Resolves s' bees'[j] (c₁'.idNodes j) CMD e.offset) ∧
      (∀ run, (∀ s call, Undisturbed pages bees c₁ s → Undisturbed pages bees c₁ (run call s)) →
        ∃ s, runInits run (parts.length + 1) c₁ 0x4000 =
          .ok (s, (List.range 256).flatMap (callsAt c₁ bees))) ∧
      (∀ run, (∀ s call, Undisturbed pages' bees' c₁' s →
        Undisturbed pages' bees' c₁' (run call s)) →
        ∃ s, runInits run (parts'.length + 1) c₁' 0x4000 =
          .ok (s, (List.range 256).flatMap (callsAt c₁' bees'))) ∧
      ∀ priority, (initsAt bees priority).Perm (initsAt bees' priority) := by
  obtain ⟨c, rest, bees, c₁, started, setUp, loaded⟩ := formed.start start first clear
  obtain ⟨c', rest', bees', c₁', started', setUp', loaded'⟩ := formed'.start start' first' clear'
  obtain ⟨calls, inits⟩ := formed.serving started setUp loaded
  obtain ⟨calls', inits'⟩ := formed'.serving started' setUp' loaded'
  have manifests : (bees.map Bee.manifest).Perm (bees'.map Bee.manifest) := by
    have images := same.map fun body => (Part.mk [] body).manifest
    rw [List.map_map, List.map_map] at images
    rw [started.manifests, started'.manifests]
    exact images
  refine ⟨_, bees, c₁, _, bees', c₁', started, started', fun i hi => ?_, inits, inits',
    fun priority => ?_⟩
  · have known : bees[i].manifest ∈ bees'.map Bee.manifest :=
      manifests.subset (List.mem_map_of_mem (List.getElem_mem hi))
    obtain ⟨b', hb', twin⟩ := List.mem_map.mp known
    obtain ⟨j, hj, rfl⟩ := List.getElem_of_mem hb'
    refine ⟨j, hj, twin, fun s s' later later' CMD e found => ⟨calls i hi s CMD e later found, ?_⟩⟩
    refine calls' j hj s' CMD e later' ?_
    have exports : bees'[j].exports = bees[i].exports := congrArg Manifest.exports twin
    rwa [Bee.lastExport, exports]
  · rw [initsAt_eq, initsAt_eq]
    exact (manifests.filter _).map _

end Results

/-! ### Two modules in both orders -/

def oneTwo : List Part := [callPart [] 1, callPart [] 2]

def twoOne : List Part := [callPart [0, 0, 0] 2, callPart [0] 1]

theorem oneTwo_formed : WellFormed (diskOf oneTwo) oneTwo where
  layout := layout_diskOf (by decide +kernel) (by decide) (by decide) (by decide +kernel)
  whole := by decide +kernel
  few := by decide
  named := by decide +kernel
  distinct := by decide +kernel
  nonzero := by decide +kernel
  nonneg := by decide +kernel
  tables := by decide +kernel

theorem twoOne_formed : WellFormed (diskOf twoOne) twoOne where
  layout := layout_diskOf (by decide +kernel) (by decide) (by decide) (by decide +kernel)
  whole := by decide +kernel
  few := by decide
  named := by decide +kernel
  distinct := by decide +kernel
  nonzero := by decide +kernel
  nonneg := by decide +kernel
  tables := by decide +kernel

theorem oneTwo_clear : ∀ r ∈ regionsBefore (diskOf oneTwo) 3 emptyCore, ClearOfGlobal r :=
  oneTwo_formed.layout.clear_before rfl rfl oneTwo_formed.whole (by decide +kernel)

theorem twoOne_clear : ∀ r ∈ regionsBefore (diskOf twoOne) 3 emptyCore, ClearOfGlobal r :=
  twoOne_formed.layout.clear_before rfl rfl twoOne_formed.whole (by decide +kernel)

theorem placement_independent_one_two : ∃ pages bees c₁ pages' bees' c₁',
    Started (diskOf oneTwo) oneTwo emptyCore pages bees c₁ ∧
    Started (diskOf twoOne) twoOne emptyCore pages' bees' c₁' ∧
    ∀ (i : Nat) (hi : i < bees.length), ∃ (j : Nat) (hj : j < bees'.length),
      bees'[j].manifest = bees[i].manifest ∧ ∀ CMD e, bees[i].lastExport CMD = some e →
        Resolves c₁ bees[i] (c₁.idNodes i) CMD e.offset ∧
        Resolves c₁' bees'[j] (c₁'.idNodes j) CMD e.offset := by
  obtain ⟨pages, bees, c₁, pages', bees', c₁', started, started', calls, _⟩ :=
    placement_independent oneTwo_formed twoOne_formed (List.Perm.swap _ _ []) rfl rfl oneTwo_clear
      rfl
      rfl twoOne_clear
  refine ⟨pages, bees, c₁, pages', bees', c₁', started, started', fun i hi => ?_⟩
  obtain ⟨j, hj, twin, resolves⟩ := calls i hi
  exact ⟨j, hj, twin, resolves c₁ c₁' (Later.refl _ _) (Later.refl _ _)⟩

/-! ### Init functions that do not leave the registry alone -/

/-- Clear the first names page. -/
def clearNames (_ : Call) (s : Core) : Core :=
  { s with mem := fun x => if 0x4000 ≤ x ∧ x < 0x4200 then 0 else s.mem x }

theorem firstChar_clearNames (call : Call) (s : Core) {i : Nat} (hi : i < 14) :
    firstChar (clearNames call s).mem 0x4000 i = 0 := by
  have address : u32 (slot 0x4000 i) = 0x4000 + 36 * i := u32_of_lt (by simp only [slot]; omega)
  rw [firstChar, load8_eq, address, clearNames]
  simp only
  rw [if_pos (by omega)]
  rfl

theorem initPasses_empty {run : Call → Core → Core} {page fuel k s : Nat} {c : Core}
    (empty : firstChar c.mem page 0 = 0) : initPasses run (fuel + 1) page k s c = .ok (c, []) := by
  induction k generalizing s with
  | zero => rfl
  | succ k ih =>
      rw [initPasses, initPass, if_pos empty]
      change (do
        let rest ← initPasses run (fuel + 1) page k (s + 1) c
        pure (rest.1, [] ++ rest.2)) = _
      rw [ih]
      rfl

/-- If every init function clears the names page, only the first module is initialised. -/
theorem Loaded.runInits_clearNames {rest : List Nat} {b : Bee} {bees : List Bee} {c : Core}
    (loaded : Loaded 0x4000 rest (b :: bees) c) (named : b.Named) (urgent : b.priority = 0) :
    ∃ s x, ∀ fuel, runInits clearNames (fuel + 2) c 0x4000 =
      .ok (s, [⟨u32 (b.base + b.init), [x]⟩]) := by
  have holds : Holds c.mem 0x4000 0 b := loaded.names.reads.slot (Nat.zero_lt_succ _) (by decide)
  have data := loaded.data b List.mem_cons_self
  have hit : priority c.mem (slotData c.mem 0x4000 0) = 0 := by
    rw [holds.data, data.priority, urgent]
  obtain ⟨x, called⟩ : ∃ x, initCall c 0x4000 0 = ⟨u32 (b.base + b.init), [x]⟩ :=
    ⟨_, by simp only [initCall, holds.data, data.init]; rfl⟩
  obtain ⟨call, made⟩ : ∃ call : Call, call = ⟨u32 (b.base + b.init), [x]⟩ := ⟨_, rfl⟩
  rw [← made] at called
  refine ⟨clearNames call c, x, fun fuel => ?_⟩
  have pass : initPass clearNames 0 (fuel + 2) c 0x4000 0 =
      .ok (clearNames call c, [call], [.probe 0x4000 0, .visit 0x4000 0, .probe 0x4000 1]) := by
    have stop : initPass clearNames 0 (fuel + 1) (clearNames call c) 0x4000 1 =
        .ok (clearNames call c, [], [.probe 0x4000 1]) := by
      rw [initPass, if_pos (firstChar_clearNames call c (by decide))]
    rw [initPass, if_neg (holds.firstChar_ne named)]
    simp only [hit, called, if_true, Nat.zero_add, stop]
    rfl
  have passes : ∀ k, initPasses clearNames (fuel + 2) 0x4000 (k + 1) 0 c =
      .ok (clearNames call c, [call]) := by
    intro k
    have later : initPasses clearNames (fuel + 2) 0x4000 k 1 (clearNames call c) =
        .ok (clearNames call c, []) :=
      initPasses_empty (firstChar_clearNames call c (by decide))
    rw [initPasses, pass]
    change (do
      let rest ← initPasses clearNames (fuel + 2) 0x4000 k 1 (clearNames call c)
      pure (rest.1, [call] ++ rest.2)) = _
    rw [later]
    rfl
  exact made ▸ passes 255

/-- So it depends on the order on the disk which one that is. -/
theorem WellFormed.only_first {d : Disk} {p : Part} {ps : List Part} {c₀ : Core}
    (formed : WellFormed d (p :: ps)) (start : c₀.memory = 0x4000) (first : c₀.lastEnd = 512)
    (clear : ∀ r ∈ regionsBefore d (ps.length + 1 + 1) c₀, ClearOfGlobal r)
    (urgent : p.manifest.priority = 0) : ∃ pages b bees c₁ s x,
    Started d (p :: ps) c₀ pages (b :: bees) c₁ ∧ b.manifest = p.manifest ∧
      ∀ fuel, runInits clearNames (fuel + 2) c₁ 0x4000 =
        .ok (s, [⟨u32 (b.base + b.init), [x]⟩]) := by
  obtain ⟨c, rest, bees, c₁, started, _, loaded⟩ := formed.start start first clear
  obtain ⟨_, named, _⟩ := formed.serves started.manifests
  cases bees with
  | nil => exact absurd started.manifests (List.cons_ne_nil _ _).symm
  | cons b bees =>
      have twin : b.manifest = p.manifest := (List.cons.inj started.manifests).1
      obtain ⟨s, x, ran⟩ := loaded.runInits_clearNames (named b List.mem_cons_self)
        ((congrArg Manifest.priority twin).trans urgent)
      exact ⟨_, b, bees, c₁, s, x, started, twin, ran⟩

/-- The same init functions, on two disks with the same modules: once only module 1 is
initialised, and once only module 2. -/
theorem inits_depend_on_order : ∃ pages b bees c₁ pages' b' bees' c₁' s x s' x',
    Started (diskOf oneTwo) oneTwo emptyCore pages (b :: bees) c₁ ∧ b.id = 1 ∧
    Started (diskOf twoOne) twoOne emptyCore pages' (b' :: bees') c₁' ∧ b'.id = 2 ∧
    runInits clearNames 3 c₁ 0x4000 = .ok (s, [⟨u32 (b.base + b.init), [x]⟩]) ∧
    runInits clearNames 3 c₁' 0x4000 = .ok (s', [⟨u32 (b'.base + b'.init), [x']⟩]) := by
  obtain ⟨pages, b, bees, c₁, s, x, started, twin, ran⟩ :=
    oneTwo_formed.only_first rfl rfl oneTwo_clear (by decide +kernel)
  obtain ⟨pages', b', bees', c₁', s', x', started', twin', ran'⟩ :=
    twoOne_formed.only_first rfl rfl twoOne_clear (by decide +kernel)
  have one : (callPart [] 1).manifest.id = 1 := by decide +kernel
  have two : (callPart [0, 0, 0] 2).manifest.id = 2 := by decide +kernel
  exact ⟨pages, b, bees, c₁, pages', b', bees', c₁', s, x, s', x', started,
    (congrArg Manifest.id twin).trans one, started', (congrArg Manifest.id twin').trans two, ran 1,
    ran' 1⟩

end HiveRK.Queen
