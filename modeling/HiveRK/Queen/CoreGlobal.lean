import HiveRK.Queen.Integrity

/-!
# The word at `CORE_GLOBAL_MEMORY`

`main` stores the address of `core_interrupt_handler` at a fixed place above `MEMORY`, and
nothing keeps what is carved from reaching that place. The regions are taken here from the
load loop as it runs, whatever the images say of themselves.
-/

namespace HiveRK.Queen

open Machine Bump

/-! ### What a round carves -/

/-- The sectors of the image that the next scan loads. -/
def imageRegion (d : Disk) (c : Core) : Region Kind :=
  let start := findBee d c.lastEnd SEARCH_LIMIT
  let stop := u32 (findBee d (u32 (start + 4)) SEARCH_LIMIT + 4)
  ⟨.image, c.memory, 512 * memoryUsed start stop⟩

/-- The data page that `makeBeeData` fills, with as many entries as its loop takes. -/
def dataRegion (c : Core) (buf : Nat) : Region Kind :=
  ⟨.dataPage, c.memory,
    18 + 8 * (fillExports buf c.memory (2 ^ 31) 0 (fillHeader c.mem buf c.memory)).2⟩

/-- The pages that `addNameToPage` carves on its way from `page`. -/
def namesRegions (c : Core) (page index : Nat) : List (Region Kind) :=
  if index > 13 then
    let carved := if nextPage c.mem page = 0 then [⟨.namesPage, c.memory, 512⟩] else []
    let c := extendPage c page
    carved ++ namesRegions c (nextPage c.mem page) (index - 14)
  else []
termination_by index

def roundRegions (d : Disk) (page0 n : Nat) (c : Core) : List (Region Kind) :=
  imageRegion d c :: dataRegion (beeScanAndLoad d c).1 (beeScanAndLoad d c).2 ::
    namesRegions (madeCore d c) page0 n

/-- What `loadLoop` carves. -/
def loadRegions (d : Disk) (page0 : Nat) : Nat → Core → Nat → List (Region Kind)
  | 0, _, _ => []
  | fuel + 1, c, n =>
      if (beeScanAndLoad d c).2 = 0 then []
      else roundRegions d page0 n c ++ loadRegions d page0 fuel (loadRound d page0 n c) (n + 1)

/-- What a region takes from `MEMORY`: `makeBeeData` rounds a data page up to sectors. -/
def taken (r : Region Kind) : Nat :=
  match r.kind with
  | .dataPage => (r.size + 511) / 512 * 512
  | _ => r.size

/-- The word at `CORE_GLOBAL_MEMORY` is outside the region. -/
def ClearOfGlobal (r : Region Kind) : Prop :=
  ∀ x, CORE_GLOBAL_MEMORY ≤ x → x < CORE_GLOBAL_MEMORY + 4 → ¬ r.Has x

section Writes

variable {m : Mem} {buf data : Nat}

theorem fillHeader_written (m : Mem) (buf : Nat) (fits : data + 18 ≤ 2 ^ 32) :
    WritesWithin m (fillHeader m buf data) data 18 := by
  have written := WritesWithin.refl m data 18
  simp only [fillHeader]
  iterate 5 refine WritesWithin.andStore ?_ (by omega) (by omega) (by omega)
  exact written

/-- The loop writes the entries that it takes. -/
theorem fillExports_written {k i : Nat}
    (fits : data + 18 + 8 * (fillExports buf data k i m).2 ≤ 2 ^ 32) :
    i ≤ (fillExports buf data k i m).2 ∧ WritesWithin m (fillExports buf data k i m).1 (data + 18)
      (8 * (fillExports buf data k i m).2) := by
  induction k generalizing i m with
  | zero => exact ⟨Nat.le_refl _, WritesWithin.refl _ _ _⟩
  | succ k ih =>
      rw [fillExports] at fits ⊢
      split_ifs at fits ⊢ with more
      · dsimp only at fits ⊢
        obtain ⟨next, written⟩ := ih fits
        refine ⟨by omega, .trans ?_ written⟩
        exact (WritesWithin.store (by omega) (by omega) (by omega)).andStore (by omega) (by omega)
          (by omega)
      · exact ⟨Nat.le_refl _, WritesWithin.refl _ _ _⟩

/-- `makeBeeData` writes to its page, as long as the page is small. -/
theorem makeBeeData_written {c : Core} (small : c.memory + (dataRegion c buf).size + 511 < 2 ^ 32) :
    ∃ m, makeBeeData c buf = ({ c with mem := m, memory := c.memory + taken (dataRegion c buf) },
        c.memory) ∧
      WritesWithin c.mem m c.memory (dataRegion c buf).size := by
  have header : c.memory + 18 ≤ 2 ^ 32 := by
    simp only [dataRegion] at small
    omega
  have entries : c.memory + 18 + 8 *
      (fillExports buf c.memory (2 ^ 31) 0 (fillHeader c.mem buf c.memory)).2 ≤ 2 ^ 32 := by
    simp only [dataRegion] at small
    omega
  have written₁ := fillHeader_written c.mem buf header
  obtain ⟨_, written₂⟩ := fillExports_written entries
  simp only [makeBeeData, taken, dataRegion] at small ⊢
  generalize fillExports buf c.memory (2 ^ 31) 0 (fillHeader c.mem buf c.memory) = filled at *
  have size : u32 (18 + 8 * filled.2) = 18 + 8 * filled.2 := u32_of_lt (by omega)
  have round : sectorRound (18 + 8 * filled.2) = (18 + 8 * filled.2 + 511) / 512 * 512 := by
    rw [sectorRound, u32_of_lt (by omega)]
  have bump : u32 (c.memory + (18 + 8 * filled.2 + 511) / 512 * 512) =
      c.memory + (18 + 8 * filled.2 + 511) / 512 * 512 := u32_of_lt (by omega)
  refine ⟨_, by rw [size, round, bump], ?_⟩
  exact ((written₁.mono (Nat.le_refl _) (by omega)).trans
    (written₂.mono (by omega) (by omega))).andStore (by omega) (by omega) (by omega)

/-- A scan that returns an address carved the image and wrote to nothing else. -/
theorem beeScanAndLoad_written {d : Disk} {c : Core} (found : (beeScanAndLoad d c).2 ≠ 0)
    (room : c.memory + (imageRegion d c).size < 2 ^ 32) :
    (beeScanAndLoad d c).1.memory = c.memory + (imageRegion d c).size ∧
      WritesWithin c.mem (beeScanAndLoad d c).1.mem c.memory (imageRegion d c).size := by
  simp only [beeScanAndLoad, imageRegion] at found room ⊢
  generalize findBee d c.lastEnd SEARCH_LIMIT = start at *
  generalize u32 (findBee d (u32 (start + 4)) SEARCH_LIMIT + 4) = stop at *
  by_cases none : start = 0
  · rw [if_pos none] at found
    exact absurd rfl found
  rw [if_neg none] at found ⊢
  rw [loadModule] at found ⊢
  by_cases half : stop = 0
  · rw [if_pos half] at found
    exact absurd rfl found
  rw [if_neg half] at found ⊢
  have written := readSectors_written d (start / 512) c.mem (b := c.memory)
    (k := memoryUsed start stop) (by omega)
  generalize readSectors d (start / 512) c.memory (memoryUsed start stop) c.mem = read at *
  obtain ⟨m, ok⟩ := read
  cases ok with
  | false => exact absurd rfl found
  | true => exact ⟨u32_of_lt room, written⟩

end Writes

/-! ### The load loop below the word -/

/-- The names pages are in order, and all that was carved lies below the word. Nothing is
said of images and data pages. -/
structure Below (n : Nat) (c : Core) : Prop where
  names : ∃ rest bees, bees.length = n ∧ NamesAt c.mem (0x4000 :: rest) bees ∧
    (0x4000 :: rest).Pairwise (fun p q => p + 512 ≤ q) ∧
    ∀ p ∈ 0x4000 :: rest, p + 512 ≤ c.memory
  sectors : c.memory % 512 = 0
  low : c.memory ≤ CORE_GLOBAL_MEMORY

section Rounds

variable {d : Disk} {c c' : Core} {n : Nat}

/-- A page is carved where the list grows. -/
theorem namesRegions_eq {c : Core} {page : Nat} {rest : List Nat} {bees : List Bee}
    (names : NamesAt c.mem (page :: rest) bees) :
    namesRegions c page bees.length =
      if Grows bees.length then [⟨.namesPage, c.memory, 512⟩] else [] := by
  induction rest generalizing page bees with
  | nil =>
      obtain ⟨short, _, _, last⟩ := names
      by_cases full : bees.length = 14
      · have stop : ∀ c page, namesRegions c page (14 - 14) = [] := by
          intro c page
          rw [namesRegions, if_neg (by decide)]
        rw [full, namesRegions, if_pos (by decide), if_pos (show Grows 14 by decide)]
        simp only [if_pos last, stop, List.append_nil]
      · have stays : ¬ Grows bees.length := by
          rintro ⟨_, _⟩
          omega
        rw [namesRegions, if_neg (by omega), if_neg stays]
  | cons next rest ih =>
      obtain ⟨long, _, link, nonzero, tail⟩ := names
      have linked : nextPage c.mem page ≠ 0 := link ▸ nonzero
      have behind := ih tail
      have same : Grows (bees.length - 14) ↔ Grows bees.length := by
        simp only [Grows]
        omega
      rw [List.length_drop, if_congr same rfl rfl] at behind
      have stays : extendPage c page = c := if_neg linked
      rw [namesRegions, if_pos (by omega)]
      simp only [stays, link, if_neg nonzero, List.nil_append]
      exact behind

theorem Below.elsewhere (h : Below n c) (kept : ∀ x < c.memory, c'.mem x = c.mem x)
    (grown : c.memory ≤ c'.memory) (sectors : c'.memory % 512 = 0)
    (low : c'.memory ≤ CORE_GLOBAL_MEMORY) : Below n c' := by
  obtain ⟨⟨rest, bees, count, names, apart, below⟩, _, high⟩ := h
  have global : CORE_GLOBAL_MEMORY = 0x6000 := rfl
  refine ⟨⟨rest, bees, count, names.agree ?_ ?_, apart, ?_⟩, sectors, low⟩
  · intro p hp x _ hi
    have := below p hp
    exact kept x (by omega)
  · intro p hp
    have := below p hp
    omega
  · exact fun p hp => Nat.le_trans (below p hp) grown

/-- All that was carved lies below the word. -/
def Low (c : Core) : Prop := c.memory ≤ CORE_GLOBAL_MEMORY

theorem taken_ge (r : Region Kind) : r.size ≤ taken r := by
  unfold taken
  split <;> omega

/-- The regions are carved on the way from `c` to `c'`. If they fit below the word, `c'` has
the property `P`. -/
structure Carves (P : Core → Prop) (c : Core) (rs : List (Region Kind)) (c' : Core) : Prop where
  stacked : Stacked taken CORE_GLOBAL_MEMORY c.memory rs
  after : c.memory + carvedSize taken rs ≤ CORE_GLOBAL_MEMORY →
    P c' ∧ c'.memory = c.memory + carvedSize taken rs

section Carves

variable {P Q : Core → Prop} {c'' : Core} {rs rs' : List (Region Kind)}

theorem Carves.none (holds : P c') (same : c'.memory = c.memory) : Carves P c [] c' :=
  ⟨trivial, fun _ => ⟨holds, same⟩⟩

theorem Carves.trans (h : Carves P c rs c') (h' : P c' → Carves Q c' rs' c'')
    (low : c.memory ≤ CORE_GLOBAL_MEMORY) : Carves Q c (rs ++ rs') c'' := by
  refine ⟨h.stacked.append low fun fits => ?_, fun fits => ?_⟩
  · obtain ⟨holds, top⟩ := h.after fits
    rw [← top]
    exact (h' holds).stacked
  · rw [carvedSize_append, ← Nat.add_assoc] at fits
    obtain ⟨holds, top⟩ := h.after (Nat.le_trans (Nat.le_add_right _ _) fits)
    rw [← top] at fits
    obtain ⟨holds', top'⟩ := (h' holds).after fits
    exact ⟨holds', by rw [top', top, carvedSize_append, Nat.add_assoc]⟩

theorem Carves.single {r : Region Kind} (start : r.start = c.memory)
    (passes : CORE_GLOBAL_MEMORY < c.memory + taken r → CORE_GLOBAL_MEMORY < c.memory + r.size)
    (after : c.memory + taken r ≤ CORE_GLOBAL_MEMORY → P c' ∧ c'.memory = c.memory + taken r) :
    Carves P c [r] c' :=
  ⟨⟨start, taken_ge r, passes, fun _ => trivial⟩, after⟩

/-- No region has the word exactly if they all fit below it. -/
theorem Carves.clear_iff (h : Carves P c rs c') (low : c.memory ≤ CORE_GLOBAL_MEMORY) :
    (∀ r ∈ rs, ClearOfGlobal r) ↔ c.memory + carvedSize taken rs ≤ CORE_GLOBAL_MEMORY := by
  constructor
  · intro clear
    refine (h.stacked.clear_iff low).mp fun r hr => ?_
    exact clear r hr _ (Nat.le_refl _) (Nat.lt_add_of_pos_right (by decide))
  · intro fits r hr x lo _ has
    have below := h.stacked.below fits r hr
    exact Nat.lt_irrefl _ (Nat.lt_of_lt_of_le has.2 (Nat.le_trans below lo))

end Carves

theorem Below.scan (h : Below n c) (found : (beeScanAndLoad d c).2 ≠ 0) :
    Carves (Below n) c [imageRegion d c] (beeScanAndLoad d c).1 := by
  have global : CORE_GLOBAL_MEMORY = 0x6000 := rfl
  have image : taken (imageRegion d c) = (imageRegion d c).size := rfl
  have size : (imageRegion d c).size % 512 = 0 := Nat.mul_mod_right _ _
  have aligned := h.sectors
  refine .single rfl (fun passes => image ▸ passes) fun fits => ?_
  obtain ⟨top, written⟩ := beeScanAndLoad_written found (by omega)
  exact ⟨h.elsewhere (fun x hx => written x (.inl hx)) (by omega) (by omega) (by omega), top⟩

/-- The word starts a sector, so a data page that takes that sector has bytes there. -/
theorem Below.make (h : Below n c) (buf : Nat) :
    Carves (Below n) c [dataRegion c buf] (makeBeeData c buf).1 := by
  have global : CORE_GLOBAL_MEMORY = 0x6000 := rfl
  have size : taken (dataRegion c buf) = ((dataRegion c buf).size + 511) / 512 * 512 := rfl
  have aligned := h.sectors
  refine .single rfl (fun passes => by omega) fun fits => ?_
  obtain ⟨m, made, written⟩ := makeBeeData_written
    (show c.memory + (dataRegion c buf).size + 511 < 2 ^ 32 by omega)
  rw [made]
  refine ⟨h.elsewhere (fun x hx => written x (.inl hx)) ?_ ?_ fits, rfl⟩
  · exact Nat.le_add_right _ _
  · simp only
    omega

theorem Below.add (h : Below n c) {name : List Byte} {data : Nat} (long : name.length = 32)
    (word : data < 2 ^ 32) :
    Carves (Below (n + 1)) c (namesRegions c 0x4000 n) (addNameToPage c 0x4000 n ⟨name, data⟩) := by
  have global : CORE_GLOBAL_MEMORY = 0x6000 := rfl
  obtain ⟨⟨rest, bees, rfl, names, apart, below⟩, sectors, low⟩ := h
  obtain ⟨m, added, names', written⟩ := addNameToPage_spec (b := ⟨name, data, 0, 0, 0, 0, 0, []⟩)
    names apart below (by omega) long word
  rw [namesRegions_eq names, added]
  by_cases grows : Grows bees.length
  · rw [pagesAfter, if_pos grows] at names'
    simp only [if_pos grows]
    refine .single rfl id fun fits => ⟨⟨⟨rest ++ [c.memory], _, List.length_append, names', ?_, ?_⟩,
      ?_, fits⟩, rfl⟩
    · rw [← List.cons_append]
      refine List.pairwise_append.mpr ⟨apart, List.pairwise_singleton _ _, fun p hp q hq => ?_⟩
      obtain rfl := List.mem_singleton.mp hq
      exact below p hp
    · intro p hp
      rw [← List.cons_append] at hp
      obtain hp | hp := List.mem_append.mp hp
      · exact Nat.le_trans (below p hp) (Nat.le_add_right _ _)
      · obtain rfl := List.mem_singleton.mp hp
        exact Nat.le_refl _
    · simp only
      omega
  · rw [pagesAfter, if_neg grows] at names'
    simp only [if_neg grows]
    exact .none ⟨⟨rest, _, List.length_append, names', apart, below⟩, sectors, low⟩ rfl

theorem makeBeeData_data (c : Core) (buf : Nat) : (makeBeeData c buf).2 = c.memory := rfl

theorem Below.round (h : Below n c) (found : (beeScanAndLoad d c).2 ≠ 0) :
    Carves (Below (n + 1)) c (roundRegions d 0x4000 n c) (loadRound d 0x4000 n c) := by
  have global : CORE_GLOBAL_MEMORY = 0x6000 := rfl
  rw [roundRegions, ← List.singleton_append, ← List.singleton_append (l := namesRegions _ _ _)]
  refine (h.scan found).trans (fun h₁ => ?_) h.low
  refine (h₁.make _).trans (fun h₂ => h₂.add (loadBytes_length _ _ _) ?_) h₁.low
  have low := h₁.low
  rw [makeBeeData_data]
  omega

/-- A scan that returns no address leaves `MEMORY` alone. -/
theorem beeScanAndLoad_memory (none : (beeScanAndLoad d c).2 = 0) (positive : 0 < c.memory)
    (room : c.memory + 512 < 2 ^ 32) : (beeScanAndLoad d c).1.memory = c.memory := by
  simp only [beeScanAndLoad] at none ⊢
  generalize findBee d c.lastEnd SEARCH_LIMIT = start at *
  generalize u32 (findBee d (u32 (start + 4)) SEARCH_LIMIT + 4) = stop at *
  have address : u32 (c.memory + start % 512) = c.memory + start % 512 := u32_of_lt (by omega)
  rw [loadModule] at none ⊢
  generalize readSectors d (start / 512) c.memory (memoryUsed start stop) c.mem = read at *
  obtain ⟨m, ok⟩ := read
  cases ok with
  | false =>
      dsimp only
      split_ifs <;> rfl
  | true =>
      simp only [address] at none ⊢
      split_ifs at none ⊢
      · rfl
      · rfl
      · omega

/-- The whole load loop. -/
theorem Below.loop {fuel : Nat} (h : Below n c) (run : loadLoop d 0x4000 fuel c n = .ok c') :
    Carves Low c (loadRegions d 0x4000 fuel c n) c' := by
  induction fuel generalizing c n with
  | zero => exact nomatch run
  | succ fuel ih =>
      rw [loadLoop] at run
      rw [loadRegions]
      by_cases none : (beeScanAndLoad d c).2 = 0
      · simp only [if_pos none] at run ⊢
        obtain rfl := Except.ok.inj run
        have global : CORE_GLOBAL_MEMORY = 0x6000 := rfl
        have low := h.low
        obtain ⟨_, _, _, _, _, below⟩ := h.names
        have first := below _ List.mem_cons_self
        have same := beeScanAndLoad_memory none (by omega) (by omega)
        exact .none (by rw [Low, same]; exact low) same
      · simp only [if_neg none] at run ⊢
        exact (h.round none).trans (fun next => ih next run) h.low

end Rounds

/-! ### What is carved after the store -/

section After

variable {c : Core}

/-- A node or storage takes just its bytes. -/
theorem Carves.bytes {c' : Core} {r : Region Kind} (kind : r.kind ≠ .dataPage)
    (start : r.start = c.memory) (top : c'.memory = u32 (c.memory + r.size)) :
    Carves Low c [r] c' := by
  have exact : taken r = r.size := by
    unfold taken
    split
    · contradiction
    · rfl
  have global : CORE_GLOBAL_MEMORY = 0x6000 := rfl
  refine .single start (fun passes => by rwa [exact] at passes) fun fits => ?_
  rw [exact] at fits ⊢
  have memory : c'.memory = c.memory + r.size := top.trans (u32_of_lt (by omega))
  exact ⟨by rw [Low, memory]; exact fits, memory⟩

theorem carves_nodes {index : Nat} {places : List (Nat × Nat)} (low : Low c) :
    Carves Low c ((nodeSteps c index places).filterMap Step.carved)
      (setupNodes c index places) := by
  induction places generalizing c index with
  | nil => exact .none low rfl
  | cons at_ places ih =>
      obtain ⟨page, i⟩ := at_
      have top : (setupNode c page i index).memory =
          u32 (c.memory + (nodeRegion c page i).size) := by
        simp only [setupNode, nodeRegion, Int.mul_comm 4, Int.add_comm 28]
      rw [setupNodes, nodeSteps]
      generalize setupNode c page i index = c' at *
      have node : Carves Low c [nodeRegion c page i] c' :=
        .bytes (show Kind.idNode ≠ .dataPage by decide) rfl top
      exact node.trans (fun low => ih low) low

theorem carves_allocs {calls : List (Nat × Nat)} (low : Low c) :
    Carves Low c ((allocSteps c calls).filterMap Step.carved) (allocs c calls) := by
  induction calls generalizing c with
  | nil => exact .none low rfl
  | cons call calls ih =>
      obtain ⟨size, data⟩ := call
      have storage : Carves Low c [⟨.storage, c.memory, size⟩] (alloc c size data) :=
        .bytes (show Kind.storage ≠ .dataPage by decide) rfl rfl
      exact storage.trans (fun low => ih low) low

end After

/-! ### What the images take -/

section Images

variable {d : Disk} {c : Core} {start stop a page0 : Nat} {bees : List Bee} {ps : List Part}

theorem Loadable.imageRegion_eq (next : Loadable d c start stop) :
    imageRegion d c = ⟨.image, c.memory, 512 * memoryUsed start stop⟩ := by
  have finish : u32 (findBee d (u32 (start + 4)) SEARCH_LIMIT + 4) = stop := by
    rw [u32_of_lt next.startFits, next.last, u32_of_lt next.stopFits]
  simp only [imageRegion, next.first, finish]

/-- A whole export list is taken. -/
theorem Loadable.dataRegion_eq (next : Loadable d c start stop) :
    dataRegion (beeScanAndLoad d c).1 (beeScanAndLoad d c).2 =
      ⟨.dataPage, (beeScanAndLoad d c).1.memory, (loadedBee d c).pageSize⟩ := by
  have inside := next.inside
  have room := next.room
  have top := next.memory
  have base : (loadedBee d c).base = (beeScanAndLoad d c).2 := rfl
  have count := imageBee_count (beeScanAndLoad d c).1.mem (beeScanAndLoad d c).2
    (beeScanAndLoad d c).1.memory
  rw [Bee.pageSize] at room
  rw [base] at inside
  rw [← loadedBee] at count
  obtain ⟨_, _, _, _, _, taken⟩ := fillHeader_spec (m := (beeScanAndLoad d c).1.mem)
    (show (beeScanAndLoad d c).2 + 46 ≤ (beeScanAndLoad d c).1.memory ∨
      (beeScanAndLoad d c).1.memory + 18 ≤ (beeScanAndLoad d c).2 by omega) (by omega) (by omega)
  obtain ⟨m, run, _⟩ := fillExports_spec (k := 2 ^ 31) (i := 0) (taken.trans count.symm)
    (.inl (show (beeScanAndLoad d c).2 + 46 + 8 * (loadedBee d c).exports.length ≤
      (beeScanAndLoad d c).1.memory by omega)) (by omega) (by omega) (Nat.zero_le _) (by omega)
  rw [dataRegion, run, Bee.pageSize]

theorem Loadable.carvedSize_round (next : Loadable d c start stop)
    (registered : Registered page0 bees c) :
    carvedSize taken (roundRegions d page0 bees.length c) = 512 * memoryUsed start stop +
      sectorRound (loadedBee d c).pageSize + if Grows bees.length then 512 else 0 := by
  have room := next.room
  have top := next.memory
  obtain ⟨rest, loaded⟩ := registered.loaded
  obtain ⟨_, _, names, _⟩ := next.added loaded
  have round : sectorRound (loadedBee d c).pageSize =
      ((loadedBee d c).pageSize + 511) / 512 * 512 := by
    rw [sectorRound, u32_of_lt (by omega)]
  rw [roundRegions, next.imageRegion_eq, next.dataRegion_eq, namesRegions_eq names,
    carvedSize_cons, carvedSize_cons, round]
  split_ifs <;> simp only [taken, carvedSize_cons, carvedSize_nil] <;> omega

/-- On a laid out disk the load loop carves what the images demand. -/
theorem Layout.carvedSize_load {fuel : Nat} (h : Layout d a ps) (low : 512 ≤ a)
    (last : c.lastEnd = a) (registered : Registered page0 bees c) (whole : ∀ p ∈ ps, p.Whole)
    (room : c.memory + demand bees.length a ps + 1024 ≤ 2 ^ 32) (hfuel : ps.length < fuel) :
    carvedSize taken (loadRegions d page0 fuel c bees.length) = demand bees.length a ps := by
  induction ps generalizing a c bees fuel with
  | nil =>
      obtain ⟨fuel, rfl⟩ : ∃ k, fuel = k + 1 := ⟨fuel - 1, by omega⟩
      have none : (beeScanAndLoad d c).2 = 0 := (h.scan_ends last).1
      rw [loadRegions, if_pos none]
      rfl
  | cons p ps ih =>
      obtain ⟨fuel, rfl⟩ : ∃ k, fuel = k + 1 := ⟨fuel - 1, by omega⟩
      obtain ⟨next, _, stop, top, demanded⟩ :=
        h.round low last registered (whole p List.mem_cons_self)
          (h.room_of_demand (whole p List.mem_cons_self) room)
      have more : (bees ++ [loadedBee d c]).length = bees.length + 1 := List.length_append
      have rest := ih h.tail (by omega) stop (registered.load next)
        (fun q hq => whole q (List.mem_cons_of_mem _ hq)) (by rw [more]; omega)
        (show ps.length < fuel by simpa using hfuel)
      rw [more] at rest
      rw [loadRegions, if_neg next.read, carvedSize_append, next.carvedSize_round registered, rest,
        demanded]

end Images

/-! ### The whole start of `main` -/

section Results

variable {d : Disk} {c₀ c c₁ : Core} {fuel : Nat}

/-- What is carved before the store: the first names page, and what the load loop carves. -/
def regionsBefore (d : Disk) (fuel : Nat) (c₀ : Core) : List (Region Kind) :=
  ⟨.namesPage, c₀.memory, 512⟩ :: loadRegions d 0x4000 fuel (prepare c₀) 0

/-- What is carved behind it: the id nodes, and what `alloc` hands out. -/
def regionsAfter (c c₁ : Core) (events : List Event) (calls : List (Nat × Nat)) :
    List (Region Kind) :=
  (nodeSteps (publish c) 0 (visits events) ++ allocSteps c₁ calls).filterMap Step.carved

theorem below_prepare (start : c₀.memory = 0x4000) : Below 0 (prepare c₀) := by
  have room : c₀.memory + 512 < 2 ^ 32 := by omega
  have loaded := loaded_prepare room
  have memory : (prepare c₀).memory = c₀.memory + 512 := u32_of_lt room
  rw [start] at loaded memory
  refine ⟨⟨[], [], rfl, loaded.names, loaded.pagesApart, loaded.pagesBelow⟩, ?_, ?_⟩
  · rw [memory]
  · rw [memory]
    decide

theorem carves_before (start : c₀.memory = 0x4000)
    (loaded : loadLoop d 0x4000 fuel (prepare c₀) 0 = .ok c) :
    Carves Low c₀ (regionsBefore d fuel c₀) c := by
  have below := below_prepare start
  have low : c₀.memory ≤ CORE_GLOBAL_MEMORY := by
    rw [start]
    decide
  have first : Carves (Below 0) c₀ [⟨.namesPage, c₀.memory, 512⟩] (prepare c₀) := by
    refine .single rfl id fun _ => ⟨below, ?_⟩
    exact u32_of_lt (by omega)
  exact first.trans (fun _ => below.loop loaded) low

/-- The word at `CORE_GLOBAL_MEMORY` is outside of all that is carved, and the store leaves the
regions carved before it as they are, exactly if no more than 8192 bytes are carved. -/
theorem core_global_iff (start : c₀.memory = 0x4000)
    (loaded : loadLoop d 0x4000 fuel (prepare c₀) 0 = .ok c) {fuel' : Nat} {events : List Event}
    (setup : setupLookupArray fuel' (publish c) 0x4000 0 = .ok (c₁, events))
    (calls : List (Nat × Nat)) :
    ((∀ r ∈ regionsBefore d fuel c₀, ClearOfGlobal r) ∧
      (∀ r ∈ regionsBefore d fuel c₀, ∀ x, r.Has x → (publish c).mem x = c.mem x) ∧
      ∀ r ∈ regionsAfter c c₁ events calls, ClearOfGlobal r) ↔
    carvedSize taken (regionsBefore d fuel c₀ ++ regionsAfter c c₁ events calls) ≤ 8192 := by
  have low : c₀.memory ≤ CORE_GLOBAL_MEMORY := by
    rw [start]
    decide
  have after : Low (publish c) → Carves Low (publish c) (regionsAfter c c₁ events calls)
      (allocs c₁ calls) := by
    intro low
    rw [regionsAfter, List.filterMap_append]
    refine (carves_nodes low).trans (fun low => ?_) low
    rw [← setupLookupArray_nodes setup] at low ⊢
    exact carves_allocs low
  have whole : Carves Low c₀ (regionsBefore d fuel c₀ ++ regionsAfter c c₁ events calls)
      (allocs c₁ calls) := by
    -- The store moves nothing.
    have before := carves_before start loaded
    have stored : Carves Low c₀ (regionsBefore d fuel c₀) (publish c) :=
      ⟨before.stacked, before.after⟩
    exact stored.trans after low
  have clear := whole.clear_iff low
  rw [List.forall_mem_append, start] at clear
  have total : 0x4000 +
      carvedSize taken (regionsBefore d fuel c₀ ++ regionsAfter c c₁ events calls) ≤
      CORE_GLOBAL_MEMORY ↔
      carvedSize taken (regionsBefore d fuel c₀ ++ regionsAfter c c₁ events calls) ≤ 8192 := by
    have global : CORE_GLOBAL_MEMORY = 0x6000 := rfl
    omega
  rw [← total, ← clear]
  refine ⟨fun h => ⟨h.1, h.2.2⟩, fun h => ⟨h.1, fun r hr x has => ?_, h.2⟩⟩
  refine store_outside (by decide) ?_
  by_contra inside
  exact h.1 r hr x (by omega) (by omega) has

/-- On a laid out disk the first part of this is known from the images. -/
theorem Layout.carvedSize_before {parts : List Part} (layout : Layout d 512 parts)
    (start : c₀.memory = 0x4000) (first : c₀.lastEnd = 512) (whole : ∀ p ∈ parts, p.Whole)
    (room : 0x4200 + demand 0 512 parts + 1024 ≤ 2 ^ 32) (hfuel : parts.length < fuel) :
    carvedSize taken (regionsBefore d fuel c₀) = 512 + demand 0 512 parts := by
  have registered : Registered 0x4000 [] (prepare c₀) := .prepare start (by decide)
  have memory : (prepare c₀).memory = 0x4200 := by
    simp only [prepare, start]
    rfl
  have loads := layout.carvedSize_load (Nat.le_refl _) (show (prepare c₀).lastEnd = 512 from first)
    registered whole (by rw [memory]; exact room) hfuel
  rw [regionsBefore, carvedSize_cons]
  exact congrArg _ loads

/-- Images that demand little enough leave the word alone. -/
theorem Layout.clear_before {parts : List Part} (layout : Layout d 512 parts)
    (start : c₀.memory = 0x4000) (first : c₀.lastEnd = 512) (whole : ∀ p ∈ parts, p.Whole)
    (small : 512 + demand 0 512 parts ≤ 8192) :
    ∀ r ∈ regionsBefore d (parts.length + 1) c₀, ClearOfGlobal r := by
  have memory : (prepare c₀).memory = 0x4200 := by
    simp only [prepare, start]
    rfl
  have loading : Loading d 0x4000 _ [] (prepare c₀) := .prepare start (by decide)
  obtain ⟨_, _, c, _, _, _, loop⟩ := loading.layout layout (Nat.le_refl _) first whole (by
    simp only [memory, List.length_nil]
    omega)
  have low : c₀.memory ≤ CORE_GLOBAL_MEMORY := by
    rw [start]
    decide
  have size := layout.carvedSize_before start first whole (by omega)
    (Nat.lt_succ_self parts.length)
  refine ((carves_before start (loop _ (Nat.lt_succ_self _))).clear_iff low).mpr ?_
  have global : CORE_GLOBAL_MEMORY = 0x6000 := rfl
  omega

end Results

theorem core_global_iff_split_pair : ∃ c c₁ events,
    loadLoop (diskOf splitPair) 0x4000 3 (prepare emptyCore) 0 = .ok c ∧
    setupLookupArray 3 (publish c) 0x4000 0 = .ok (c₁, events) ∧
    (((∀ r ∈ regionsBefore (diskOf splitPair) 3 emptyCore, ClearOfGlobal r) ∧
      (∀ r ∈ regionsBefore (diskOf splitPair) 3 emptyCore, ∀ x, r.Has x →
        (publish c).mem x = c.mem x) ∧
      ∀ r ∈ regionsAfter c c₁ events [(4, 0x9000), (20, 0x9004)], ClearOfGlobal r) ↔
    carvedSize taken (regionsBefore (diskOf splitPair) 3 emptyCore ++
      regionsAfter c c₁ events [(4, 0x9000), (20, 0x9004)]) ≤ 8192) := by
  obtain ⟨steps, loads, c, loading, manifests, top, loop⟩ := splitPair_loading
  obtain ⟨rest, loaded⟩ := loading.registered.loaded
  have published : Registered 0x4000 (loads.map Load.bee) (publish c) := by
    refine loading.registered.publish fun b hb => ?_
    have below := loaded.dataBelow b hb
    have global : CORE_GLOBAL_MEMORY = 0x6000 := rfl
    omega
  have memory : (publish c).memory = 0x4C00 := top
  obtain ⟨c₁, events, run, _⟩ := published.nodes (fun _ hb => pair_nonneg manifests hb) (by
    rw [pair_namedPrefix manifests, pair_nodesSize manifests, memory]
    decide)
  have setup := run 3 (by rw [pair_length manifests]; decide)
  exact ⟨c, c₁, events, loop, setup, core_global_iff rfl loop setup _⟩

/-! ### A disk with eight modules -/

theorem eightParts_layout : Layout (diskOf (plainParts 8)) 512 (plainParts 8) :=
  layout_diskOf (by decide +kernel) (by decide) (by decide) (by decide +kernel)

/-- Each of the modules is 54 bytes long, and takes a sector for its image and one for its data
page. The data page of the last one begins at the word. -/
theorem core_global_hits :
    ∃ c, loadLoop (diskOf (plainParts 8)) 0x4000 9 (prepare emptyCore) 0 = .ok c ∧
    ¬ ∀ r ∈ regionsBefore (diskOf (plainParts 8)) 9 emptyCore, ClearOfGlobal r := by
  have room : demand 0 512 (plainParts 8) = 8192 := by decide +kernel
  have whole := plainParts_whole 8
  obtain ⟨_, _, c, _, _, _, loop⟩ :=
    loading_diskOf eightParts_layout whole (by rw [room]; decide)
  have run := loop 9 (by decide)
  refine ⟨c, run, fun clear => ?_⟩
  have fits := ((carves_before rfl run).clear_iff (by decide)).mp clear
  rw [eightParts_layout.carvedSize_before rfl rfl whole (by rw [room]; decide) (by decide),
    room] at fits
  exact absurd fits (by decide)

end HiveRK.Queen
