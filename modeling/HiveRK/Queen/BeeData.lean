import HiveRK.Queen.Discovery
import HiveRK.Queen.Registry

/-!
# From a loaded image to a registered module

`imageBee` reads a module's header and export list from its image. `makeBeeData` writes
the same to a data page, `addNameToPage` puts the name into the registry, and so one round
of `main`'s load loop appends a module to a history of registration.
-/

namespace HiveRK.Queen

open Machine

/-- The module whose image is at `buf`, with its data page at `data`. -/
def imageBee (m : Mem) (buf data : Nat) : Bee where
  name := loadBytes m (buf + 9) 32
  data := data
  base := buf
  id := load32 m (buf + 5)
  priority := load8 m (buf + 41)
  format := load8 m (buf + 4)
  init := load32 m (buf + 46 + 8 * load32 m (buf + 42))
  exports := (List.range (load32 m (buf + 42))).map fun s =>
    ⟨load32 m (buf + 46 + 8 * s), load32 m (buf + 50 + 8 * s)⟩

section Image

variable {m m' : Mem} {buf data : Nat}

theorem imageBee_count (m : Mem) (buf data : Nat) :
    (imageBee m buf data).exports.length = load32 m (buf + 42) := by
  simp [imageBee]

theorem imageBee_pageSize (m : Mem) (buf data : Nat) :
    (imageBee m buf data).pageSize = 18 + 8 * load32 m (buf + 42) := by
  rw [Bee.pageSize, imageBee_count]

end Image

/-! ### `makeBeeData` -/

section MakeBeeData

variable {m : Mem} {buf data n : Nat}

/-- The fixed fields. -/
theorem fillHeader_spec (apart : buf + 46 ≤ data ∨ data + 18 ≤ buf) (image : buf + 46 ≤ 2 ^ 32)
    (fits : data + 18 ≤ 2 ^ 32) :
    WritesWithin m (fillHeader m buf data) data 18 ∧
      baseAddress (fillHeader m buf data) data = buf ∧
      beeID (fillHeader m buf data) data = load32 m (buf + 5) ∧
      priority (fillHeader m buf data) data = load8 m (buf + 41) ∧
      format (fillHeader m buf data) data = load8 m (buf + 4) ∧
      exportCount (fillHeader m buf data) data = load32 m (buf + 42) := by
  have word : ∀ a, load32 m a < 256 ^ 4 := fun a => load_lt 4 m a
  have byte : ∀ a, load8 m a < 256 ^ 1 := fun a => load_lt 1 m a
  have base : buf < 256 ^ 4 := by omega
  simp only [fillHeader]
  refine ⟨?_, ?_, ?_, ?_, ?_, ?_⟩
  · have written := WritesWithin.refl m data 18
    iterate 5 refine WritesWithin.andStore ?_ (by omega) (by omega) (by omega)
    exact written
  · simp (disch := omega) only [baseAddress, load_store_of_disjoint, load_store_self]
  · simp (disch := first | omega | exact word _) only [beeID, load_store_of_disjoint,
      load_store_self]
  · simp (disch := first | omega | exact byte _) only [priority, load_store_of_disjoint,
      load_store_self]
  · simp (disch := first | omega | exact byte _) only [format, load_store_of_disjoint,
      load_store_self]
  · simp (disch := first | omega | exact word _) only [exportCount, load_store_of_disjoint,
      load_store_self]

/-- The loop over the export entries from `i` on. -/
theorem fillExports_spec (count : exportCount m data = n)
    (apart : buf + 46 + 8 * n ≤ data ∨ data + 18 + 8 * n ≤ buf)
    (image : buf + 46 + 8 * n ≤ 2 ^ 32) (fits : data + 18 + 8 * n ≤ 2 ^ 32) {k i : Nat}
    (hi : i ≤ n) (hk : n - i < k) :
    ∃ m', fillExports buf data k i m = (m', n) ∧
      WritesWithin m m' (data + 18 + 8 * i) (8 * (n - i)) ∧
      ∀ s, i ≤ s → s < n → exportID m' data s = load32 m (buf + 46 + 8 * s) ∧
        exportFunc m' data s = u32 (buf + load32 m (buf + 50 + 8 * s)) := by
  induction k generalizing i m with
  | zero => omega
  | succ k ih =>
      rw [fillExports, count]
      by_cases more : i < n
      · rw [if_pos more]
        have id : load32 m (buf + 46 + 8 * i) < 256 ^ 4 := load_lt 4 m _
        have offset : load32 (store32 m (data + 18 + 8 * i) (load32 m (buf + 46 + 8 * i)))
            (buf + 50 + 8 * i) = load32 m (buf + 50 + 8 * i) :=
          load_store_of_disjoint m (by omega) (by omega) (by omega)
        have func : u32 (buf + load32 m (buf + 50 + 8 * i)) < 256 ^ 4 := u32_lt _
        simp only [offset]
        obtain ⟨m₂, hm₂⟩ : ∃ m₂,
            store32 (store32 m (data + 18 + 8 * i) (load32 m (buf + 46 + 8 * i)))
          (data + 22 + 8 * i) (u32 (buf + load32 m (buf + 50 + 8 * i))) = m₂ := ⟨_, rfl⟩
        have written : WritesWithin m m₂ (data + 18 + 8 * i) 8 := by
          rw [← hm₂]
          exact (WritesWithin.store (by omega) (by omega) (by omega)).andStore (by omega) (by omega)
            (by omega)
        have here : exportID m₂ data i = load32 m (buf + 46 + 8 * i) ∧
            exportFunc m₂ data i = u32 (buf + load32 m (buf + 50 + 8 * i)) := by
          rw [← hm₂]
          constructor
          · exact (load_store_of_disjoint _ (by omega) (by omega) (by omega)).trans
              (load_store_self m (by omega) id)
          · exact load_store_self _ (by omega) func
        obtain ⟨m', run, written', entries⟩ := ih (m := m₂) (i := i + 1)
          ((written.load (by omega) (by omega)).trans count) (by omega) (by omega)
        rw [hm₂]
        refine ⟨m', run, ?_, fun s lo hi => ?_⟩
        · exact (written.mono (by omega) (by omega)).trans (written'.mono (by omega) (by omega))
        · by_cases first : s = i
          · subst first
            rw [← here.1, ← here.2]
            exact ⟨written'.load (by omega) (by omega), written'.load (by omega) (by omega)⟩
          · obtain ⟨hid, hfunc⟩ := entries s (by omega) hi
            have source : ∀ a, buf ≤ a → a + 4 ≤ buf + 46 + 8 * n → load32 m₂ a = load32 m a :=
              fun a lo hi => written.load (by omega) (by omega)
            rw [hid, hfunc, source _ (by omega) (by omega), source _ (by omega) (by omega)]
            exact ⟨rfl, rfl⟩
      · rw [if_neg more]
        obtain rfl : i = n := by omega
        exact ⟨m, rfl, WritesWithin.refl _ _ _, fun s lo hi => by omega⟩

theorem sectorRound_bounds {size : Nat} (fits : size + 511 < 2 ^ 32) :
    size ≤ sectorRound size ∧ sectorRound size ≤ size + 511 ∧ sectorRound size % 512 = 0 := by
  rw [sectorRound, u32_of_lt fits]
  omega

/-- `makeBeeData` writes the module's data page, and nothing else, if the header that it reads
is not where the page comes. -/
theorem makeBeeData_page {c : Core} (hn : load32 c.mem (buf + 42) = n)
    (apart : buf + 50 + 8 * n ≤ c.memory ∨ c.memory + 18 + 8 * n ≤ buf)
    (image : buf + 50 + 8 * n ≤ 2 ^ 32) (fits : c.memory + 18 + 8 * n ≤ 2 ^ 32) :
    ∃ m, makeBeeData c buf = ({ c with
          mem := m, memory := u32 (c.memory + sectorRound (18 + 8 * n)) }, c.memory) ∧
      DataPage m (imageBee c.mem buf c.memory) ∧
      WritesWithin c.mem m c.memory (18 + 8 * n) := by
  obtain ⟨written₁, base, id, prio, fmt, count⟩ := fillHeader_spec (m := c.mem)
    (show buf + 46 ≤ c.memory ∨ c.memory + 18 ≤ buf by omega) (by omega) (by omega)
  rw [hn] at count
  obtain ⟨m₂, run, written₂, entries⟩ := fillExports_spec (k := 2 ^ 31) (i := 0) count
    (show buf + 46 + 8 * n ≤ c.memory ∨ c.memory + 18 + 8 * n ≤ buf by omega) (by omega) (by omega)
    (Nat.zero_le n) (by omega)
  have early : ∀ a, buf ≤ a → a + 4 ≤ buf + 50 + 8 * n →
      load32 (fillHeader c.mem buf c.memory) a = load32 c.mem a :=
    fun a lo hi => written₁.load (by omega) (by omega)
  have late : ∀ a, buf ≤ a → a + 4 ≤ buf + 50 + 8 * n → load32 m₂ a = load32 c.mem a :=
    fun a lo hi => (written₂.load (by omega) (by omega)).trans (early a lo hi)
  have header : AgreeOn (fillHeader c.mem buf c.memory) m₂ c.memory 14 :=
    written₂.agreeOn (by omega)
  have size : u32 (18 + 8 * n) = 18 + 8 * n := u32_of_lt (by omega)
  obtain ⟨m, hm⟩ : ∃ m, store32 m₂ (c.memory + 14)
    (u32 (buf + load32 c.mem (buf + 46 + 8 * n))) = m := ⟨_, rfl⟩
  have written₃ : WritesWithin m₂ m (c.memory + 14) 4 := by
    rw [← hm]
    exact WritesWithin.store (by omega) (Nat.le_refl _) (Nat.le_refl _)
  have kept : ∀ a k, c.memory ≤ a → a + k ≤ c.memory + 14 →
      load k m a = load k (fillHeader c.mem buf c.memory) a := fun a k lo hi =>
    (written₃.load (by omega) (by omega)).trans (header.load (by omega) lo hi)
  have place : (imageBee c.mem buf c.memory).data = c.memory := rfl
  refine ⟨m, ?_, ⟨?_, ?_, ?_, ?_, ?_, ?_, ?_, ?_⟩, ?_⟩
  · simp only [makeBeeData, run, late _ (show buf ≤ buf + 46 + 8 * n by omega) (by omega), hm, size]
  · exact (kept _ _ (by omega) (by omega)).trans base
  · exact (kept _ _ (by omega) (by omega)).trans id
  · exact (kept _ _ (by omega) (by omega)).trans prio
  · exact (kept _ _ (by omega) (by omega)).trans fmt
  · rw [← hm, imageBee, hn]
    exact load_store_self m₂ (by omega) (u32_lt _)
  · rw [imageBee_count, hn]
    exact (kept _ _ (by omega) (by omega)).trans count
  · intro s hs
    rw [imageBee_count, hn] at hs
    have entry := (entries s (Nat.zero_le s) hs).1
    simp only [imageBee, List.getElem_map, List.getElem_range]
    rw [early _ (by omega) (by omega)] at entry
    exact (written₃.load (by omega) (by omega)).trans entry
  · intro s hs
    rw [imageBee_count, hn] at hs
    have entry := (entries s (Nat.zero_le s) hs).2
    simp only [imageBee, List.getElem_map, List.getElem_range]
    rw [early _ (by omega) (by omega)] at entry
    exact (written₃.load (by omega) (by omega)).trans entry
  · exact ((written₁.mono (Nat.le_refl _) (by omega)).trans
      (written₂.mono (by omega) (by omega))).trans (written₃.mono (by omega) (by omega))

theorem makeBeeData_spec {c : Core} (inside : buf + 50 + 8 * load32 c.mem (buf + 42) ≤ c.memory)
    (fits : c.memory + (imageBee c.mem buf c.memory).pageSize + 511 < 2 ^ 32) :
    ∃ m, makeBeeData c buf = ({ c with
          mem := m
          memory := c.memory + sectorRound (imageBee c.mem buf c.memory).pageSize }, c.memory) ∧
      DataPage m (imageBee c.mem buf c.memory) ∧
      WritesWithin c.mem m c.memory (imageBee c.mem buf c.memory).pageSize := by
  have size := imageBee_pageSize c.mem buf c.memory
  rw [size] at fits
  have round := sectorRound_bounds
    (show 18 + 8 * load32 c.mem (buf + 42) + 511 < 2 ^ 32 by omega)
  obtain ⟨m, made, page, written⟩ := makeBeeData_page rfl (.inl inside) (by omega) (by omega)
  rw [u32_of_lt (by omega)] at made
  rw [size]
  exact ⟨m, made, page, written⟩

end MakeBeeData

/-! ### One round of the load loop -/

/-- The module that a scan loads, with the data page that is made for it. -/
def loadedBee (d : Disk) (c : Core) : Bee :=
  imageBee (beeScanAndLoad d c).1.mem (beeScanAndLoad d c).2 (beeScanAndLoad d c).1.memory

/-- The core after the round with index `n` of the load loop. -/
def loadRound (d : Disk) (page0 n : Nat) (c : Core) : Core :=
  registerBee (beeScanAndLoad d c).1 page0 n (beeScanAndLoad d c).2

/-- The next scan finds both markers, at `start` and in front of `stop`, and can read all
sectors; the export list lies inside the loaded image, and no address overflows. -/
structure Loadable (d : Disk) (c : Core) (start stop : Nat) : Prop where
  first : findBee d c.lastEnd SEARCH_LIMIT = start
  found : start ≠ 0
  last : findBee d (start + 4) SEARCH_LIMIT + 4 = stop
  both : 4 < stop
  startFits : start + 4 < 2 ^ 32
  stopFits : stop < 2 ^ 32
  read : (beeScanAndLoad d c).2 ≠ 0
  inside : (loadedBee d c).base + 50 + 8 * (loadedBee d c).exports.length ≤
    c.memory + 512 * memoryUsed start stop
  room : c.memory + 512 * memoryUsed start stop + (loadedBee d c).pageSize + 511 + 512 < 2 ^ 32

section Loadable

variable {d : Disk} {c : Core} {start stop page0 : Nat} {bees : List Bee}

theorem Loadable.memoryUsed_pos (h : Loadable d c start stop) : 1 ≤ memoryUsed start stop := by
  have room := h.room
  have last := h.last
  have both := h.both
  have startFits := h.startFits
  have stopFits := h.stopFits
  have window : SEARCH_LIMIT = 102400 := rfl
  obtain ⟨q, lo, hi, answer⟩ := findBee_bounds
    (show findBee d (start + 4) SEARCH_LIMIT ≠ 0 by omega)
  rw [answer, u32] at last
  rw [memoryUsed] at room ⊢
  by_cases rest : stop % 512 > 0
  · rw [if_pos rest] at room ⊢
    rw [u32] at room ⊢
    omega
  · rw [if_neg rest] at room ⊢
    rw [u32] at room ⊢
    omega

/-- The scan carves the image's sectors and writes to nothing else. -/
theorem Loadable.scan (h : Loadable d c start stop) :
    ∃ m, beeScanAndLoad d c = ({ c with
          mem := m, memory := c.memory + 512 * memoryUsed start stop, lastEnd := stop },
        c.memory + start % 512) ∧
      WritesWithin c.mem m c.memory (512 * memoryUsed start stop) := by
  have room := h.room
  have pos := h.memoryUsed_pos
  have read := h.read
  have both := h.both
  have written := readSectors_written d (start / 512) c.mem
    (show c.memory + 512 * memoryUsed start stop ≤ 2 ^ 32 by omega)
  have finish : u32 (findBee d (u32 (start + 4)) SEARCH_LIMIT + 4) = stop := by
    rw [u32_of_lt h.startFits, h.last, u32_of_lt h.stopFits]
  have found := beeScanAndLoad_found h.first h.found
  rw [finish, loadModule, if_neg (by omega)] at found
  obtain ⟨⟨m, ok⟩, sectors⟩ : ∃ r, readSectors d (start / 512) c.memory (memoryUsed start stop)
    c.mem = r := ⟨_, rfl⟩
  rw [sectors] at written found
  cases ok with
  | false =>
      rw [found] at read
      exact absurd rfl read
  | true =>
      have bump : c.memory + 512 * memoryUsed start stop < 2 ^ 32 := by omega
      have address : c.memory + start % 512 < 2 ^ 32 := by omega
      refine ⟨m, ?_, written⟩
      rw [found]
      simp only [u32_of_lt bump, u32_of_lt address]

theorem Loadable.memory (h : Loadable d c start stop) :
    (beeScanAndLoad d c).1.memory = c.memory + 512 * memoryUsed start stop := by
  obtain ⟨m, run, _⟩ := h.scan
  rw [run]

/-- The data page is carved behind the image. -/
theorem Loadable.make (h : Loadable d c start stop) :
    ∃ m, makeBeeData (beeScanAndLoad d c).1 (beeScanAndLoad d c).2 =
        ({ (beeScanAndLoad d c).1 with
            mem := m
            memory := (beeScanAndLoad d c).1.memory + sectorRound (loadedBee d c).pageSize },
          (beeScanAndLoad d c).1.memory) ∧
      DataPage m (loadedBee d c) ∧
      WritesWithin (beeScanAndLoad d c).1.mem m (beeScanAndLoad d c).1.memory
        (loadedBee d c).pageSize := by
  have inside := h.inside
  have room := h.room
  have top := h.memory
  have base : (loadedBee d c).base = (beeScanAndLoad d c).2 := rfl
  rw [base, loadedBee, imageBee_count] at inside
  exact makeBeeData_spec (by omega) (by rw [loadedBee] at room; omega)

/-- A round of the load loop registers the module that it loads. -/
theorem Registered.load (h : Registered page0 bees c) (loads : Loadable d c start stop) :
    Registered page0 (bees ++ [loadedBee d c]) (loadRound d page0 bees.length c) := by
  have room := loads.room
  have pos := loads.memoryUsed_pos
  have top := loads.memory
  obtain ⟨m₁, scanned, written₁⟩ := loads.scan
  obtain ⟨m₂, made, page, written₂⟩ := loads.make
  have size : 18 ≤ (loadedBee d c).pageSize := Nat.le_add_right _ _
  have round := sectorRound_bounds (show (loadedBee d c).pageSize + 511 < 2 ^ 32 by omega)
  have place : (loadedBee d c).data = (beeScanAndLoad d c).1.memory := rfl
  have result : loadRound d page0 bees.length c = addNameToPage
      { (beeScanAndLoad d c).1 with
          mem := m₂
          memory := (beeScanAndLoad d c).1.memory + sectorRound (loadedBee d c).pageSize }
      page0 bees.length ⟨(loadedBee d c).name, (loadedBee d c).data⟩ := by
    rw [loadRound, registerBee, made]
    rfl
  rw [result]
  refine .register h (fun x hx => ?_) ?_ ?_ ?_ ?_ ?_ page
  · rw [scanned] at written₂
    exact (written₂ x (.inl (by simp only; omega))).trans (written₁ x (.inl hx))
  · omega
  · simp only
    omega
  · simp only
    omega
  · simp only
    omega
  · exact loadBytes_length _ _ _

end Loadable

end HiveRK.Queen
