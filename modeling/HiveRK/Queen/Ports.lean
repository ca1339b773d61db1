import HiveRK.Queen.Drive
import HiveRK.Queen.Discovery

/-!
# The loader at the ports

`find_bee` and `BEE_SCAN_AND_LOAD` again, with each sector read through the ports of the drive.
`find_bee` reads two sectors at a time into a buffer of its own on the stack, and searches them
there. Both calls of it stand at the same depth of the stack, so that they have the same buffer.
-/

namespace HiveRK.Queen.Ports

open Machine

/-- The loop over `j` in the first sector of the buffer, for `k` positions from `j` on. -/
def scanBuffer (m : Mem) (buf : Nat) : Nat → Nat → Option Nat
  | 0, _ => none
  | k + 1, j =>
      if load8 m (buf + j) = 0x3A ∧ load8 m (buf + (j + 1)) = 0x44 ∧
          load8 m (buf + (j + 2)) = 0xBE ∧ load8 m (buf + (j + 3)) = 0xE0 then some j
      else scanBuffer m buf k (j + 1)

/-- The loop over `i`, for the last `k` of its rounds. -/
def findLoop (fuel buf startSector startOffset : Nat) :
    Nat → Nat → Drive → Mem → Exec (Drive × Mem × Nat)
  | 0, _, dr, m => .ok (dr, m, 0)
  | k + 1, i, dr, m => do
      let (dr, m, failed) ← ataReadSector fuel dr m (startSector + i) buf
      if failed ≠ 0 then .ok (dr, m, 0)
      else
        let (dr, m, failed) ← ataReadSector fuel dr m (startSector + i + 1) (buf + 512)
        if failed ≠ 0 then .ok (dr, m, 0)
        else
          let searchStart := if i = 0 then startOffset else 0
          match scanBuffer m buf (512 - searchStart) searchStart with
          | some j => .ok (dr, m, u32 ((startSector + i) * 512 + j))
          | none => findLoop fuel buf startSector startOffset k (i + 1) dr m

def findBee (fuel buf : Nat) (dr : Drive) (m : Mem) (byteAddress searchLimit : Nat) :
    Exec (Drive × Mem × Nat) :=
  findLoop fuel buf (byteAddress / 512) (byteAddress % 512) searchLimit 0 dr m

/-- The loop of `BEE_SCAN_AND_LOAD`, for `k` sectors; false after a read error. -/
def readSectors (fuel sector buffer : Nat) : Nat → Drive → Mem → Exec (Drive × Mem × Bool)
  | 0, dr, m => .ok (dr, m, true)
  | k + 1, dr, m => do
      let (dr, m, going) ← readSectors fuel sector buffer k dr m
      if going then
        let (dr, m, failed) ← ataReadSector fuel dr m (sector + k) (buffer + k * 512)
        .ok (dr, m, failed = 0)
      else .ok (dr, m, false)

/-- The part of `BEE_SCAN_AND_LOAD` behind the two searches. -/
def loadModule (fuel : Nat) (dr : Drive) (c : Core) (start stop : Nat) :
    Exec (Drive × Core × Nat) := do
  let c := { c with lastEnd := stop }
  if stop = 0 then .ok (dr, c, 0)
  else
    let (dr, m, going) ←
      readSectors fuel (start / 512) c.memory (memoryUsed start stop) dr c.mem
    if going then
      .ok (dr, { c with mem := m, memory := u32 (c.memory + 512 * memoryUsed start stop) },
        u32 (c.memory + start % 512))
    else .ok (dr, { c with mem := m }, 0)

/-- `BEE_SCAN_AND_LOAD(MEMORY)`, with the buffer of `find_bee` at `buf`. -/
def beeScanAndLoad (fuel buf : Nat) (dr : Drive) (c : Core) : Exec (Drive × Core × Nat) := do
  let (dr, m, start) ← findBee fuel buf dr c.mem c.lastEnd SEARCH_LIMIT
  if start = 0 then .ok (dr, { c with mem := m }, 0)
  else
    let (dr, m, stop) ← findBee fuel buf dr m (u32 (start + 4)) SEARCH_LIMIT
    loadModule fuel dr { c with mem := m } start (u32 (stop + 4))

/-! ### What the ports answer -/

section Reads

variable {dr : Drive} {buf : Nat} {m m' m'' : Mem} {d : Disk}

/-- The drive has this disk and waits for a command. -/
def Ready (d : Disk) (dr : Drive) : Prop := dr.disk = d ∧ dr.busy = 0

theorem Ready.after (ready : Ready d dr) (lba : Nat) : Ready d (dr.after lba) := ⟨ready.1, rfl⟩

theorem loadBytes_window {a n j k : Nat} (inside : j + k ≤ n) :
    ((loadBytes m a n).drop j).take k = loadBytes m (a + j) k := by
  refine List.ext_getElem (by simp; omega) fun i _ _ => ?_
  simp [loadBytes, Nat.add_assoc]

theorem load8_byte {a : Nat} (b : Byte) : load8 m a = b.toNat ↔ m (u32 a) = b := by
  rw [load8_eq]
  exact BitVec.toNat_inj

theorem magic_iff (m : Mem) (a : Nat) :
    loadBytes m a 4 = magic ↔ load8 m a = 0x3A ∧ load8 m (a + 1) = 0x44 ∧
      load8 m (a + 2) = 0xBE ∧ load8 m (a + 3) = 0xE0 := by
  show BytesAt m a magic ↔ load8 m a = (0x3A : Byte).toNat ∧ load8 m (a + 1) = (0x44 : Byte).toNat ∧
      load8 m (a + 2) = (0xBE : Byte).toNat ∧ load8 m (a + 3) = (0xE0 : Byte).toNat
  simp only [magic, bytesAt_cons, bytesAt_nil, and_true, load8_byte, Nat.add_assoc, Nat.reduceAdd]

theorem scanBuffer_eq {k j : Nat} (inside : j + k ≤ 512) :
    scanBuffer m buf k j = scanSector (loadBytes m buf 1024) k j := by
  induction k generalizing j with
  | zero => rfl
  | succ k ih =>
      have here := magic_iff m (buf + j)
      rw [← loadBytes_window (show j + 4 ≤ 1024 by omega)] at here
      rw [scanBuffer, scanSector, ih (by omega)]
      exact if_congr here.symm rfl rfl

/-- The buffer behind two reads. -/
theorem loadBytes_sectors {lo hi : List Byte} (fits : buf + 1024 ≤ 2 ^ 32)
    (lower : lo.length = 512) (upper : hi.length = 512) :
    loadBytes (storeBytes (storeBytes m buf lo) (buf + 512) hi) buf 1024 = lo ++ hi := by
  have kept : AgreeOn (storeBytes m buf lo) (storeBytes (storeBytes m buf lo) (buf + 512) hi)
      buf 512 := by
    have within : WritesWithin (storeBytes m buf lo)
        (storeBytes (storeBytes m buf lo) (buf + 512) hi) (buf + 512) 512 :=
      .storeBytes (by omega) (Nat.le_refl _) (by omega)
    exact within.agreeOn (.inl (Nat.le_refl _))
  have first : BytesAt (storeBytes (storeBytes m buf lo) (buf + 512) hi) buf lo := by
    rw [BytesAt, lower, kept.loadBytes (by omega) (Nat.le_refl _) (Nat.le_refl _), ← lower]
    exact loadBytes_storeBytes m (by omega)
  have second : BytesAt (storeBytes (storeBytes m buf lo) (buf + 512) hi) (buf + lo.length) hi := by
    rw [lower]
    exact loadBytes_storeBytes _ (by omega)
  have both := bytesAt_append.mpr ⟨first, second⟩
  rwa [BytesAt, List.length_append, lower, upper] at both

/-- Two sectors that can be read make one window in the buffer. -/
theorem window_returns (fits : buf + 1024 ≤ 2 ^ 32) (ready : Ready d dr) (m : Mem) {s : Nat}
    {lo hi : List Byte} (lower : ataReadSectorSafe d s = some lo)
    (upper : ataReadSectorSafe d (s + 1) = some hi) :
    ∃ dr₁ m₁ dr₂ m₂, Ready d dr₂ ∧ WritesWithin m m₂ buf 1024 ∧
      loadBytes m₂ buf 1024 = lo ++ hi ∧
      Returns (fun fuel => ataReadSector fuel dr m s buf) (dr₁, m₁, 0) ∧
      Returns (fun fuel => ataReadSector fuel dr₁ m₁ (s + 1) (buf + 512)) (dr₂, m₂, 0) := by
  obtain ⟨rfl, idle⟩ := ready
  have short := ataReadSectorSafe_length lower
  have short' := ataReadSectorSafe_length upper
  have first : WritesWithin m (storeBytes m buf lo) buf 1024 :=
    .storeBytes (by omega) (Nat.le_refl _) (by omega)
  have second : WritesWithin m (storeBytes (storeBytes m buf lo) (buf + 512) hi) buf 1024 :=
    first.trans (.storeBytes (by omega) (by omega) (by omega))
  refine ⟨dr.after s, _, (dr.after s).after (s + 1), _, ⟨rfl, rfl⟩, second,
    loadBytes_sectors fits short short', ataReadSector_some idle buf m lower, ?_⟩
  exact ataReadSector_some (show (dr.after s).busy = 0 from rfl) (buf + 512) _ upper

/-- A search through the ports finds what there is on the disk, and writes to its buffer only. -/
theorem findLoop_returns (fits : buf + 1024 ≤ 2 ^ 32) {startSector startOffset k i : Nat}
    (inside : startOffset ≤ 512) (ready : Ready d dr) :
    ∃ dr' m', Ready d dr' ∧ WritesWithin m m' buf 1024 ∧
      Returns (fun fuel => findLoop fuel buf startSector startOffset k i dr m)
        (dr', m', Queen.findLoop d startSector startOffset k i) := by
  induction k generalizing i dr m with
  | zero => exact ⟨dr, m, ready, .refl m buf 1024, .ok _⟩
  | succ k ih =>
      simp only [findLoop]
      cases lower : ataReadSectorSafe d (startSector + i) with
      | none =>
          obtain ⟨rfl, idle⟩ := ready
          simp only [Queen.findLoop, lower]
          refine ⟨dr.after (startSector + i), m, ⟨rfl, rfl⟩, .refl m buf 1024, ?_⟩
          exact (ataReadSector_none idle buf m lower).bind (.ok _)
      | some lo =>
          cases upper : ataReadSectorSafe d (startSector + i + 1) with
          | none =>
              obtain ⟨rfl, idle⟩ := ready
              simp only [Queen.findLoop, lower, upper]
              have short := ataReadSectorSafe_length lower
              have last : (dr.after (startSector + i)).busy = 0 := rfl
              refine ⟨(dr.after (startSector + i)).after (startSector + i + 1),
                storeBytes m buf lo, ⟨rfl, rfl⟩,
                .storeBytes (by omega) (Nat.le_refl _) (by omega), ?_⟩
              exact (ataReadSector_some idle buf m lower).bind
                ((ataReadSector_none last (buf + 512) _ upper).bind (.ok _))
          | some hi =>
              obtain ⟨dr₁, m₁, dr₂, m₂, ready₂, within, whole, first, second⟩ :=
                window_returns fits ready m lower upper
              simp only [Queen.findLoop, lower, upper]
              have skipped : (if i = 0 then startOffset else 0) ≤ 512 := by split_ifs <;> omega
              generalize (if i = 0 then startOffset else 0) = j at skipped ⊢
              rw [← whole, ← scanBuffer_eq (by omega)]
              cases found : scanBuffer m₂ buf (512 - j) j with
              | some t =>
                  refine ⟨dr₂, m₂, ready₂, within, first.bind (second.bind ?_)⟩
                  simp only [ne_eq, not_true, if_false, found]
                  exact .ok _
              | none =>
                  obtain ⟨dr', m', ready', within', rest⟩ := ih (i := i + 1) (m := m₂) ready₂
                  refine ⟨dr', m', ready', within.trans within', first.bind (second.bind ?_)⟩
                  simp only [ne_eq, not_true, if_false, found]
                  exact rest

theorem findBee_returns (m : Mem) (a limit : Nat) (fits : buf + 1024 ≤ 2 ^ 32)
    (ready : Ready d dr) :
    ∃ dr' m', Ready d dr' ∧ WritesWithin m m' buf 1024 ∧
      Returns (fun fuel => findBee fuel buf dr m a limit) (dr', m', Queen.findBee d a limit) :=
  findLoop_returns fits (Nat.le_of_lt (Nat.mod_lt a (by decide))) ready

/-- The same bytes stored in both memories leave the same difference. -/
theorem writesWithin_storeBytes {a n b : Nat} (bytes : List Byte) (h : WritesWithin m m' a n) :
    WritesWithin (storeBytes m b bytes) (storeBytes m' b bytes) a n := by
  induction bytes generalizing m m' b with
  | nil => exact h
  | cons byte bytes ih =>
      refine ih fun x off => ?_
      by_cases here : x = u32 b
      · rw [here, Function.update_self, Function.update_self]
      · rw [Function.update_of_ne here, Function.update_of_ne here]
        exact h x off

theorem readSectors_returns (sector buffer k : Nat) (ready : Ready d dr)
    (apart : WritesWithin m m' buf 1024) :
    ∃ dr' m'', Ready d dr' ∧
      WritesWithin (Queen.readSectors d sector buffer k m).1 m'' buf 1024 ∧
      Returns (fun fuel => readSectors fuel sector buffer k dr m')
        (dr', m'', (Queen.readSectors d sector buffer k m).2) := by
  induction k with
  | zero => exact ⟨dr, m', ready, apart, .ok _⟩
  | succ k ih =>
      obtain ⟨dr₁, m₁, ready₁, apart₁, before⟩ := ih
      simp only [readSectors]
      rw [Queen.readSectors]
      generalize Queen.readSectors d sector buffer k m = read at apart₁ before
      obtain ⟨m₂, going⟩ := read
      cases going with
      | false => exact ⟨dr₁, m₁, ready₁, apart₁, before.bind (.ok _)⟩
      | true =>
          obtain ⟨rfl, idle⟩ := ready₁
          cases next : ataReadSectorSafe dr₁.disk (sector + k) with
          | none =>
              refine ⟨dr₁.after (sector + k), m₁, ⟨rfl, rfl⟩, apart₁, before.bind ?_⟩
              exact (ataReadSector_none idle (buffer + k * 512) m₁ next).bind (.ok _)
          | some bytes =>
              refine ⟨dr₁.after (sector + k), storeBytes m₁ (buffer + k * 512) bytes, ⟨rfl, rfl⟩,
                writesWithin_storeBytes bytes apart₁, before.bind ?_⟩
              exact (ataReadSector_some idle (buffer + k * 512) m₁ next).bind (.ok _)

theorem loadModule_returns (start stop : Nat) {c : Core} (ready : Ready d dr)
    (apart : WritesWithin c.mem m buf 1024) :
    ∃ dr' m', Ready d dr' ∧ WritesWithin (Queen.loadModule d c start stop).1.mem m' buf 1024 ∧
      Returns (fun fuel => loadModule fuel dr { c with mem := m } start stop)
        (dr', { (Queen.loadModule d c start stop).1 with mem := m' },
          (Queen.loadModule d c start stop).2) := by
  obtain ⟨dr', m', ready', apart', loaded⟩ :=
    readSectors_returns (start / 512) c.memory (memoryUsed start stop) ready apart
  simp only [loadModule]
  rw [Queen.loadModule]
  by_cases nothing : stop = 0
  · simp only [nothing, if_true]
    exact ⟨dr, m, ready, apart, .ok _⟩
  · simp only [nothing, if_false]
    generalize Queen.readSectors d (start / 512) c.memory (memoryUsed start stop) c.mem = read
      at apart' loaded
    obtain ⟨m'', going⟩ := read
    cases going with
    | false => exact ⟨dr', m', ready', apart', loaded.bind (.ok _)⟩
    | true => exact ⟨dr', m', ready', apart', loaded.bind (.ok _)⟩

theorem scan_returns (c : Core) (fits : buf + 1024 ≤ 2 ^ 32) (ready : Ready d dr) :
    ∃ dr' m', Ready d dr' ∧ WritesWithin (Queen.beeScanAndLoad d c).1.mem m' buf 1024 ∧
      Returns (fun fuel => beeScanAndLoad fuel buf dr c)
        (dr', { (Queen.beeScanAndLoad d c).1 with mem := m' }, (Queen.beeScanAndLoad d c).2) := by
  obtain ⟨dr₁, m₁, ready₁, apart₁, first⟩ :=
    findBee_returns c.mem c.lastEnd SEARCH_LIMIT fits ready
  simp only [beeScanAndLoad]
  rw [Queen.beeScanAndLoad]
  generalize Queen.findBee d c.lastEnd SEARCH_LIMIT = start at first
  by_cases nothing : start = 0
  · obtain rfl := nothing
    exact ⟨dr₁, m₁, ready₁, apart₁, first.bind (.ok _)⟩
  · obtain ⟨dr₂, m₂, ready₂, apart₂, second⟩ := findBee_returns m₁ (u32 (start + 4)) SEARCH_LIMIT
      fits ready₁
    obtain ⟨dr₃, m₃, ready₃, apart₃, third⟩ := loadModule_returns start
      (u32 (Queen.findBee d (u32 (start + 4)) SEARCH_LIMIT + 4)) ready₂ (apart₁.trans apart₂)
    simp only [nothing, if_false]
    refine ⟨dr₃, m₃, ready₃, apart₃, first.bind ?_⟩
    simp only [nothing, if_false]
    exact second.bind third

/-- `BEE_SCAN_AND_LOAD` through the ports of a drive that waits for a command: it returns, however
long the drive takes, with what the disk gives. Its memory differs in the buffer of `find_bee`
only, and the drive is ready for the next scan. -/
theorem beeScanAndLoad_returns (dr : Drive) (idle : dr.busy = 0) (c : Core)
    (fits : buf + 1024 ≤ 2 ^ 32) :
    ∃ dr' m', dr'.disk = dr.disk ∧ dr'.busy = 0 ∧
      WritesWithin (Queen.beeScanAndLoad dr.disk c).1.mem m' buf 1024 ∧
      Returns (fun fuel => beeScanAndLoad fuel buf dr c)
        (dr', { (Queen.beeScanAndLoad dr.disk c).1 with mem := m' },
          (Queen.beeScanAndLoad dr.disk c).2) := by
  obtain ⟨dr', m', ready, apart, run⟩ :=
    scan_returns c fits (show Ready dr.disk dr from ⟨rfl, idle⟩)
  exact ⟨dr', m', ready.1, ready.2, apart, run⟩

end Reads

/-- A drive with two readable sectors and an empty module, three readings of the status for each
command. -/
def sampleDrive : Drive :=
  let byte (p : Nat) : Byte :=
    if 600 ≤ p ∧ p < 604 then magic.getD (p - 600) 0
    else if 604 ≤ p ∧ p < 608 then magic.getD (p - 604) 0 else 0
  { disk := ⟨byte, fun s => s = 1 ∨ s = 2⟩
    count := 0, low := 0, mid := 0, high := 0, device := 0, busy := 0, failed := false
    words := [], delays := fun _ => 3 }

theorem beeScanAndLoad_returns_sample :
    (Queen.beeScanAndLoad sampleDrive.disk emptyCore).2 = 0x4058 ∧
      ∃ dr' m', dr'.disk = sampleDrive.disk ∧ dr'.busy = 0 ∧
        WritesWithin (Queen.beeScanAndLoad sampleDrive.disk emptyCore).1.mem m' 0x9000 1024 ∧
        Returns (fun fuel => beeScanAndLoad fuel 0x9000 sampleDrive emptyCore)
          (dr', { (Queen.beeScanAndLoad sampleDrive.disk emptyCore).1 with mem := m' },
            (Queen.beeScanAndLoad sampleDrive.disk emptyCore).2) :=
  ⟨by decide +kernel, beeScanAndLoad_returns sampleDrive rfl emptyCore (by decide)⟩

end HiveRK.Queen.Ports
