import HiveRK.Queen.Basic

/-!
# Loading modules from disk

`find_bee`, `BEE_SCAN_AND_LOAD`, `makeBeeData`, `addNameToPage` and the load loop of
`main`. A disk answers every sector read with 512 bytes or with an error, and the drive
takes the low 28 bits of a sector number. Loops that count an `int` upwards against a
word in memory are given 2 ^ 31 steps, all that the counter has.
-/

namespace HiveRK.Queen

open Machine

/-- The disk image, and which sectors can be read. -/
structure Disk where
  byte : Nat → Byte
  readable : Nat → Bool

/-- `ata_read_sector_safe`: the sector's bytes, or none for -1. -/
def ataReadSectorSafe (d : Disk) (lba : Nat) : Option (List Byte) :=
  let sector := lba % 2 ^ 28
  if d.readable sector then some ((List.range 512).map fun i => d.byte (sector * 512 + i))
  else none

/-- `0x3A 0x44 0xBE 0xE0`, which starts and ends a module. -/
def magic : List Byte := [0x3A, 0x44, 0xBE, 0xE0]

/-! ### `find_bee` -/

/-- The loop over `j` in one sector of the search buffer, for `k` positions from `j` on. -/
def scanSector (buf : List Byte) : Nat → Nat → Option Nat
  | 0, _ => none
  | k + 1, j =>
      if (buf.drop j).take 4 = magic then some j else scanSector buf k (j + 1)

/-- The loop over `i`, for the last `k` of its rounds. 0 is the answer for "not found". -/
def findLoop (d : Disk) (startSector startOffset : Nat) : Nat → Nat → Nat
  | 0, _ => 0
  | k + 1, i =>
      match ataReadSectorSafe d (startSector + i), ataReadSectorSafe d (startSector + i + 1) with
      | some lo, some hi =>
          let searchStart := if i = 0 then startOffset else 0
          match scanSector (lo ++ hi) (512 - searchStart) searchStart with
          | some j => u32 ((startSector + i) * 512 + j)
          | none => findLoop d startSector startOffset k (i + 1)
      | _, _ => 0

def findBee (d : Disk) (byteAddress searchLimit : Nat) : Nat :=
  findLoop d (byteAddress / 512) (byteAddress % 512) searchLimit 0

/-! ### `BEE_SCAN_AND_LOAD` -/

def SEARCH_LIMIT : Nat := 1024 * 100

/-- Read `k` sectors from `sector` on to `buffer`; false after a read error. -/
def readSectors (d : Disk) (sector buffer : Nat) : Nat → Mem → Mem × Bool
  | 0, m => (m, true)
  | k + 1, m =>
      match readSectors d sector buffer k m with
      | (m, true) =>
          match ataReadSectorSafe d (sector + k) with
          | some bytes => (storeBytes m (buffer + k * 512) bytes, true)
          | none => (m, false)
      | (m, false) => (m, false)

/-- The final value of `memoryUsed`: `sectorEnd - sectorStart`. -/
def memoryUsed (start stop : Nat) : Nat :=
  let sectorStart := start / 512
  let sectorEnd := stop / 512 + if stop % 512 > 0 then 1 else 0
  u32 (sectorEnd + 2 ^ 32 - sectorStart)

/-- The part of `BEE_SCAN_AND_LOAD` behind the two searches. -/
def loadModule (d : Disk) (c : Core) (start stop : Nat) : Core × Nat :=
  if stop = 0 then ({ c with lastEnd := stop }, 0)
  else
    match readSectors d (start / 512) c.memory (memoryUsed start stop) c.mem with
    | (m, false) => ({ c with mem := m, lastEnd := stop }, 0)
    | (m, true) =>
        ({ c with
            mem := m, memory := u32 (c.memory + 512 * memoryUsed start stop), lastEnd := stop },
          u32 (c.memory + start % 512))

/-- `BEE_SCAN_AND_LOAD(MEMORY)`. -/
def beeScanAndLoad (d : Disk) (c : Core) : Core × Nat :=
  let start := findBee d c.lastEnd SEARCH_LIMIT
  if start = 0 then (c, 0)
  else loadModule d c start (u32 (findBee d (u32 (start + 4)) SEARCH_LIMIT + 4))

/-! ### `makeBeeData` -/

/-- The loop over the export entries, from the `i`-th on. It returns the number of
entries taken. -/
def fillExports (buf data : Nat) : Nat → Nat → Mem → Mem × Nat
  | 0, i, m => (m, i)
  | k + 1, i, m =>
      if i < exportCount m data then
        let m := store32 m (data + 18 + 8 * i) (load32 m (buf + 46 + 8 * i))
        let m := store32 m (data + 22 + 8 * i) (u32 (buf + load32 m (buf + 50 + 8 * i)))
        fillExports buf data k (i + 1) m
      else (m, i)

/-- The fixed fields, copied from the image at `buf` before the export entries. -/
def fillHeader (m : Mem) (buf data : Nat) : Mem :=
  let m := store32 m data buf
  let m := store8 m (data + 9) (load8 m (buf + 4))
  let m := store32 m (data + 4) (load32 m (buf + 5))
  let m := store8 m (data + 8) (load8 m (buf + 41))
  store32 m (data + 10) (load32 m (buf + 42))

/-- `makeBeeData`, which returns the address of the new data page. -/
def makeBeeData (c : Core) (buf : Nat) : Core × Nat :=
  let data := c.memory
  let filled := fillExports buf data (2 ^ 31) 0 (fillHeader c.mem buf data)
  let init := u32 (buf + load32 filled.1 (buf + 46 + 8 * filled.2))
  let size := u32 (18 + 8 * filled.2)
  ({ c with mem := store32 filled.1 (data + 14) init
            memory := u32 (c.memory + sectorRound size) }, data)

/-! ### `addNameToPage` -/

/-- A `BEE_NAME`: the 32 bytes of the name, and the pointer to the data page. -/
structure BeeName where
  name : List Byte
  data : Nat

/-- The branch that gives `page` a successor if it has none. -/
def extendPage (c : Core) (page : Nat) : Core :=
  if nextPage c.mem page = 0 then
    let m := setNextPage c.mem page c.memory
    { c with mem := setNextPage m (nextPage m page) 0, memory := u32 (c.memory + 512) }
  else c

/-- The branch that fills a slot, and ends the list behind it if the page goes on. -/
def fillSlot (m : Mem) (page index : Nat) (name : BeeName) : Mem :=
  let m := storeBytes m (slot page index) name.name
  let m := store32 m (slot page index + 32) name.data
  if index + 1 < 14 then store8 m (slot page (index + 1)) 0 else m

def addNameToPage (c : Core) (page index : Nat) (name : BeeName) : Core :=
  if index > 13 then
    let c := extendPage c page
    addNameToPage c (nextPage c.mem page) (index - 14) name
  else { c with mem := fillSlot c.mem page index name }
termination_by index

/-! ### `main` -/

/-- The start of `main`: an empty first page at `MEMORY`. -/
def prepare (c : Core) : Core :=
  let page0 := c.memory
  let m := setNextPage c.mem page0 0
  let m := store8 m (slot page0 0) 0
  { c with mem := m, memory := u32 (c.memory + 512) }

/-- The body of the load loop after a successful scan. -/
def registerBee (c : Core) (page0 pageIndex address : Nat) : Core :=
  let name := loadBytes c.mem (address + 9) 32
  let made := makeBeeData c address
  addNameToPage made.1 page0 pageIndex ⟨name, made.2⟩

/-- The load loop. -/
def loadLoop (d : Disk) (page0 : Nat) : Nat → Core → Nat → Exec Core
  | 0, _, _ => .error .fuel
  | fuel + 1, c, pageIndex =>
      let scanned := beeScanAndLoad d c
      if scanned.2 = 0 then .ok scanned.1
      else loadLoop d page0 fuel (registerBee scanned.1 page0 pageIndex scanned.2) (pageIndex + 1)

/-- `CORE_GLOBAL_MEMORY`. -/
def CORE_GLOBAL_MEMORY : Nat := 0x6000

/-- The part of `main` between the load loop and `setupLookupArray`. -/
def publish (c : Core) : Core :=
  { c with mem := store32 c.mem CORE_GLOBAL_MEMORY c.irt, idNodes := fun _ => 0 }

end HiveRK.Queen
