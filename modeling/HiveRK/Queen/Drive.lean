import HiveRK.Machine.Bytes
import HiveRK.Queen.Loader

/-!
# Reading sectors through the ports

`ata_read_sector_safe` writes the number of a sector to the registers of the drive, one byte
after the other, and waits until the drive is no longer busy. Then the drive has failed, or its
data register gives the words of the sector one by one.

The drive here has the registers of the first channel. It takes some time for each command,
counted in readings of the status, and is deaf as long as it is busy.
-/

namespace HiveRK.Queen

open Machine

/-! ### The drive -/

structure Drive where
  disk : Disk
  count : Byte
  low : Byte
  mid : Byte
  high : Byte
  device : Byte
  busy : Nat
  failed : Bool
  words : List (BitVec 16)
  /-- The times that the next commands take. -/
  delays : Nat → Nat

def Disk.sector (d : Disk) (s : Nat) : Option (List Byte) :=
  if d.readable s then some ((List.range 512).map fun i => d.byte (s * 512 + i)) else none

/-- Two bytes of a sector are a word, the low one first. -/
def wordsOf : List Byte → List (BitVec 16)
  | low :: high :: bytes => (high ++ low) :: wordsOf bytes
  | _ => []

/-- The number of the sector in the registers. -/
def Drive.sector (dr : Drive) : Nat :=
  dr.device.toNat % 16 * 2 ^ 24 + dr.high.toNat * 2 ^ 16 + dr.mid.toNat * 2 ^ 8 + dr.low.toNat

/-- The bytes of `count` sectors, or of 256 if that is 0. -/
def Drive.answer (dr : Drive) : Option (List Byte) :=
  let n := if dr.count = 0 then 256 else dr.count.toNat
  ((List.range n).mapM fun i => dr.disk.sector (dr.sector + i)).map List.flatten

/-- The command that reads them. -/
def Drive.readSectors (dr : Drive) : Drive :=
  { dr with
    busy := dr.delays 0
    delays := fun k => dr.delays (k + 1)
    failed := dr.answer.isNone
    words := wordsOf (dr.answer.getD []) }

def Drive.outb (dr : Drive) (port : Nat) (data : Byte) : Drive :=
  if dr.busy ≠ 0 then dr
  else if port = 0x1F2 then { dr with count := data }
  else if port = 0x1F3 then { dr with low := data }
  else if port = 0x1F4 then { dr with mid := data }
  else if port = 0x1F5 then { dr with high := data }
  else if port = 0x1F6 then { dr with device := data }
  else if port = 0x1F7 ∧ data = 0x20 then dr.readSectors
  else dr

/-- The status at port `0x1F7`. -/
def Drive.status (dr : Drive) : Byte × Drive :=
  if dr.busy ≠ 0 then (0x80, { dr with busy := dr.busy - 1 })
  else if dr.failed then (0x51, dr)
  else if dr.words ≠ [] then (0x58, dr)
  else (0x50, dr)

/-- The data at port `0x1F0`. -/
def Drive.inw (dr : Drive) : BitVec 16 × Drive :=
  (dr.words.headD 0, { dr with words := dr.words.tail })

/-! ### `ata_read_sector_safe` -/

/-- The loop `while (inb(0x1F7) & 0x80);`. -/
def pollBusy : Nat → Drive → Exec Drive
  | 0, _ => .error .fuel
  | fuel + 1, dr =>
      if dr.status.1 &&& 0x80 ≠ 0 then pollBusy fuel dr.status.2 else .ok dr.status.2

/-- The last `k` rounds of the loop that stores the words. -/
def storeWords (buf : Nat) : Nat → Nat → Drive → Mem → Drive × Mem
  | 0, _, dr, m => (dr, m)
  | k + 1, i, dr, m => storeWords buf k (i + 1) dr.inw.2 (store16 m (buf + 2 * i) dr.inw.1.toNat)

/-- The writes to the registers, and the command. -/
def Drive.request (dr : Drive) (lba : Nat) : Drive :=
  let dr := dr.outb 0x1F6 (BitVec.ofNat 8 (0xE0 ||| ((lba >>> 24) &&& 0xF)))
  let dr := dr.outb 0x1F2 1
  let dr := dr.outb 0x1F3 (BitVec.ofNat 8 (lba &&& 0xFF))
  let dr := dr.outb 0x1F4 (BitVec.ofNat 8 ((lba >>> 8) &&& 0xFF))
  let dr := dr.outb 0x1F5 (BitVec.ofNat 8 ((lba >>> 16) &&& 0xFF))
  dr.outb 0x1F7 0x20

/-- What follows the loop, with the answer. -/
def takeSector (dr : Drive) (m : Mem) (buf : Nat) : Drive × Mem × Int :=
  let (status, dr) := dr.status
  if status &&& 0x01 ≠ 0 then (dr, m, -1)
  else
    let (dr, m) := storeWords buf 256 0 dr m
    (dr, m, 0)

/-- The function, with the drive and the memory behind it and its answer. -/
def ataReadSector (fuel : Nat) (dr : Drive) (m : Mem) (lba buf : Nat) :
    Exec (Drive × Mem × Int) := do
  let dr ← pollBusy fuel (dr.request lba)
  .ok (takeSector dr m buf)

section Reads

variable {dr : Drive} {fuel n : Nat}

theorem low_nibble (n : Nat) : n &&& 0xF = n % 2 ^ 4 := Nat.and_two_pow_sub_one_eq_mod n 4

theorem low_byte (n : Nat) : n &&& 0xFF = n % 2 ^ 8 := Nat.and_two_pow_sub_one_eq_mod n 8

/-- The drive finds the 28 low bits of the number in its registers. -/
theorem sector_registers (dr : Drive) (lba : Nat) :
    { dr with
        device := BitVec.ofNat 8 (0xE0 ||| ((lba >>> 24) &&& 0xF))
        low := BitVec.ofNat 8 (lba &&& 0xFF)
        mid := BitVec.ofNat 8 ((lba >>> 8) &&& 0xFF)
        high := BitVec.ofNat 8 ((lba >>> 16) &&& 0xFF) : Drive }.sector = lba % 2 ^ 28 := by
  have top : (BitVec.ofNat 8 (0xE0 ||| ((lba >>> 24) &&& 0xF))).toNat % 2 ^ 4 =
      lba / 2 ^ 24 % 2 ^ 4 := by
    rw [BitVec.toNat_ofNat, Nat.mod_mod_of_dvd _ (by decide), Nat.or_mod_two_pow, low_nibble,
      Nat.shiftRight_eq_div_pow, Nat.mod_mod, show 0xE0 % 2 ^ 4 = 0 from rfl, Nat.zero_or]
  have low (k : Nat) : (BitVec.ofNat 8 ((lba >>> k) &&& 0xFF)).toNat = lba / 2 ^ k % 2 ^ 8 := by
    rw [BitVec.toNat_ofNat, low_byte, Nat.mod_mod, Nat.shiftRight_eq_div_pow]
  have lowest := low 0
  rw [Nat.shiftRight_zero] at lowest
  simp only [Drive.sector, low, lowest, show 16 = 2 ^ 4 from rfl, top]
  omega

theorem pollBusy_eq (busy : dr.busy = n) (enough : n < fuel) :
    pollBusy fuel dr = .ok { dr with busy := 0 } := by
  induction n generalizing dr fuel with
  | zero =>
      obtain ⟨fuel, rfl⟩ := Nat.exists_eq_succ_of_ne_zero (Nat.ne_of_gt enough)
      have ready : dr.status.1 &&& 0x80 = 0 ∧ dr.status.2 = dr := by
        rw [Drive.status, if_neg (not_not.mpr busy)]
        split_ifs with failed some
        · exact ⟨show (0x51 : Byte) &&& 0x80 = 0 by decide, rfl⟩
        · exact ⟨show (0x58 : Byte) &&& 0x80 = 0 by decide, rfl⟩
        · exact ⟨show (0x50 : Byte) &&& 0x80 = 0 by decide, rfl⟩
      rw [pollBusy, if_neg (not_not.mpr ready.1), ready.2, ← busy]
  | succ n ih =>
      obtain ⟨fuel, rfl⟩ := Nat.exists_eq_succ_of_ne_zero (Nat.ne_of_gt (Nat.zero_lt_of_lt enough))
      have waits : dr.status = (0x80, { dr with busy := dr.busy - 1 }) := by
        rw [Drive.status, if_pos (busy ▸ Nat.succ_ne_zero n)]
      have rest : pollBusy fuel { dr with busy := dr.busy - 1 } = _ :=
        ih (congrArg (· - 1) busy) (Nat.lt_of_succ_lt_succ enough)
      rw [pollBusy, waits, if_pos (show (0x80 : Byte) &&& 0x80 ≠ 0 by decide)]
      exact rest

theorem store_word (m : Mem) (a : Nat) (low high : Byte) :
    store16 m a (high ++ low : BitVec 16).toNat = storeBytes m a [low, high] := by
  have value : (high ++ low : BitVec 16).toNat = high.toNat * 256 + low.toNat := by
    rw [BitVec.toNat_append, ← Nat.shiftLeft_add_eq_or_of_lt low.isLt, Nat.shiftLeft_eq]
  have first : BitVec.ofNat 8 (high.toNat * 256 + low.toNat) = low :=
    BitVec.eq_of_toNat_eq (by rw [BitVec.toNat_ofNat]; have := low.isLt; omega)
  have second : BitVec.ofNat 8 ((high.toNat * 256 + low.toNat) / 256) = high :=
    BitVec.eq_of_toNat_eq (by
      rw [BitVec.toNat_ofNat]; have := low.isLt; have := high.isLt; omega)
  rw [value]
  show Function.update (Function.update m (u32 a) _) (u32 (a + 1)) _ = _
  rw [first, second]
  rfl

/-- The words of the drive are stored as the bytes that they are made of. -/
theorem storeWords_eq (buf : Nat) {k i : Nat} {bytes : List Byte} (m : Mem)
    (words : dr.words = wordsOf bytes) (length : bytes.length = 2 * k) :
    storeWords buf k i dr m = ({ dr with words := [] }, storeBytes m (buf + 2 * i) bytes) := by
  induction k generalizing i dr m bytes with
  | zero =>
      obtain rfl := List.eq_nil_of_length_eq_zero length
      rw [storeWords, ← show dr.words = [] from words]
      rfl
  | succ k ih =>
      match bytes, length with
      | low :: high :: bytes, length =>
          have here : dr.inw = (high ++ low, { dr with words := wordsOf bytes }) := by
            rw [Drive.inw, words]
            rfl
          have shorter : bytes.length = 2 * k := by
            simp only [List.length_cons] at length
            omega
          have rest := ih (i := i + 1) (storeBytes m (buf + 2 * i) [low, high])
            (show { dr with words := wordsOf bytes }.words = wordsOf bytes from rfl) shorter
          rw [storeWords, here]
          show storeWords buf k (i + 1) _ (store16 m (buf + 2 * i) (high ++ low).toNat) = _
          rw [store_word]
          exact rest

theorem wordsOf_ne_nil {bytes : List Byte} (length : bytes.length = 512) : wordsOf bytes ≠ [] := by
  match bytes, length with
  | low :: high :: bytes, _ => exact List.cons_ne_nil _ _

theorem answer_one (one : dr.count = 1) : dr.answer = dr.disk.sector dr.sector := by
  rw [Drive.answer, one]
  show ((List.range 1).mapM fun i => dr.disk.sector (dr.sector + i)).map List.flatten = _
  rw [List.range_one, List.mapM_cons, List.mapM_nil, Nat.add_zero]
  cases dr.disk.sector dr.sector with
  | none => rfl
  | some bytes => exact congrArg some (List.append_nil bytes)

/-- The registers when the command is written. -/
def Drive.asked (dr : Drive) (lba : Nat) : Drive :=
  { dr with
    device := BitVec.ofNat 8 (0xE0 ||| ((lba >>> 24) &&& 0xF))
    count := 1
    low := BitVec.ofNat 8 (lba &&& 0xFF)
    mid := BitVec.ofNat 8 ((lba >>> 8) &&& 0xFF)
    high := BitVec.ofNat 8 ((lba >>> 16) &&& 0xFF) }

theorem request_eq (idle : dr.busy = 0) (lba : Nat) :
    dr.request lba = (dr.asked lba).readSectors := by
  obtain ⟨disk, count, low, mid, high, device, busy, failed, words, delays⟩ := dr
  obtain rfl : busy = 0 := idle
  rfl

theorem asked_answer (dr : Drive) (lba : Nat) :
    (dr.asked lba).answer = ataReadSectorSafe dr.disk lba := by
  let counted : Drive := { dr with count := 1 }
  have number : (dr.asked lba).sector = lba % 2 ^ 28 := sector_registers counted lba
  rw [answer_one rfl, number]
  rfl

/-- The drive behind a read. -/
def Drive.after (dr : Drive) (lba : Nat) : Drive :=
  { (dr.asked lba).readSectors with busy := 0, words := [] }

theorem takeSector_failed (m : Mem) (buf : Nat) (idle : dr.busy = 0) (failed : dr.failed = true)
    (none : dr.words = []) : takeSector dr m buf = ({ dr with words := [] }, m, -1) := by
  have status : dr.status = (0x51, dr) := by
    rw [Drive.status, if_neg (not_not.mpr idle), if_pos failed]
  rw [takeSector, status, ← none]
  exact if_pos (by decide)

theorem takeSector_served {bytes : List Byte} (m : Mem) (buf : Nat) (idle : dr.busy = 0)
    (served : dr.failed = false) (words : dr.words = wordsOf bytes) (length : bytes.length = 512) :
    takeSector dr m buf = ({ dr with words := [] }, storeBytes m buf bytes, 0) := by
  have some : dr.words ≠ [] := words ▸ wordsOf_ne_nil length
  have status : dr.status = (0x58, dr) := by
    rw [Drive.status, if_neg (not_not.mpr idle), if_neg (ne_true_of_eq_false served), if_pos some]
  rw [takeSector, status]
  show (if (0x58 : Byte) &&& 0x01 ≠ 0 then _ else _) = _
  rw [if_neg (not_not.mpr (show (0x58 : Byte) &&& 0x01 = 0 by decide)),
    storeWords_eq buf m words length]
  rfl

theorem ataReadSectorSafe_length {d : Disk} {lba : Nat} {bytes : List Byte}
    (read : ataReadSectorSafe d lba = some bytes) : bytes.length = 512 := by
  rw [ataReadSectorSafe] at read
  obtain ⟨-, same⟩ := Option.ite_none_right_eq_some.mp read
  rw [← Option.some.inj same, List.length_map, List.length_range]

/-- One read through the ports is one read of the disk. -/
theorem ataReadSector_returns (idle : dr.busy = 0) (lba buf : Nat) (m : Mem) :
    Returns (fun fuel => ataReadSector fuel dr m lba buf)
      (match ataReadSectorSafe dr.disk lba with
        | some bytes => (dr.after lba, storeBytes m buf bytes, 0)
        | none => (dr.after lba, m, -1)) := by
  refine ⟨dr.delays 0 + 1, fun fuel enough => ?_⟩
  have answer := asked_answer dr lba
  have words {bytes : Option (List Byte)} (same : (dr.asked lba).answer = bytes) :
      (dr.asked lba).readSectors.words = wordsOf (bytes.getD []) := same ▸ rfl
  show ataReadSector fuel dr m lba buf = _
  have polled : pollBusy fuel (dr.asked lba).readSectors =
      .ok { (dr.asked lba).readSectors with busy := 0 } := pollBusy_eq rfl enough
  rw [ataReadSector, request_eq idle, polled]
  refine congrArg Except.ok ?_
  cases read : ataReadSectorSafe dr.disk lba with
  | none =>
      rw [read] at answer
      exact takeSector_failed m buf rfl (congrArg Option.isNone answer) (words answer)
  | some bytes =>
      rw [read] at answer
      exact takeSector_served m buf rfl (congrArg Option.isNone answer) (words answer)
        (ataReadSectorSafe_length read)

theorem ataReadSector_none {lba : Nat} (idle : dr.busy = 0) (buf : Nat) (m : Mem)
    (read : ataReadSectorSafe dr.disk lba = none) :
    Returns (fun fuel => ataReadSector fuel dr m lba buf) (dr.after lba, m, -1) := by
  have returns := ataReadSector_returns idle lba buf m
  rwa [read] at returns

theorem ataReadSector_some {lba : Nat} {bytes : List Byte} (idle : dr.busy = 0) (buf : Nat)
    (m : Mem) (read : ataReadSectorSafe dr.disk lba = some bytes) :
    Returns (fun fuel => ataReadSector fuel dr m lba buf)
      (dr.after lba, storeBytes m buf bytes, 0) := by
  have returns := ataReadSector_returns idle lba buf m
  rwa [read] at returns

end Reads

end HiveRK.Queen
