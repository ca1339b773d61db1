import HiveRK.Queen.Discovery
import Mathlib.Data.Nat.Find
import Mathlib.Order.Bounds.Basic

/-!
# The end of the disk

`find_bee` looks at every sector together with the one behind it. On a disk of finitely many
sectors the last one has none behind it, and the failed read ends the search before the last
sector is looked at. `BEE_SCAN_AND_LOAD` adds 4 to the answer of the second search before it
asks whether there was one.
-/

namespace HiveRK.Queen

open Machine

/-- The disk has `n` sectors, and a read at or past its end fails. -/
def Finite (d : Disk) (n : Nat) : Prop := ∀ s, d.readable s = true ↔ s < n

/-- A search from `a` on should find the magic at `p`: it lies on the disk as a whole, and
starts in one of the `limit` sectors from that of `a` on. -/
structure Sought (d : Disk) (n a limit p : Nat) : Prop where
  behind : a ≤ p
  magic : MagicAt d p
  inside : p + 4 ≤ 512 * n
  near : p / 512 < a / 512 + limit

/-- The answer is the first position that is sought, or 0 and there is none. -/
def FindsFirst (d : Disk) (n a limit : Nat) : Prop :=
  IsLeast {p | Sought d n a limit p} (findBee d a limit) ∨
    findBee d a limit = 0 ∧ ¬ ∃ p, Sought d n a limit p

section FiniteDisk

variable {d : Disk} {n a limit p : Nat}

theorem Finite.read_iff (finite : Finite d n) {s : Nat} (low : s < 2 ^ 28) :
    ataReadSectorSafe d s ≠ none ↔ s < n := by
  rw [ataReadSectorSafe]
  simp only [Nat.mod_eq_of_lt low]
  split_ifs with readable
  · exact iff_of_true (by simp) ((finite s).mp readable)
  · exact iff_of_false (by simp) fun inside => readable ((finite s).mpr inside)

/-- Every answer is sought, and never in the last sector. -/
theorem Finite.findBee_sound (finite : Finite d n) (small : n * 512 < 2 ^ 32) (low : a < 2 ^ 32)
    (found : findBee d a limit ≠ 0) :
    Sought d n a limit (findBee d a limit) ∧ findBee d a limit / 512 + 1 < n := by
  obtain ⟨q, lo, hi, answer, behind, near, here, next, hit, read⟩ := findBee_answer found
  have before : q / 512 + 1 < n := by
    by_contra beyond
    -- The search would have read the first sector that is not there.
    have sector := read (max (a / 512) n) (Nat.le_max_left _ _) (by omega)
    rw [finite.read_iff (by omega)] at sector
    omega
  rw [answer, u32_of_lt (by omega)]
  rw [ataReadSectorSafe_eq (by omega) ((finite _).mpr (by omega))] at here next
  obtain rfl := Option.some.inj here
  obtain rfl := Option.some.inj next
  rw [window_eq, window_hit (Nat.mod_lt _ (by decide)),
    show q / 512 * 512 + q % 512 = q by omega] at hit
  exact ⟨⟨behind, hit, by omega, by omega⟩, before⟩

/-- A position that is sought is found, unless it is in the last sector. -/
theorem Finite.findBee_least (finite : Finite d n) (small : n * 512 < 2 ^ 32)
    (least : IsLeast {p | Sought d n a limit p} p) (before : p / 512 + 1 < n) :
    findBee d a limit = p := by
  obtain ⟨sought, first⟩ := least
  refine findBee_found sought.behind (fun q lo hi hit => ?_) sought.magic sought.near
    (fun s _ hi => (finite s).mpr (by omega)) (by omega)
  have inside := sought.inside
  have near := sought.near
  exact absurd (first ⟨lo, hit, by omega, by omega⟩) (by omega)

/-- On a finite disk `find_bee` finds the first marker if and only if that one does not start
in the last sector. -/
theorem find_bee_first_iff (finite : Finite d n) (small : n * 512 < 2 ^ 32) (pos : 0 < a)
    (low : a < 2 ^ 32) :
    FindsFirst d n a limit ↔ ∀ p, IsLeast {p | Sought d n a limit p} p → p / 512 + 1 < n := by
  constructor
  · rintro (least | ⟨_, none⟩) p hp
    · have nonzero : findBee d a limit ≠ 0 := by
        have behind := least.1.behind
        omega
      rw [hp.unique least]
      exact (finite.findBee_sound small low nonzero).2
    · exact absurd ⟨p, hp.1⟩ none
  · intro before
    classical
    by_cases some : ∃ p, Sought d n a limit p
    · have least : IsLeast {p | Sought d n a limit p} (Nat.find some) :=
        ⟨Nat.find_spec some, fun q hq => Nat.find_min' some hq⟩
      left
      rwa [finite.findBee_least small least (before _ least)]
    · refine .inr ⟨?_, some⟩
      by_contra found
      exact some ⟨_, (finite.findBee_sound small low found).1⟩

end FiniteDisk

/-- A disk of `n` sectors with the magic at byte 600 and zeros around it. -/
def markedDisk (n : Nat) : Disk :=
  ⟨fun x => if x < 600 then 0 else magic.getD (x - 600) 0, fun s => decide (s < n)⟩

theorem markedDisk_finite (n : Nat) : Finite (markedDisk n) n := fun _ => decide_eq_true_iff

theorem markedDisk_sought {n : Nat} (inside : 604 ≤ 512 * n) :
    Sought (markedDisk n) n 512 SEARCH_LIMIT 600 :=
  ⟨by decide, rfl, inside, by decide⟩

theorem find_bee_first_iff_marked : FindsFirst (markedDisk 3) 3 512 SEARCH_LIMIT := by
  refine (find_bee_first_iff (markedDisk_finite 3) (by decide) (by decide) (by decide)).mpr ?_
  intro p least
  have before := least.2 (markedDisk_sought (by decide))
  omega

/-- The marker is in the last of two sectors. -/
theorem last_sector_missed :
    Finite (markedDisk 2) 2 ∧ ¬ FindsFirst (markedDisk 2) 2 512 SEARCH_LIMIT := by
  refine ⟨markedDisk_finite 2, ?_⟩
  have answer : findBee (markedDisk 2) 512 SEARCH_LIMIT = 0 := by decide
  rintro (least | ⟨_, none⟩)
  · have behind := least.1.behind
    rw [answer] at behind
    exact absurd behind (by decide)
  · exact none ⟨600, markedDisk_sought (by decide)⟩

/-! ### A module without an end -/

/-- `BEE_SCAN_AND_LOAD` returns 0, keeps `MEMORY`, and writes nowhere from the buffer on. A
byte may be written that was there before, so the last is asked for all contents. -/
structure Rejects (d : Disk) (c : Core) : Prop where
  address : (beeScanAndLoad d c).2 = 0
  memory : (beeScanAndLoad d c).1.memory = c.memory
  untouched : ∀ (m : Mem) (x : Nat), c.memory ≤ x →
    (beeScanAndLoad d { c with mem := m }).1.mem x = m x

section Truncated

variable {d : Disk} {c : Core} {m m' : Mem} {s b k start : Nat}

theorem storeBytes_congr {a x : Nat} {bs : List Byte} (same : m x = m' x) :
    storeBytes m a bs x = storeBytes m' a bs x := by
  induction bs generalizing m m' a with
  | nil => exact same
  | cons b bs ih =>
      refine ih ?_
      simp only [Function.update_apply, same]

theorem ataReadSectorSafe_cons {bytes : List Byte} (read : ataReadSectorSafe d s = some bytes) :
    ∃ byte rest, bytes = byte :: rest := by
  simp only [ataReadSectorSafe] at read
  split_ifs at read
  obtain rfl := Option.some.inj read
  exact List.exists_cons_of_ne_nil (by simp)

/-- Whether the sectors can be read does not depend on what was in the buffer. -/
theorem readSectors_ok (m m' : Mem) :
    (readSectors d s b k m).2 = (readSectors d s b k m').2 := by
  induction k with
  | zero => rfl
  | succ k ih =>
      rw [readSectors, readSectors]
      generalize readSectors d s b k m = r at *
      generalize readSectors d s b k m' = r' at *
      obtain ⟨m₁, ok⟩ := r
      obtain ⟨m₂, ok'⟩ := r'
      obtain rfl : ok = ok' := ih
      cases ok with
      | false => rfl
      | true => cases ataReadSectorSafe d (s + k) <;> rfl

/-- Nor does the first byte of the buffer, if there is a first sector. -/
theorem readSectors_first (read : ataReadSectorSafe d s ≠ none) (m m' : Mem) :
    (readSectors d s b (k + 1) m).1 (u32 b) = (readSectors d s b (k + 1) m').1 (u32 b) := by
  induction k with
  | zero =>
      rw [readSectors, readSectors, readSectors, readSectors, Nat.add_zero]
      cases sector : ataReadSectorSafe d s with
      | none => exact absurd sector read
      | some bytes =>
          obtain ⟨byte, rest, rfl⟩ := ataReadSectorSafe_cons sector
          simp only [Nat.zero_mul, Nat.add_zero, storeBytes]
          refine storeBytes_congr ?_
          rw [Function.update_self, Function.update_self]
  | succ k ih =>
      have ok := readSectors_ok (d := d) (s := s) (b := b) (k := k + 1) m m'
      rw [readSectors, readSectors.eq_2 d s b m' (k + 1)]
      generalize readSectors d s b (k + 1) m = r at *
      generalize readSectors d s b (k + 1) m' = r' at *
      obtain ⟨m₁, ok₁⟩ := r
      obtain ⟨m₂, ok₂⟩ := r'
      obtain rfl : ok₁ = ok₂ := ok
      cases ok₁ with
      | false => exact ih
      | true =>
          cases ataReadSectorSafe d (s + (k + 1)) with
          | none => exact ih
          | some bytes => exact storeBytes_congr ih

/-- So a read that finds its first sector writes to the buffer, for some contents visibly. -/
theorem readSectors_writes (read : ataReadSectorSafe d s ≠ none) :
    ∃ m, (readSectors d s b (k + 1) m).1 (u32 b) ≠ m (u32 b) := by
  obtain ⟨v, hv⟩ : ∃ v, (readSectors d s b (k + 1) fun _ => 0).1 (u32 b) = v := ⟨_, rfl⟩
  refine ⟨fun _ => v + 1, ?_⟩
  rw [readSectors_first read _ fun _ => 0, hv]
  simp

/-- If the first sector cannot be read, nothing is written. -/
theorem readSectors_refused (refused : ataReadSectorSafe d s = none) :
    readSectors d s b (k + 1) m = (m, false) := by
  induction k with
  | zero =>
      rw [readSectors, readSectors, Nat.add_zero, refused]
  | succ k ih => rw [readSectors, ih]

/-- The sectors up to byte 4 of the disk: the one of byte 0, less those before `start`. -/
theorem memoryUsed_four (low : start < 2 ^ 32) : memoryUsed start 4 = 0 ↔ start / 512 = 1 := by
  rw [memoryUsed, if_pos (by decide), u32]
  omega

theorem beeScanAndLoad_truncated (first : findBee d c.lastEnd SEARCH_LIMIT = start)
    (found : start ≠ 0) (endless : findBee d (u32 (start + 4)) SEARCH_LIMIT = 0) :
    beeScanAndLoad d c = loadModule d c start 4 := by
  rw [beeScanAndLoad_found first found, endless]
  rfl

/-- If nothing is written and `MEMORY` is kept, only the answer is left to ask for. -/
theorem rejects_iff_of_kept {address : Nat} (run : ∀ m : Mem,
      beeScanAndLoad d { c with mem := m } = ({ c with mem := m, lastEnd := 4 }, address)) :
    Rejects d c ↔ address = 0 := by
  have here : beeScanAndLoad d c = ({ c with lastEnd := 4 }, address) := run c.mem
  constructor
  · intro rejects
    have answer := rejects.address
    rwa [here] at answer
  · intro zero
    refine ⟨?_, ?_, fun m x _ => ?_⟩
    · rwa [here]
    · rw [here]
    · rw [run]

/-- The 4 that is added to the answer of the second search hides that it is 0. What is left is
a module from `start` to byte 4: it has no sectors if it starts in sector 1, and else it is read
until the disk or the memory ends. -/
theorem truncated_rejected_iff (first : findBee d c.lastEnd SEARCH_LIMIT = start)
    (found : start ≠ 0) (endless : findBee d (u32 (start + 4)) SEARCH_LIMIT = 0)
    (low : c.memory < 2 ^ 32) :
    Rejects d c ↔
      if start / 512 = 1 then u32 (c.memory + start % 512) = 0
      else ataReadSectorSafe d (start / 512) = none := by
  have fits : start < 2 ^ 32 := by
    obtain ⟨q, _, _, answer⟩ := findBee_bounds (first ▸ found)
    rw [← first, answer]
    exact u32_lt q
  have run : ∀ m, beeScanAndLoad d { c with mem := m } = loadModule d { c with mem := m } start 4 :=
    fun m => beeScanAndLoad_truncated first found endless
  split_ifs with sector
  · have none : memoryUsed start 4 = 0 := (memoryUsed_four fits).mpr sector
    refine rejects_iff_of_kept fun m => ?_
    rw [run, loadModule, if_neg (by decide), none]
    simp only [readSectors, Nat.mul_zero, Nat.add_zero, u32_of_lt low]
  · obtain ⟨k, sectors⟩ : ∃ k, memoryUsed start 4 = k + 1 :=
      Nat.exists_eq_succ_of_ne_zero fun none => sector ((memoryUsed_four fits).mp none)
    by_cases refused : ataReadSectorSafe d (start / 512) = none
    · refine (rejects_iff_of_kept fun m => ?_).trans (iff_of_true rfl refused)
      rw [run, loadModule, if_neg (by decide), sectors]
      simp only [readSectors_refused refused]
    · refine iff_of_false (fun rejects => ?_) refused
      obtain ⟨m, written⟩ := readSectors_writes (b := c.memory) (k := k) refused
      rw [u32_of_lt low] at written
      have kept := rejects.untouched m c.memory (Nat.le_refl _)
      rw [run, loadModule, if_neg (by decide), sectors] at kept
      refine written ?_
      rw [← kept]
      generalize readSectors d (start / 512) c.memory (k + 1) m = r
      obtain ⟨m', ok⟩ := r
      cases ok <;> rfl

end Truncated

theorem markedDisk_byte {n x : Nat} (off : x < 600 ∨ 604 ≤ x) : (markedDisk n).byte x = 0 := by
  simp only [markedDisk]
  split_ifs with before
  · rfl
  · have behind : magic.length ≤ x - 600 := by
      simp only [magic, List.length]
      omega
    rw [List.getD_eq_getElem?_getD, List.getElem?_eq_none behind]
    rfl

theorem markedDisk_start : findBee (markedDisk 3) 512 SEARCH_LIMIT = 600 := by
  refine findBee_found (by decide) (fun q lo hi hit => ?_) rfl (by decide) (fun s lo hi => ?_)
    (by decide)
  · have byte : (markedDisk 3).byte q = 0x3A := (List.cons.inj hit).1
    rw [markedDisk_byte (.inl hi)] at byte
    exact absurd byte (by decide)
  · exact (markedDisk_finite 3 s).mpr (by omega)

theorem markedDisk_endless : findBee (markedDisk 3) 604 SEARCH_LIMIT = 0 := by
  refine findBee_none (fun q lo hit => ?_) (by decide)
  have byte : (markedDisk 3).byte q = 0x3A := (List.cons.inj hit).1
  rw [markedDisk_byte (.inr lo)] at byte
  exact absurd byte (by decide)

/-- The core with the buffer 88 bytes below the end of memory. -/
def topCore : Core := { emptyCore with memory := 0xFFFFFFA8 }

/-- There the module would be at 0, and nothing is read. -/
theorem truncated_rejected_iff_top : Rejects (markedDisk 3) topCore := by
  have first : findBee (markedDisk 3) topCore.lastEnd SEARCH_LIMIT = 600 := markedDisk_start
  have endless : findBee (markedDisk 3) (u32 (600 + 4)) SEARCH_LIMIT = 0 := markedDisk_endless
  exact (truncated_rejected_iff first (by decide) endless (by decide)).mpr (by decide)

/-- A module that starts in sector 1 and does not end is loaded. -/
theorem truncated_loaded :
    findBee (markedDisk 3) 512 SEARCH_LIMIT = 600 ∧ findBee (markedDisk 3) 604 SEARCH_LIMIT = 0 ∧
      (beeScanAndLoad (markedDisk 3) emptyCore).2 = 0x4058 ∧
      ¬ Rejects (markedDisk 3) emptyCore := by
  have loaded : (beeScanAndLoad (markedDisk 3) emptyCore).2 = 0x4058 := by
    have run := beeScanAndLoad_truncated (c := emptyCore) markedDisk_start (by decide)
      markedDisk_endless
    rw [run]
    rfl
  refine ⟨markedDisk_start, markedDisk_endless, loaded, fun rejects => ?_⟩
  have address := rejects.address
  rw [loaded] at address
  exact absurd address (by decide)

end HiveRK.Queen
