import HiveRK.Queen.Loader

/-!
# Module discovery

A disk is a sequence of gaps and modules, and a module starts and ends with the same magic.
Nothing but the position of a magic says which of the two it is: `last_end` has to be
exact for the scan to stay in step. `Layout` describes such a disk from any byte on, so
that what is behind the first module is described in the same way.
-/

namespace HiveRK.Queen

open Machine

/-- The magic is at byte `p` of the disk. -/
def MagicAt (d : Disk) (p : Nat) : Prop := ((List.range 4).map fun x => d.byte (p + x)) = magic

instance (d : Disk) (p : Nat) : Decidable (MagicAt d p) :=
  inferInstanceAs (Decidable (((List.range 4).map fun x => d.byte (p + x)) = magic))

/-! ### `find_bee` -/

section Find

variable {d : Disk} {s p : Nat}

theorem ataReadSectorSafe_eq (low : s < 2 ^ 28) (readable : d.readable s = true) :
    ataReadSectorSafe d s = some ((List.range 512).map fun i => d.byte (s * 512 + i)) := by
  simp only [ataReadSectorSafe, Nat.mod_eq_of_lt low, readable, if_true]

/-- Two sectors are one stretch of the disk. -/
theorem window_eq (d : Disk) (s : Nat) :
    ((List.range 512).map fun i => d.byte (s * 512 + i)) ++
      ((List.range 512).map fun i => d.byte ((s + 1) * 512 + i)) =
        (List.range 1024).map fun i => d.byte (s * 512 + i) := by
  rw [show 1024 = 512 + 512 by rfl, List.range_add, List.map_append, List.map_map]
  refine congrArg _ (List.map_congr_left fun i _ => ?_)
  exact congrArg d.byte (by simp only; omega)

theorem window_hit {j : Nat} (hj : j < 512) :
    (((List.range 1024).map fun i => d.byte (s * 512 + i)).drop j).take 4 = magic ↔
      MagicAt d (s * 512 + j) := by
  have same : (((List.range 1024).map fun i => d.byte (s * 512 + i)).drop j).take 4 =
      (List.range 4).map fun x => d.byte (s * 512 + j + x) := by
    refine List.ext_getElem (by simp; omega) fun x hx hx' => ?_
    simp [Nat.add_assoc]
  rw [same, MagicAt]

/-- The loop over a sector returns the first hit. -/
theorem scanSector_some {buf : List Byte} {k j t : Nat}
    (before : ∀ q, j ≤ q → q < t → (buf.drop q).take 4 ≠ magic)
    (hit : (buf.drop t).take 4 = magic) (lo : j ≤ t) (hi : t < j + k) :
    scanSector buf k j = some t := by
  induction k generalizing j with
  | zero => omega
  | succ k ih =>
      rw [scanSector]
      by_cases here : j = t
      · subst here
        rw [if_pos hit]
      · rw [if_neg (before j (Nat.le_refl j) (by omega))]
        exact ih (fun q lo hi => before q (by omega) hi) (by omega) (by omega)

theorem scanSector_none {buf : List Byte} {k j : Nat}
    (miss : ∀ q, j ≤ q → q < j + k → (buf.drop q).take 4 ≠ magic) :
    scanSector buf k j = none := by
  induction k generalizing j with
  | zero => rfl
  | succ k ih =>
      rw [scanSector, if_neg (miss j (Nat.le_refl j) (by omega))]
      exact ih fun q lo hi => miss q (by omega) (by omega)

theorem scanSector_bounds {buf : List Byte} {k j t : Nat} (h : scanSector buf k j = some t) :
    j ≤ t ∧ t < j + k := by
  induction k generalizing j with
  | zero => exact nomatch h
  | succ k ih =>
      rw [scanSector] at h
      split_ifs at h with here
      · obtain rfl := Option.some.inj h
        omega
      · have := ih h
        omega

theorem scanSector_hit {buf : List Byte} {k j t : Nat} (h : scanSector buf k j = some t) :
    (buf.drop t).take 4 = magic := by
  induction k generalizing j with
  | zero => cases h
  | succ k ih =>
      rw [scanSector] at h
      split_ifs at h with here
      · obtain rfl := Option.some.inj h
        exact here
      · exact ih h

/-- The first byte that round `i` of the search looks at. -/
def roundStart (start offset i : Nat) : Nat := (start + i) * 512 + if i = 0 then offset else 0

/-- One round, as a search on the disk. -/
theorem findLoop_round {start offset i k : Nat} (low : start + i + 1 < 2 ^ 28)
    (here : d.readable (start + i) = true) (next : d.readable (start + i + 1) = true) :
    findLoop d start offset (k + 1) i =
      match scanSector ((List.range 1024).map fun x => d.byte ((start + i) * 512 + x))
        (512 - if i = 0 then offset else 0) (if i = 0 then offset else 0) with
      | some j => u32 ((start + i) * 512 + j)
      | none => findLoop d start offset k (i + 1) := by
  rw [findLoop, ataReadSectorSafe_eq (by omega) here, ataReadSectorSafe_eq low next]
  exact congrArg (fun buf =>
    match scanSector buf (512 - if i = 0 then offset else 0) (if i = 0 then offset else 0) with
    | some j => u32 ((start + i) * 512 + j)
    | none => findLoop d start offset k (i + 1)) (window_eq d (start + i))

theorem roundStart_succ (start offset i : Nat) :
    roundStart start offset (i + 1) = (start + i) * 512 + 512 := by
  rw [roundStart, if_neg (Nat.succ_ne_zero i), Nat.add_zero, ← Nat.add_assoc, Nat.succ_mul]

/-- The search returns the first magic, if it comes in time and can be read. -/
theorem findLoop_found {start offset i k : Nat} (hoffset : offset < 512)
    (lo : roundStart start offset i ≤ p)
    (first : ∀ q, roundStart start offset i ≤ q → q < p → ¬ MagicAt d q) (hit : MagicAt d p)
    (near : p / 512 < start + i + k)
    (readable : ∀ s, start ≤ s → s ≤ p / 512 + 1 → d.readable s = true) (fits : p < 2 ^ 32) :
    findLoop d start offset k i = p := by
  induction k generalizing i with
  | zero =>
      simp only [roundStart] at lo
      omega
  | succ k ih =>
      have hsector : start + i ≤ p / 512 := by
        simp only [roundStart] at lo
        omega
      have skipped : (if i = 0 then offset else 0) < 512 := by split_ifs <;> omega
      rw [findLoop_round (by omega) (readable _ (by omega) (by omega))
        (readable _ (by omega) (by omega))]
      simp only [roundStart] at lo first
      generalize (if i = 0 then offset else 0) = j at *
      by_cases here : start + i = p / 512
      · have found : scanSector ((List.range 1024).map fun x => d.byte ((start + i) * 512 + x))
            (512 - j) j = some (p % 512) := by
          refine scanSector_some (fun q lo hi => ?_) ?_ (by omega) (by omega)
          · rw [Ne, window_hit (by omega)]
            exact first _ (by omega) (by omega)
          · rw [window_hit (by omega), show (start + i) * 512 + p % 512 = p by omega]
            exact hit
        rw [found]
        simp only
        rw [show (start + i) * 512 + p % 512 = p by omega, u32_of_lt fits]
      · have missed : scanSector ((List.range 1024).map fun x => d.byte ((start + i) * 512 + x))
            (512 - j) j = none := by
          refine scanSector_none fun q lo hi => ?_
          rw [Ne, window_hit (by omega)]
          exact first _ (by omega) (by omega)
        rw [missed]
        simp only
        refine ih ?_ (fun q lo hi => first q ?_ hi) (by omega)
        · rw [roundStart_succ]
          omega
        · rw [roundStart_succ] at lo
          omega

/-- The search returns 0 where there is no magic. -/
theorem findLoop_none {start offset i k : Nat} (hoffset : offset < 512)
    (miss : ∀ q, roundStart start offset i ≤ q → ¬ MagicAt d q) (low : start + i + k < 2 ^ 28) :
    findLoop d start offset k i = 0 := by
  induction k generalizing i with
  | zero => rfl
  | succ k ih =>
      by_cases here : d.readable (start + i) = true ∧ d.readable (start + i + 1) = true
      · have skipped : (if i = 0 then offset else 0) < 512 := by split_ifs <;> omega
        have missed : scanSector ((List.range 1024).map fun x => d.byte ((start + i) * 512 + x))
            (512 - if i = 0 then offset else 0) (if i = 0 then offset else 0) = none := by
          refine scanSector_none fun q lo hi => ?_
          rw [Ne, window_hit (by omega)]
          exact miss _ (by simp only [roundStart]; omega)
        rw [findLoop_round (by omega) here.1 here.2, missed]
        refine ih (fun q lo => miss q ?_) (by omega)
        rw [roundStart_succ] at lo
        simp only [roundStart]
        omega
      · -- A sector that cannot be read ends the search.
        rw [findLoop, ataReadSectorSafe, ataReadSectorSafe, Nat.mod_eq_of_lt (by omega),
          Nat.mod_eq_of_lt (by omega)]
        by_cases first : d.readable (start + i) = true
        · have second : ¬ d.readable (start + i + 1) = true := fun h => here ⟨first, h⟩
          simp only [first, second, if_true, if_false, Bool.false_eq_true]
        · simp only [first, if_false, Bool.false_eq_true]

/-- Whatever the disk, an answer other than 0 is where the magic was read, from a sector
inside the search window and the one behind it, and every sector up to there was read. -/
theorem findLoop_answer (start : Nat) {offset i k : Nat} (hoffset : offset < 512) :
    findLoop d start offset k i = 0 ∨
      ∃ q lo hi, findLoop d start offset k i = u32 q ∧ roundStart start offset i ≤ q ∧
        q < (start + i + k) * 512 ∧ ataReadSectorSafe d (q / 512) = some lo ∧
        ataReadSectorSafe d (q / 512 + 1) = some hi ∧
        ((lo ++ hi).drop (q % 512)).take 4 = magic ∧
        ∀ t, start + i ≤ t → t ≤ q / 512 + 1 → ataReadSectorSafe d t ≠ none := by
  induction k generalizing i with
  | zero => exact .inl rfl
  | succ k ih =>
      have skipped : (if i = 0 then offset else 0) < 512 := by split_ifs <;> omega
      have wider : (start + i + (k + 1)) * 512 = (start + i + 1 + k) * 512 := by
        rw [Nat.add_assoc (start + i), Nat.add_comm 1 k]
      rw [findLoop]
      split
      · rename_i lo hi here next
        dsimp only
        cases hscan : scanSector (lo ++ hi) (512 - if i = 0 then offset else 0)
            (if i = 0 then offset else 0) with
        | some j =>
            have bounds := scanSector_bounds hscan
            have sector : ((start + i) * 512 + j) / 512 = start + i := by omega
            have inside : ((start + i) * 512 + j) % 512 = j := by omega
            refine .inr ⟨(start + i) * 512 + j, lo, hi, rfl, ?_, ?_, ?_, ?_, ?_, ?_⟩
            · simp only [roundStart]
              omega
            · rw [wider]
              omega
            · rw [sector, here]
            · rw [sector, next]
            · rw [inside]
              exact scanSector_hit hscan
            · intro t lo hi
              obtain rfl | rfl : t = start + i ∨ t = start + i + 1 := by omega
              · simp [here]
              · simp [next]
        | none =>
            obtain zero | ⟨q, lo', hi', answer, first, last, s₁, s₂, hit, read⟩ := ih (i := i + 1)
            · exact .inl zero
            · rw [roundStart_succ] at first
              refine .inr ⟨q, lo', hi', answer, ?_, ?_, s₁, s₂, hit, fun t lo hi => ?_⟩
              · simp only [roundStart]
                omega
              · rw [wider]
                rwa [← Nat.add_assoc] at last
              · by_cases first : t = start + i
                · simp [first, here]
                · exact read t (by omega) hi
      · exact .inl rfl

theorem findBee_found {a limit : Nat} (lo : a ≤ p) (first : ∀ q, a ≤ q → q < p → ¬ MagicAt d q)
    (hit : MagicAt d p) (near : p / 512 < a / 512 + limit)
    (readable : ∀ s, a / 512 ≤ s → s ≤ p / 512 + 1 → d.readable s = true) (fits : p < 2 ^ 32) :
    findBee d a limit = p := by
  have start : roundStart (a / 512) (a % 512) 0 = a := by
    rw [roundStart, if_pos rfl]
    omega
  refine findLoop_found (Nat.mod_lt _ (by decide)) ?_ ?_ hit near readable fits
  · rwa [start]
  · rwa [start]

theorem findBee_answer {a limit : Nat} (found : findBee d a limit ≠ 0) :
    ∃ q lo hi, findBee d a limit = u32 q ∧ a ≤ q ∧ q < (a / 512 + limit) * 512 ∧
      ataReadSectorSafe d (q / 512) = some lo ∧ ataReadSectorSafe d (q / 512 + 1) = some hi ∧
      ((lo ++ hi).drop (q % 512)).take 4 = magic ∧
      ∀ t, a / 512 ≤ t → t ≤ q / 512 + 1 → ataReadSectorSafe d t ≠ none := by
  have start : roundStart (a / 512) (a % 512) 0 = a := by
    rw [roundStart, if_pos rfl]
    omega
  have answer := findLoop_answer (d := d) (a / 512) (i := 0) (k := limit)
    (Nat.mod_lt a (show 0 < 512 by decide))
  rw [start] at answer
  exact answer.resolve_left found

theorem findBee_bounds {a limit : Nat} (found : findBee d a limit ≠ 0) :
    ∃ q, a ≤ q ∧ q < (a / 512 + limit) * 512 ∧ findBee d a limit = u32 q := by
  obtain ⟨q, _, _, answer, lo, hi, _⟩ := findBee_answer found
  exact ⟨q, lo, hi, answer⟩

theorem findBee_none {a limit : Nat} (miss : ∀ q, a ≤ q → ¬ MagicAt d q)
    (low : a / 512 + limit < 2 ^ 28) : findBee d a limit = 0 := by
  have start : roundStart (a / 512) (a % 512) 0 = a := by
    rw [roundStart, if_pos rfl]
    omega
  refine findLoop_none (Nat.mod_lt _ (by decide)) ?_ low
  rwa [start]

end Find

/-! ### `BEE_SCAN_AND_LOAD` -/

section Read

variable {d : Disk} {s b k : Nat} {m : Mem}

/-- Reading writes to the buffer only, whether it succeeds or not. -/
theorem readSectors_written (d : Disk) (s : Nat) (m : Mem) (fits : b + 512 * k ≤ 2 ^ 32) :
    WritesWithin m (readSectors d s b k m).1 b (512 * k) := by
  induction k with
  | zero => exact WritesWithin.refl _ _ _
  | succ k ih =>
      rw [Nat.mul_succ, ← Nat.add_assoc] at fits
      have before := (ih (by omega)).mono (Nat.le_refl b)
        (show b + 512 * k ≤ b + 512 * (k + 1) by omega)
      rw [readSectors]
      generalize readSectors d s b k m = r at *
      obtain ⟨m', ok⟩ := r
      cases ok with
      | false => exact before
      | true =>
          cases hread : ataReadSectorSafe d (s + k) with
          | none => exact before
          | some bytes =>
              have hlen : bytes.length = 512 := by
                simp only [ataReadSectorSafe] at hread
                split_ifs at hread
                obtain rfl := Option.some.inj hread
                simp
              refine before.trans (WritesWithin.storeBytes ?_ ?_ ?_) <;> omega

/-- If all sectors can be read, the buffer holds that part of the disk. -/
theorem readSectors_spec (readable : ∀ t, s ≤ t → t < s + k → d.readable t = true)
    (low : s + k ≤ 2 ^ 28) (fits : b + 512 * k ≤ 2 ^ 32) :
    ∃ m', readSectors d s b k m = (m', true) ∧
      ∀ x < 512 * k, m' (b + x) = d.byte (s * 512 + x) := by
  induction k with
  | zero => exact ⟨m, rfl, fun x hx => absurd hx (Nat.not_lt_zero x)⟩
  | succ k ih =>
      rw [Nat.mul_succ, ← Nat.add_assoc] at fits
      obtain ⟨m', before, bytes⟩ := ih (fun t lo hi => readable t lo (by omega)) (by omega)
        (by omega)
      have sector := ataReadSectorSafe_eq (d := d) (show s + k < 2 ^ 28 by omega)
        (readable (s + k) (by omega) (by omega))
      refine ⟨storeBytes m' (b + k * 512)
        ((List.range 512).map fun i => d.byte ((s + k) * 512 + i)),
        by rw [readSectors, before]; simp only [sector], fun x hx => ?_⟩
      by_cases old : x < 512 * k
      · rw [storeBytes_outside (by simp; omega) (.inl (by omega)), bytes x old]
      · have inside := storeBytes_inside (m := m') (i := x - 512 * k) (show b + k * 512 +
          ((List.range 512).map fun i => d.byte ((s + k) * 512 + i)).length ≤ 2 ^ 32 by simp; omega)
          (by simp; omega)
        rw [show b + x = b + k * 512 + (x - 512 * k) by omega, inside]
        simp only [List.getElem_map, List.getElem_range]
        exact congrArg d.byte (by omega)

theorem beeScanAndLoad_found {c : Core} {start : Nat}
    (first : findBee d c.lastEnd SEARCH_LIMIT = start) (nonzero : start ≠ 0) :
    beeScanAndLoad d c =
      loadModule d c start (u32 (findBee d (u32 (start + 4)) SEARCH_LIMIT + 4)) := by
  unfold beeScanAndLoad
  generalize findBee d c.lastEnd SEARCH_LIMIT = answer at first
  subst first
  exact if_neg nonzero

theorem beeScanAndLoad_none {c : Core} (none : findBee d c.lastEnd SEARCH_LIMIT = 0) :
    beeScanAndLoad d c = (c, 0) := by
  unfold beeScanAndLoad
  rw [none]
  rfl

/-- The number of sectors that `len` bytes from `off` on touch. -/
def sectorsTouched (off len : Nat) : Nat := (off + len - 1) / 512 + 1 - off / 512

theorem memoryUsed_eq {off len : Nat} (long : 0 < len) (fits : off + len < 2 ^ 32) :
    memoryUsed off (off + len) = sectorsTouched off len := by
  rw [memoryUsed, sectorsTouched]
  by_cases rest : (off + len) % 512 > 0
  · rw [if_pos rest, u32]
    omega
  · rw [if_neg rest, u32]
    omega

/-- A scan that finds the module from `off` on loads it. -/
theorem beeScanAndLoad_module {c : Core} {off len : Nat}
    (first : findBee d c.lastEnd SEARCH_LIMIT = off)
    (last : findBee d (off + 4) SEARCH_LIMIT = off + len - 4) (nonzero : off ≠ 0) (long : 4 ≤ len)
    (readable : ∀ t, off / 512 ≤ t → t ≤ (off + len) / 512 → d.readable t = true)
    (fits : off + len < 2 ^ 32) (room : c.memory + 512 * sectorsTouched off len < 2 ^ 32) :
    ∃ m, beeScanAndLoad d c =
        ({ c with
            mem := m, memory := c.memory + 512 * sectorsTouched off len, lastEnd := off + len },
          c.memory + off % 512) ∧
      (∀ x < len, m (c.memory + off % 512 + x) = d.byte (off + x)) ∧
      WritesWithin c.mem m c.memory (512 * sectorsTouched off len) := by
  have stop : u32 (findBee d (u32 (off + 4)) SEARCH_LIMIT + 4) = off + len := by
    rw [u32_of_lt (show off + 4 < 2 ^ 32 by omega), last, u32_of_lt (by omega)]
    omega
  have used := memoryUsed_eq (show 0 < len by omega) fits
  have touched : off / 512 + sectorsTouched off len = (off + len - 1) / 512 + 1 := by
    rw [sectorsTouched]
    omega
  obtain ⟨m, read, bytes⟩ := readSectors_spec (d := d) (s := off / 512) (b := c.memory)
    (k := sectorsTouched off len) (m := c.mem)
    (fun t lo hi => readable t lo (by omega)) (by omega) (by omega)
  have written := readSectors_written d (off / 512) c.mem (Nat.le_of_lt room)
  rw [read] at written
  refine ⟨m, ?_, fun x hx => ?_, written⟩
  · have found := beeScanAndLoad_found first nonzero
    rw [stop] at found
    have address : c.memory + off % 512 < 2 ^ 32 := by omega
    rw [found, loadModule, if_neg (by omega), used, read]
    simp only [u32_of_lt room, u32_of_lt address]
  · rw [Nat.add_assoc, bytes _ (by omega)]
    exact congrArg d.byte (by omega)

end Read

/-! ### Layouts -/

/-- A gap on the disk, and the module behind it. -/
structure Part where
  gap : List Byte
  body : List Byte
deriving DecidableEq, Repr

/-- The bytes of the module: the body between two magics. -/
def Part.image (p : Part) : List Byte := magic ++ p.body ++ magic

/-- The bytes of gaps and modules up to the end of the last module. -/
def contents : List Part → List Byte
  | [] => []
  | p :: ps => p.gap ++ p.image ++ contents ps

/-- The places of the magics, if the first gap starts at `a`. -/
def marks (a : Nat) : List Part → List Nat
  | [] => []
  | p :: ps =>
      let start := a + p.gap.length
      let stop := start + p.image.length
      start :: (stop - 4) :: marks stop ps

/-- The disk offset of module `k`, if the first gap starts in sector 1. -/
def moduleOffset (parts : List Part) (k : Nat) (h : k < parts.length) : Nat :=
  512 + (contents (parts.take k)).length + parts[k].gap.length

/-- From byte `a` on the disk consists of `parts` and a tail. The magic occurs where modules
start and end and nowhere else, gaps and modules are two sectors shorter than the search
window, and the sectors up to the one behind the last module can be read. -/
structure Layout (d : Disk) (a : Nat) (parts : List Part) : Prop where
  bytes : ∀ (i : Nat) (h : i < (contents parts).length), d.byte (a + i) = (contents parts)[i]
  only : ∀ p, a ≤ p → MagicAt d p → p ∈ marks a parts
  gaps : ∀ p ∈ parts, p.gap.length + 1024 ≤ 512 * SEARCH_LIMIT
  images : ∀ p ∈ parts, p.image.length + 1024 ≤ 512 * SEARCH_LIMIT
  readable : ∀ s, a / 512 ≤ s → s ≤ (a + (contents parts).length) / 512 + 1 → d.readable s = true
  fits : a + (contents parts).length < 2 ^ 32

section Layouts

variable {d : Disk} {a : Nat} {p : Part} {ps parts : List Part}

theorem Part.length_image (p : Part) : p.image.length = p.body.length + 8 := by
  simp [Part.image, magic]

theorem length_contents_cons (p : Part) (ps : List Part) :
    (contents (p :: ps)).length = p.gap.length + p.image.length + (contents ps).length := by
  simp [contents, Nat.add_assoc]

theorem contents_append (ps qs : List Part) : contents (ps ++ qs) = contents ps ++ contents qs := by
  induction ps with
  | nil => rfl
  | cons p ps ih => simp [contents, ih]

/-- No magic comes before the first module. -/
theorem le_of_mem_marks {q : Nat} (h : q ∈ marks a parts) : a ≤ q := by
  induction parts generalizing a with
  | nil => exact absurd h List.not_mem_nil
  | cons p ps ih =>
      have long := p.length_image
      simp only [marks, List.mem_cons] at h
      obtain rfl | rfl | h := h
      · omega
      · omega
      · have := ih h
        omega

/-- The bytes of the first module. -/
theorem Layout.image (h : Layout d a (p :: ps)) {x : Nat} (hx : x < p.image.length) :
    d.byte (a + p.gap.length + x) = p.image[x] := by
  have hlen := length_contents_cons p ps
  have here := h.bytes (p.gap.length + x) (by omega)
  rw [← Nat.add_assoc] at here
  rw [here]
  simp only [contents]
  rw [List.getElem_append_left (by simp; omega), List.getElem_append_right (by omega)]
  simp only [Nat.add_sub_cancel_left]

/-- The magics of the first module are where they are expected. -/
theorem Layout.magic_start (h : Layout d a (p :: ps)) : MagicAt d (a + p.gap.length) := by
  have long := p.length_image
  refine List.ext_getElem rfl fun x hx hx' => ?_
  have small : x < 4 := by simpa using hx
  simp only [List.getElem_map, List.getElem_range]
  rw [h.image (by omega)]
  simp only [Part.image, List.append_assoc]
  rw [List.getElem_append_left hx']

theorem Layout.magic_stop (h : Layout d a (p :: ps)) :
    MagicAt d (a + p.gap.length + p.image.length - 4) := by
  have long := p.length_image
  refine List.ext_getElem rfl fun x hx hx' => ?_
  have small : x < 4 := by simpa using hx
  simp only [List.getElem_map, List.getElem_range]
  rw [show a + p.gap.length + p.image.length - 4 + x =
    a + p.gap.length + (p.image.length - 4 + x) by omega, h.image (by omega)]
  simp only [Part.image]
  rw [List.getElem_append_right (by simp [magic])]
  congr 1
  simp [magic]

/-- Behind its first module a disk is laid out in the same way. -/
theorem Layout.tail (h : Layout d a (p :: ps)) :
    Layout d (a + p.gap.length + p.image.length) ps := by
  have hlen := length_contents_cons p ps
  have fits := h.fits
  refine ⟨fun i hi => ?_, fun q lo hit => ?_, fun q hq => h.gaps q (List.mem_cons_of_mem _ hq),
    fun q hq => h.images q (List.mem_cons_of_mem _ hq), fun s lo hi => h.readable s ?_ ?_, ?_⟩
  · have there := h.bytes (p.gap.length + p.image.length + i) (by omega)
    simp only [← Nat.add_assoc] at there
    rw [there]
    simp only [contents]
    rw [List.getElem_append_right (by simp)]
    congr 1
    simp
  · have known := h.only q (by omega) hit
    have long := p.length_image
    simp only [marks, List.mem_cons] at known
    obtain rfl | rfl | known := known
    · omega
    · omega
    · exact known
  · omega
  · omega
  · omega

/-- So it is behind any number of modules. -/
theorem Layout.drop (h : Layout d a parts) (k : Nat) :
    Layout d (a + (contents (parts.take k)).length) (parts.drop k) := by
  induction k generalizing a parts with
  | zero => simpa [contents] using h
  | succ k ih =>
      cases parts with
      | nil => simpa [contents] using h
      | cons p ps =>
          have behind := ih h.tail
          rw [List.take_succ_cons, List.drop_succ_cons, length_contents_cons]
          simpa only [Nat.add_assoc] using behind

end Layouts

/-! ### Scanning a disk -/

/-- A call of `BEE_SCAN_AND_LOAD`, and what it returned. -/
structure Scan where
  before : Core
  after : Core
  address : Nat

def scan (d : Disk) (c : Core) : Scan := ⟨c, (beeScanAndLoad d c).1, (beeScanAndLoad d c).2⟩

@[simp] theorem scan_before (d : Disk) (c : Core) : (scan d c).before = c := rfl

/-- The scans since a first state, with any other work between them that leaves `last_end`
alone. -/
inductive Scanning (d : Disk) (start : Core) : List Scan → Core → Prop where
  | start : Scanning d start [] start
  | work {scans : List Scan} {c c' : Core} (before : Scanning d start scans c)
      (kept : c'.lastEnd = c.lastEnd) : Scanning d start scans c'
  | call {scans : List Scan} {c : Core} (before : Scanning d start scans c) :
      Scanning d start (scans ++ [scan d c]) (scan d c).after

/-- The scan loaded `image` from disk offset `off` to the old `MEMORY`, and wrote to nothing
but the sectors it took. -/
structure Finds (off : Nat) (image : List Byte) (s : Scan) : Prop where
  nonzero : s.address ≠ 0
  address : s.address = s.before.memory + off % 512
  bytes : loadBytes s.after.mem s.address image.length = image
  memory : s.after.memory = s.before.memory + 512 * sectorsTouched off image.length
  written : WritesWithin s.before.mem s.after.mem s.before.memory
    (512 * sectorsTouched off image.length)

section Discovery

variable {d : Disk} {a : Nat} {p : Part} {ps parts : List Part} {c start : Core}

/-- The first search from the end of one module finds the start of the next one. -/
theorem Layout.findBee_start (h : Layout d a (p :: ps)) :
    findBee d a SEARCH_LIMIT = a + p.gap.length := by
  have hlen := length_contents_cons p ps
  have long := p.length_image
  have fits := h.fits
  have gap := h.gaps p List.mem_cons_self
  refine findBee_found (by omega) (fun q lo hi hit => ?_) h.magic_start (by omega)
    (fun s lo hi => h.readable s (by omega) (by omega)) (by omega)
  have known := h.only q lo hit
  simp only [marks, List.mem_cons] at known
  obtain rfl | rfl | known := known
  · omega
  · omega
  · have behind := le_of_mem_marks known
    omega

/-- The second search finds its end. -/
theorem Layout.findBee_stop (h : Layout d a (p :: ps)) :
    findBee d (a + p.gap.length + 4) SEARCH_LIMIT = a + p.gap.length + p.image.length - 4 := by
  have hlen := length_contents_cons p ps
  have long := p.length_image
  have fits := h.fits
  have image := h.images p List.mem_cons_self
  refine findBee_found (by omega) (fun q lo hi hit => ?_) h.magic_stop (by omega)
    (fun s lo hi => h.readable s (by omega) (by omega)) (by omega)
  have known := h.only q (by omega) hit
  simp only [marks, List.mem_cons] at known
  obtain rfl | rfl | known := known
  · omega
  · omega
  · have behind := le_of_mem_marks known
    omega

/-- From the end of one module a scan finds the next one. -/
theorem Layout.scan_finds (h : Layout d a (p :: ps)) (low : 512 ≤ a) (last : c.lastEnd = a)
    (positive : 0 < c.memory)
    (room : c.memory + 512 * sectorsTouched (a + p.gap.length) p.image.length < 2 ^ 32) :
    Finds (a + p.gap.length) p.image (scan d c) ∧
      (scan d c).after.lastEnd = a + p.gap.length + p.image.length := by
  have hlen := length_contents_cons p ps
  have long := p.length_image
  have fits := h.fits
  have first : findBee d c.lastEnd SEARCH_LIMIT = a + p.gap.length := last ▸ h.findBee_start
  have second := h.findBee_stop
  obtain ⟨m, run, bytes, written⟩ := beeScanAndLoad_module first second (by omega) (by omega)
    (fun t lo hi => h.readable t (by omega) (by omega)) (by omega) room
  have inside : (a + p.gap.length) % 512 + p.image.length ≤
      512 * sectorsTouched (a + p.gap.length) p.image.length := by
    rw [sectorsTouched]
    omega
  simp only [scan, run]
  refine ⟨⟨?_, rfl, ?_, rfl, written⟩, trivial⟩
  · simp only
    omega
  · simp only
    refine (loadBytes_eq_iff (by omega)).mpr fun x hx => ?_
    rw [bytes x hx, h.image hx]

/-- Behind the last module a scan finds nothing and changes nothing. -/
theorem Layout.scan_ends (h : Layout d a []) (last : c.lastEnd = a) :
    (scan d c).address = 0 ∧ (scan d c).after = c := by
  have fits := h.fits
  have window : SEARCH_LIMIT = 102400 := rfl
  have none : findBee d c.lastEnd SEARCH_LIMIT = 0 := by
    rw [last]
    refine findBee_none (fun q lo hit => ?_) (by omega)
    exact absurd (h.only q lo hit) List.not_mem_nil
  simp only [scan, beeScanAndLoad_none none, and_self]

/-- The scans of a disk find its modules in order, each once and whole, and then nothing. -/
theorem modules_discovered (layout : Layout d 512 parts) {scans : List Scan}
    (run : Scanning d start scans c) (first : start.lastEnd = 512)
    (room : ∀ (k : Nat) (s : Scan), scans[k]? = some s →
      ∀ h : k < parts.length, 0 < s.before.memory ∧
      s.before.memory +
        512 * sectorsTouched (moduleOffset parts k h) parts[k].image.length < 2 ^ 32) :
    c.lastEnd = 512 + (contents (parts.take scans.length)).length ∧
    ∀ (k : Nat) (s : Scan), scans[k]? = some s →
      (∀ h : k < parts.length, Finds (moduleOffset parts k h) parts[k].image s) ∧
      (parts.length ≤ k → s.address = 0 ∧ s.after = s.before) := by
  induction run with
  | start => exact ⟨by simpa [contents] using first, fun k s h => nomatch h⟩
  | work before kept ih =>
      obtain ⟨last, found⟩ := ih room
      exact ⟨kept.trans last, found⟩
  | @call scans c before ih =>
      have earlier : ∀ {k : Nat} {s}, scans[k]? = some s → (scans ++ [scan d c])[k]? = some s := by
        intro k s h
        obtain ⟨hk, _⟩ := List.getElem?_eq_some_iff.mp h
        rw [List.getElem?_append_left hk, h]
      obtain ⟨last, found⟩ := ih fun k s h => room k s (earlier h)
      have here := room scans.length (scan d c) List.getElem?_concat_length
      have rest := layout.drop scans.length
      have step : (scan d c).after.lastEnd =
            512 + (contents (parts.take (scans.length + 1))).length ∧
          (∀ h : scans.length < parts.length,
            Finds (moduleOffset parts scans.length h) parts[scans.length].image (scan d c)) ∧
          (parts.length ≤ scans.length → (scan d c).address = 0 ∧ (scan d c).after = c) := by
        by_cases more : scans.length < parts.length
        · rw [List.drop_eq_getElem_cons more] at rest
          obtain ⟨finds, stop⟩ := rest.scan_finds (Nat.le_add_right _ _) last (here more).1
            (here more).2
          refine ⟨?_, fun _ => finds, fun done => absurd more (by omega)⟩
          rw [stop, ← List.take_append_getElem more, contents_append, List.length_append,
            length_contents_cons, contents]
          simp only [List.length_nil]
          omega
        · rw [List.drop_eq_nil_of_le (by omega)] at rest
          obtain ⟨none, same⟩ := rest.scan_ends last
          refine ⟨?_, fun h => absurd h more, fun _ => ⟨none, same⟩⟩
          rw [same, last, List.take_of_length_le (by omega), List.take_of_length_le (by omega)]
      rw [List.length_append, List.length_singleton]
      refine ⟨step.1, fun k s h => ?_⟩
      by_cases hk : k < scans.length
      · rw [List.getElem?_append_left hk] at h
        exact found k s h
      · obtain ⟨bound, _⟩ := List.getElem?_eq_some_iff.mp h
        obtain rfl : k = scans.length := by
          rw [List.length_append, List.length_singleton] at bound
          omega
        obtain rfl : scan d c = s := by simpa using h
        exact step.2

end Discovery

/-- A disk with the gaps and modules behind its first sector, and zeros around them. -/
def diskOf (parts : List Part) : Disk :=
  ⟨fun x => if x < 512 then 0 else (contents parts).getD (x - 512) 0, fun _ => true⟩

/-- Such a disk is laid out as it should be if the first byte of the magic does not occur in it
but at the marks. -/
theorem layout_diskOf {parts : List Part}
    (marked : ∀ x ∈ (contents parts).zipIdx 512, x.1 = 0x3A → x.2 ∈ marks 512 parts)
    (gaps : ∀ p ∈ parts, p.gap.length + 1024 ≤ 512 * SEARCH_LIMIT)
    (images : ∀ p ∈ parts, p.image.length + 1024 ≤ 512 * SEARCH_LIMIT)
    (fits : 512 + (contents parts).length < 2 ^ 32) : Layout (diskOf parts) 512 parts := by
  have behind : ∀ i, (diskOf parts).byte (512 + i) = (contents parts).getD i 0 := by
    intro i
    simp only [diskOf, if_neg (show ¬ 512 + i < 512 by omega), Nat.add_sub_cancel_left]
  refine ⟨fun i hi => ?_, fun p lo hit => ?_, gaps, images, fun _ _ _ => rfl, fits⟩
  · rw [behind, List.getD_eq_getElem?_getD, List.getElem?_eq_getElem hi]
    rfl
  · obtain ⟨i, rfl⟩ := Nat.exists_eq_add_of_le lo
    have byte : (diskOf parts).byte (512 + i) = 0x3A := (List.cons.inj hit).1
    rw [behind, List.getD_eq_getElem?_getD] at byte
    by_cases inside : i < (contents parts).length
    · rw [List.getElem?_eq_getElem inside] at byte
      exact marked _ (List.mk_add_mem_zipIdx_iff_getElem?.mpr (List.getElem?_eq_getElem inside))
        byte
    · rw [List.getElem?_eq_none (by omega)] at byte
      exact absurd byte (by decide)

/-- A module with one export. -/
def callPart (gap : List Byte) (id : Byte) : Part :=
  ⟨gap, [0, id, 0, 0, 0, 0x61] ++ List.replicate 32 0 ++
    [1, 0, 0, 0, 0, 0, 0, 0, 0x20, 0, 0, 0, 0x10, 0, 0, 0]⟩

/-- The first module lies in two sectors, and the second one behind it in the latter. -/
def splitPair : List Part := [callPart (List.replicate 480 0) 1, callPart [0] 2]

theorem splitPair_layout : Layout (diskOf splitPair) 512 splitPair :=
  layout_diskOf (by decide +kernel) (by decide +kernel) (by decide +kernel) (by decide +kernel)

theorem splitPair_first (h : 0 < splitPair.length) : moduleOffset splitPair 0 h = 992 ∧
    splitPair[0].image = (callPart [] 1).image := by
  revert h
  decide +kernel

theorem splitPair_second (h : 1 < splitPair.length) : moduleOffset splitPair 1 h = 1055 ∧
    splitPair[1].image = (callPart [] 2).image := by
  revert h
  decide +kernel

theorem modules_discovered_split_pair :
    let first := scan (diskOf splitPair) (prepare emptyCore)
    let second := scan (diskOf splitPair) first.after
    let third := scan (diskOf splitPair) second.after
    Finds 992 (callPart [] 1).image first ∧ Finds 1055 (callPart [] 2).image second ∧
      third.address = 0 ∧ third.after = third.before := by
  intro first second third
  have run : Scanning (diskOf splitPair) (prepare emptyCore) [first, second, third] third.after :=
    .call (.call (.call .start))
  have begun : Scanning (diskOf splitPair) (prepare emptyCore) [first] first.after := .call .start
  have two : splitPair.length = 2 := rfl
  have memory : first.before.memory = 0x4200 := congrArg Core.memory (scan_before _ _)
  have next : second.before = first.after := scan_before _ _
  have sectors : sectorsTouched 992 (callPart [] 1).image.length = 2 ∧
      sectorsTouched 1055 (callPart [] 2).image.length = 1 := by decide
  -- From here on a scan is what the run says of it, not a computation.
  clear_value third second first
  have one : Finds 992 (callPart [] 1).image first := by
    have found := ((modules_discovered splitPair_layout begun rfl fun k s hk h => ?_).2 0 first
      rfl).1 (by omega)
    · rwa [(splitPair_first _).1, (splitPair_first _).2] at found
    · obtain ⟨small, rfl⟩ := List.getElem?_eq_some_iff.mp hk
      obtain rfl : k = 0 := Nat.lt_one_iff.mp small
      rw [List.getElem_singleton]
      rw [(splitPair_first h).1, (splitPair_first h).2, sectors.1, memory]
      decide
  have memory' : second.before.memory = 0x4600 := by
    rw [next, one.memory, sectors.1, memory]
  have found := (modules_discovered splitPair_layout run rfl fun k s hk h => ?_).2
  · have two' := (found 1 second rfl).1 (by omega)
    rw [(splitPair_second _).1, (splitPair_second _).2] at two'
    exact ⟨one, two', (found 2 third rfl).2 (by omega)⟩
  · obtain rfl | rfl : k = 0 ∨ k = 1 := by omega
    · obtain rfl : first = s := by simpa using hk
      rw [(splitPair_first h).1, (splitPair_first h).2, sectors.1, memory]
      decide
    · obtain rfl : second = s := by simpa using hk
      rw [(splitPair_second h).1, (splitPair_second h).2, sectors.2, memory']
      decide

end HiveRK.Queen
