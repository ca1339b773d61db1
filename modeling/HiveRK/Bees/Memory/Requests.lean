import HiveRK.Bees.Memory.Placement
import Mathlib.Order.Bounds.Basic

/-!
# Which requests are served

`kmalloc` looks at single blocks, its clients at runs of free units. Because no two free
blocks are neighbours, the two agree: a request is served exactly when some run of free
units is long enough, and from the lowest one. A heap pointer that `bytes_to_units` cut to
null is the exception; then no request is served.

Only sizes up to `maxSize` have a unit count that fits 16 bits. `WideStep` lets a run ask
for any 32-bit size.
-/

namespace HiveRK.Memory

open Machine FirstFit

/-- Unit `k` of the heap at `base` belongs to the block that was handed out as `p`. -/
def Allocation.Owns (p : Allocation) (base k : Nat) : Prop :=
  p.ptr - 8 ≤ base + 64 * k ∧ base + 64 * k < p.ptr - 8 + 64 * bytesToUnits p.size

/-- The `n` units from `u` on are units of the heap, and no live allocation owns one. -/
structure FreeUnits (global : Nat) (s : State) (u n : Nat) : Prop where
  inside : u + n ≤ heapTotalUnits
  free : ∀ k, u ≤ k → k < u + n → ∀ p ∈ s.live, ¬ p.Owns (heap s.mem global) k

/-- The request is served if and only if enough units in a row are free. It is served from the
lowest such run, and otherwise nothing changes. -/
def ServedIfPossible (global : Nat) (s : State) (size : Nat) : Prop :=
  ∃ r, kmalloc passFuel s.mem global size = .ok r ∧
    (r.2 ≠ 0 ↔ ∃ u, FreeUnits global s u (bytesToUnits size)) ∧
    (∀ u, IsLeast {u | FreeUnits global s u (bytesToUnits size)} u →
      r.2 = heap s.mem global + 64 * u + 8) ∧
    ((¬ ∃ u, FreeUnits global s u (bytesToUnits size)) → r = (s.mem, 0))

section Served

variable {global base size : Nat} {bs : List Block} {s : State}

/-- What the live allocations leave free are the free runs of the arena. -/
theorem Inv.freeUnits_iff (inv : Inv global base bs s) {u n : Nat} (hn : 0 < n) :
    FreeUnits global s u n ↔ FreeRun bs u n := by
  have total := inv.heap.total
  constructor
  · rintro ⟨inside, free⟩
    refine ⟨by omega, ?_⟩
    rintro ⟨off, k⟩ hb
    by_contra meets
    have mem : (base + 64 * off + 8, k) ∈ s.live.map fun p => (p.ptr, bytesToUnits p.size) :=
      inv.owned.symm.subset (List.mem_map_of_mem (f := fun u => (base + 64 * u.1 + 8, u.2)) hb)
    obtain ⟨p, hp, heq⟩ := List.mem_map.mp mem
    obtain ⟨hptr, hunits⟩ := Prod.mk.inj heq
    simp only [not_or, not_le] at meets
    have hk : 0 < k := by
      obtain ⟨_, _, hbs, _⟩ := exists_of_mem_used hb
      exact inv.heap.wellFormed.pos ⟨k, false⟩ (by simp [hbs])
    -- The later one of the two starts is a unit of both.
    refine free (max u off) (by omega) (by omega) p hp ?_
    have start : base + 64 * off + 8 - 8 = base + 64 * off := Nat.add_sub_cancel _ _
    rw [Allocation.Owns, inv.heap.heap, hptr, hunits, start]
    omega
  · rintro ⟨inside, free⟩
    refine ⟨by omega, fun k lo hi p hp => ?_⟩
    have mem : (p.ptr, bytesToUnits p.size) ∈ (used 0 bs).map fun u => (base + 64 * u.1 + 8, u.2) :=
      inv.owned.subset (List.mem_map_of_mem hp)
    obtain ⟨⟨off, len⟩, hu, heq⟩ := List.mem_map.mp mem
    obtain ⟨hptr, hunits⟩ := Prod.mk.inj heq
    have apart := free _ hu
    rw [Allocation.Owns, inv.heap.heap, ← hptr, ← hunits]
    simp only at apart
    omega

theorem servedIfPossible_refused (call : kmalloc passFuel s.mem global size = .ok (s.mem, 0))
    (none : ¬ ∃ u, FreeUnits global s u (bytesToUnits size)) : ServedIfPossible global s size :=
  ⟨_, call, iff_of_false (fun h => h rfl) none, fun u least => absurd ⟨u, least.1⟩ none,
    fun _ => rfl⟩

/-- In a heap with a block at its pointer, first fit finds what is free. -/
theorem Inv.servedIfPossible (inv : Inv global base bs s) (placed : Placed global base)
    (hbase : base ≠ 0) (pos : 0 < size) (hsize : size ≤ maxSize) :
    ServedIfPossible global s size := by
  have units := bytesToUnits_pos hsize
  rcases kmalloc_cases inv.heap placed hsize (Nat.lt_succ_self heapTotalUnits) with
    ⟨call, hzero | hnull | none⟩ | ⟨m', off, bs', _, _, _, call, _, _, found, _⟩
  · omega
  · exact absurd hnull hbase
  · refine servedIfPossible_refused call ?_
    rintro ⟨u, free⟩
    exact inv.heap.wellFormed.allocate_none units none u ((inv.freeUnits_iff units).mp free)
  · obtain ⟨own, first⟩ := inv.heap.wellFormed.allocate_first units found
    have free : FreeUnits global s off (bytesToUnits size) := (inv.freeUnits_iff units).mpr own
    refine ⟨_, call, iff_of_true (Nat.succ_ne_zero _) ⟨off, free⟩, ?_,
      fun none => absurd ⟨off, free⟩ none⟩
    rintro u ⟨here, least⟩
    have same : u = off :=
      Nat.le_antisymm (least free) (first u ((inv.freeUnits_iff units).mp here))
    rw [same, inv.heap.heap]

/-- To `while(cur)` a null heap pointer is a heap without blocks. -/
theorem Inv.kmalloc_null (inv : Inv global 0 bs s) (pos : 0 < size) :
    kmalloc passFuel s.mem global size = .ok (s.mem, 0) := by
  rw [kmalloc, if_neg (Nat.pos_iff_ne_zero.mp pos), inv.heap.heap, passFuel, kmallocLoop,
    if_pos rfl]

/-- Nothing is handed out of such a heap, so all of its units are free. -/
theorem Inv.freeUnits_null (inv : Inv global 0 bs s) {u n : Nat} :
    FreeUnits global s u n ↔ u + n ≤ heapTotalUnits :=
  ⟨FreeUnits.inside, fun inside => ⟨inside, fun _ _ _ p hp => absurd rfl (inv.nonnull p hp)⟩⟩

end Served

section Runs

variable {m : Mem} {global : Nat} {ops : List Op} {s : State}

/-- After every run a request is served as it should be, if and only if `bee_init` computed a
heap pointer other than null, or no heap is long enough for the request. -/
theorem kmalloc_succeeds_iff (boots : heap m global = global + 4)
    (run : Runs (Step global) (boot m global) ops s) {size : Nat} (pos : 0 < size)
    (hsize : size ≤ maxSize) :
    ServedIfPossible global s size ↔
      bytesToUnits (global + 4) ≠ 0 ∨ heapTotalUnits < bytesToUnits size := by
  obtain ⟨bs, inv⟩ := inv_of_runs boots run
  have placed := placed_heapBase (boots ▸ heap_lt m global)
  by_cases null : bytesToUnits (global + 4) = 0
  · have hbase : heapBase (global + 4) = 0 := by rw [heapBase, null, Nat.zero_mul]
    rw [hbase] at inv
    have call := inv.kmalloc_null pos
    constructor
    · rintro ⟨r, call', served, _⟩
      obtain rfl := Except.ok.inj (call.symm.trans call')
      refine .inr (Nat.lt_of_not_le fun room => served.mpr ⟨0, ?_⟩ rfl)
      exact inv.freeUnits_null.mpr ((Nat.zero_add _).symm ▸ room)
    · intro why
      refine servedIfPossible_refused call ?_
      rintro ⟨u, free⟩
      have long := why.resolve_left fun h => h null
      have inside := free.inside
      omega
  · have hbase : heapBase (global + 4) ≠ 0 :=
      Nat.mul_ne_zero null (by decide)
    exact iff_of_true (inv.servedIfPossible placed hbase pos hsize) (.inl null)

/-- A block was given back and cut again: the next request is served from its remainder. -/
theorem kmalloc_succeeds_iff_reuse : ∃ s,
    Runs (Step 0x4000) (boot bootMem 0x4000)
      [.kmalloc 100, .kmalloc 200, .kfree 0x4048, .kmalloc 50] s ∧
    ServedIfPossible 0x4000 s 50 := by
  obtain ⟨s, run, _⟩ := reuse_runs
  exact ⟨s, run, (kmalloc_succeeds_iff bootMem_boots run (by decide) (by decide)).mpr
    (.inl (by decide))⟩

/-- Where the bump end is `0x3FFFBC`, `bee_init` computes null. One byte is refused, and all
units are free. -/
theorem kmalloc_refuses_free_heap :
    heap (boot (bootAt 0x3FFFB8) 0x3FFFB8).mem 0x3FFFB8 = 0 ∧
    kmalloc passFuel (boot (bootAt 0x3FFFB8) 0x3FFFB8).mem 0x3FFFB8 1 =
      .ok ((boot (bootAt 0x3FFFB8) 0x3FFFB8).mem, 0) ∧
    FreeUnits 0x3FFFB8 (boot (bootAt 0x3FFFB8) 0x3FFFB8) 0 (bytesToUnits 1) ∧
    ¬ ServedIfPossible 0x3FFFB8 (boot (bootAt 0x3FFFB8) 0x3FFFB8) 1 := by
  have null : heap (boot (bootAt 0x3FFFB8) 0x3FFFB8).mem 0x3FFFB8 = 0 := by decide
  have call : kmalloc passFuel (boot (bootAt 0x3FFFB8) 0x3FFFB8).mem 0x3FFFB8 1 =
      .ok ((boot (bootAt 0x3FFFB8) 0x3FFFB8).mem, 0) := by
    rw [kmalloc, if_neg Nat.one_ne_zero, null, passFuel, kmallocLoop, if_pos rfl]
  have free : FreeUnits 0x3FFFB8 (boot (bootAt 0x3FFFB8) 0x3FFFB8) 0 (bytesToUnits 1) :=
    ⟨by decide, fun _ _ _ _ hp => absurd hp List.not_mem_nil⟩
  refine ⟨null, call, free, ?_⟩
  rintro ⟨r, call', served, _⟩
  obtain rfl := Except.ok.inj (call.symm.trans call')
  exact served.mpr ⟨0, free⟩ rfl

end Runs

/-! ### Sizes beyond 16 bits of units -/

/-- `kmalloc` outputs 0 and keeps the block list, or hands out a block with room for the
header and `size` bytes. Afterwards the blocks still tile the heap. -/
def HandledSafely (global : Nat) (s : State) (size : Nat) : Prop :=
  ∃ r, kmalloc passFuel s.mem global size = .ok r ∧
    (r.2 = 0 ∧ headers r.1 heapTotalUnits (heap r.1 global) =
        headers s.mem heapTotalUnits (heap s.mem global) ∨
      r.2 ≠ 0 ∧ size + 8 ≤ 64 * units r.1 (r.2 - 8)) ∧
    ∃ hs, headers r.1 heapTotalUnits (heap r.1 global) = some hs ∧
      Tiling (heap s.mem global) hs (if r.2 = 0 then s.live else ⟨r.2, size⟩ :: s.live)

/-- The unit count of the request is exact, or there is no block to be taken for it. -/
def WellCounted (global : Nat) (s : State) (size : Nat) : Prop :=
  size ≤ maxSize ∨ heap s.mem global = 0 ∨ firstFit s.mem global (bytesToUnits size) = none

/-- Like `Op.Legal`, for requests of any 32-bit size that is well counted. -/
def Op.WideLegal (global : Nat) (s : State) : Op → Prop
  | .kmalloc size => size < 2 ^ 32 ∧ WellCounted global s size
  | op => op.Legal s.live

def WideStep (global : Nat) (s : State) (op : Op) (t : State) : Prop :=
  op.WideLegal global s ∧ apply global s op = .ok t

section Wide

variable {global base size : Nat} {bs : List Block} {s t : State}

/-- The block that `allocate` takes is the first fit of the block list. -/
theorem Inv.firstFit_some (inv : Inv global base bs s) {req off : Nat} {bs' : List Block}
    (found : allocate req bs = some (off, bs')) :
    ∃ h, firstFit s.mem global req = some h ∧ h.address = base + 64 * off := by
  obtain ⟨pre, b, post, rfl, small, hfree, hfit, rfl, _⟩ := allocate_eq_some found
  obtain ⟨h, hit, address, _⟩ := find_fits (a := base) post small hfree hfit
  exact ⟨h, (inv.firstFit_eq req).trans hit, address⟩

theorem Inv.firstFit_none_iff (inv : Inv global base bs s) (req : Nat) :
    firstFit s.mem global req = none ↔ allocate req bs = none := by
  rw [inv.firstFit_eq]
  constructor
  · intro none
    cases found : allocate req bs with
    | none => rfl
    | some r =>
        obtain ⟨_, hit, _⟩ := inv.firstFit_some found
        rw [inv.firstFit_eq] at hit
        exact nomatch none.symm.trans hit
  · exact fun none => find_fits_none (allocate_eq_none.mp none)

theorem Inv.kmalloc_eq (inv : Inv global base bs s) (hzero : size ≠ 0) :
    kmalloc passFuel s.mem global size = kmallocLoop (bytesToUnits size) passFuel s.mem base := by
  rw [kmalloc, if_neg hzero, inv.heap.heap]

theorem Inv.length_lt (inv : Inv global base bs s) : bs.length < passFuel :=
  Nat.lt_succ_of_le inv.heap.length_le

/-- A request that is not counted exactly, but well, is refused. -/
theorem Inv.kmalloc_refused (inv : Inv global base bs s) (hzero : size ≠ 0)
    (why : Memory.heap s.mem global = 0 ∨ firstFit s.mem global (bytesToUnits size) = none) :
    kmalloc passFuel s.mem global size = .ok (s.mem, 0) := by
  rw [inv.kmalloc_eq hzero]
  by_cases hbase : base = 0
  · rw [hbase, passFuel, kmallocLoop, if_pos rfl]
  · rw [inv.heap.heap] at why
    have none := (inv.firstFit_none_iff _).mp (why.resolve_left hbase)
    rw [← inv.heap.cursor_eq]
    exact kmallocLoop_none inv.heap.list hbase none inv.length_lt

/-- Where a block is found, it is handed out, whatever the unit count is. -/
theorem Inv.kmalloc_fits (inv : Inv global base bs s) (placed : Placed global base)
    (hzero : size ≠ 0) (hbase : base ≠ 0)
    (fits : firstFit s.mem global (bytesToUnits size) ≠ none) :
    ∃ r, kmalloc passFuel s.mem global size = .ok r ∧ r.2 ≠ 0 := by
  have total := inv.heap.total
  have room := placed.fits
  have fuel := inv.length_lt
  cases found : allocate (bytesToUnits size) bs with
  | none => exact absurd ((inv.firstFit_none_iff _).mpr found) fits
  | some r =>
      obtain ⟨pre, b, post, rfl, small, hfree, hfit, _⟩ := allocate_eq_some found
      obtain ⟨_, head, _⟩ := blockList_append.mp inv.heap.list
      have hb : 0 < b.units := inv.heap.wellFormed.pos b (by simp)
      rw [span_append, span_cons] at total
      rw [List.length_append] at fuel
      obtain ⟨rest, hrest⟩ : ∃ rest, passFuel = rest + 1 + pre.length :=
        ⟨passFuel - pre.length - 1, by omega⟩
      have guard : free s.mem (base + 64 * span pre) ≠ 0 ∧
          bytesToUnits size ≤ units s.mem (base + 64 * span pre) := by
        rw [head.free, head.units, hfree]
        exact ⟨Nat.one_ne_zero, hfit⟩
      have call := inv.kmalloc_eq hzero
      rw [← inv.heap.cursor_eq, hrest, kmallocLoop_skip inv.heap.list small (fun _ => hbase),
        cursor_cons, kmallocLoop, if_neg (by omega), if_pos guard, ← hrest] at call
      refine ⟨_, call, ?_⟩
      simp only
      rw [u32_of_lt (by omega)]
      exact Nat.succ_ne_zero _

/-- An exact count is served safely. -/
theorem Inv.handledSafely (inv : Inv global base bs s) (placed : Placed global base)
    (hsize : size ≤ maxSize) : HandledSafely global s size := by
  obtain ⟨t, _, taken, inv', _⟩ := kmalloc_step inv placed hsize
  rw [HandledSafely, inv.heap.heap]
  rcases kmalloc_cases inv.heap placed hsize (Nat.lt_succ_self heapTotalUnits) with
    ⟨call, _⟩ | ⟨m', off, bs', _, _, _, call, _, _, found, heap, _⟩
  · exact ⟨_, call, .inl ⟨rfl, by rw [inv.heap.heap]⟩, _, inv.headers_eq, inv.tiling⟩
  · simp only [apply, passFuel, call, Except.map, Nat.succ_ne_zero, if_false] at taken
    obtain rfl := Except.ok.inj taken
    obtain ⟨pre, b, post, _, _, _, _, rfl, rfl⟩ := allocate_eq_some found
    have taken := (blockList_append.mp heap.list).2.1
    refine ⟨_, call, .inr ⟨Nat.succ_ne_zero _, ?_⟩, _, inv'.headers_eq, inv'.tiling⟩
    rw [Nat.add_sub_cancel, taken.units]
    exact le_bytesToUnits hsize

/-- No block is long enough for a size beyond `maxSize`. -/
theorem handledSafely_iff (inv : Inv global base bs s) (placed : Placed global base)
    (pos : 0 < size) : HandledSafely global s size ↔ WellCounted global s size := by
  have hzero : size ≠ 0 := Nat.pos_iff_ne_zero.mp pos
  by_cases hsize : size ≤ maxSize
  · exact iff_of_true (inv.handledSafely placed hsize) (.inl hsize)
  constructor
  · rintro ⟨r, call, outcome, _⟩
    by_contra counted
    simp only [WellCounted, not_or, inv.heap.heap] at counted
    obtain ⟨_, hbase, fits⟩ := counted
    obtain ⟨r', call', output⟩ := inv.kmalloc_fits placed hzero hbase fits
    obtain rfl : r' = r := Except.ok.inj (call'.symm.trans call)
    obtain ⟨_, long⟩ := outcome.resolve_left fun h => output h.1
    have short : units r'.1 (r'.2 - 8) < 2 ^ 16 := load_lt 2 _ _
    unfold maxSize at hsize
    omega
  · intro counted
    have call := inv.kmalloc_refused hzero (counted.resolve_left hsize)
    refine ⟨_, call, .inl ⟨rfl, rfl⟩, _, inv.headers_eq, ?_⟩
    rw [inv.heap.heap, if_pos rfl]
    exact inv.tiling

theorem wide_step (inv : Inv global base bs s) (placed : Placed global base) {op : Op}
    (step : WideStep global s op t) : ∃ bs', Inv global base bs' t := by
  obtain ⟨legal, taken⟩ := step
  have narrow : op.Legal s.live → ∃ bs', Inv global base bs' t := by
    intro legal
    obtain ⟨t', bs', run, inv'⟩ := legal_step inv placed legal
    obtain rfl : t' = t := Except.ok.inj (run.symm.trans taken)
    exact ⟨bs', inv'⟩
  cases op with
  | kmalloc size =>
      by_cases hsize : size ≤ maxSize
      · exact narrow hsize
      · have hzero : size ≠ 0 := by
          rintro rfl
          exact hsize (Nat.zero_le _)
        have call := inv.kmalloc_refused hzero (legal.2.resolve_left hsize)
        simp only [apply, call, Except.map, if_true] at taken
        obtain rfl := Except.ok.inj taken
        exact ⟨bs, inv⟩
  | kfree ptr => exact narrow legal
  | write address v => exact narrow legal

end Wide

section WideRuns

variable {m : Mem} {global : Nat} {ops : List Op} {s : State}

/-- As long as every request is well counted, the blocks tile the heap, and the next request
of any 32-bit size is handled safely if and only if it is well counted too. -/
theorem wide_requests_iff (boots : heap m global = global + 4)
    (run : Runs (WideStep global) (boot m global) ops s) :
    (∃ hs, headers s.mem heapTotalUnits (heap s.mem global) = some hs ∧
      Tiling (heapBase (global + 4)) hs s.live) ∧
    ∀ size, 0 < size → size < 2 ^ 32 →
      (HandledSafely global s size ↔ WellCounted global s size) := by
  have placed := placed_heapBase (boots ▸ heap_lt m global)
  obtain ⟨bs, inv⟩ := run.invariant (fun s => ∃ bs, Inv global (heapBase (global + 4)) bs s)
    ⟨_, inv_boot boots⟩ (fun _ _ _ ⟨_, inv⟩ step => wide_step inv placed step)
  exact ⟨⟨_, inv.headers_eq, inv.tiling⟩, fun size pos _ => handledSafely_iff inv placed pos⟩

/-- The largest size that is always counted exactly. -/
theorem wide_requests_iff_boot : HandledSafely 0x4000 (boot bootMem 0x4000) maxSize :=
  ((wide_requests_iff bootMem_boots .nil).2 maxSize (by decide) (by decide)).mpr
    (.inl (Nat.le_refl _))

/-- A request for 2^32 - 8 bytes counts no unit. It is served from the first block, which
becomes empty and its own successor. -/
theorem kmalloc_serves_no_unit :
    (kmalloc passFuel (boot bootMem 0x4000).mem 0x4000 0xFFFFFFF8).toOption.map
        (fun r => (r.2, units r.1 0x4040, next r.1 0x4040)) = some (0x4048, 0, 0x4040) ∧
      ¬ HandledSafely 0x4000 (boot bootMem 0x4000) 0xFFFFFFF8 := by
  have served : (kmalloc passFuel (boot bootMem 0x4000).mem 0x4000 0xFFFFFFF8).toOption.map
      (fun r => (r.2, units r.1 0x4040, next r.1 0x4040)) = some (0x4048, 0, 0x4040) := by decide
  refine ⟨served, ?_⟩
  rintro ⟨r, call, outcome, _⟩
  rw [call] at served
  obtain ⟨output, short, _⟩ : r.2 = 0x4048 ∧ units r.1 0x4040 = 0 ∧ next r.1 0x4040 = 0x4040 := by
    simpa [Except.toOption] using served
  rw [output] at outcome
  obtain ⟨null, _⟩ | ⟨_, long⟩ := outcome
  · exact absurd null (by decide)
  · rw [show 0x4048 - 8 = 0x4040 from rfl, short] at long
    exact absurd long (by decide)

end WideRuns

end HiveRK.Memory
