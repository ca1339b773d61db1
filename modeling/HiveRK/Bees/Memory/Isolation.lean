import HiveRK.Bees.Memory.Runs

/-!
# What clients of the memory manager rely on

`headers` follows `next` from a block and collects what it finds. After every run it
finds blocks that tile the heap (`Tiling`), and the payloads handed out are apart from
each other and from all headers (`Isolated`).
-/

namespace HiveRK.Memory

open Machine FirstFit

/-- A header as it stands in memory. -/
structure Header where
  address : Nat
  units : Nat
  free : Nat
  next : Nat
deriving DecidableEq, Repr

def header (m : Mem) (a : Nat) : Header := ⟨a, units m a, free m a, next m a⟩

/-- The headers reached from `a` by `next`, if null is reached within `k` links. -/
def headers (m : Mem) : Nat → Nat → Option (List Header)
  | 0, _ => none
  | k + 1, a =>
      if next m a = 0 then some [header m a]
      else (headers m k (next m a)).map (header m a :: ·)

/-- The headers `hs` tile the heap at `base`, and those not free are the live allocations. -/
structure Tiling (base : Nat) (hs : List Header) (live : List Allocation) : Prop where
  first : hs.head?.map Header.address = some base
  linked : hs.IsChain fun h h' => h.next = h.address + 64 * h.units ∧ h'.address = h.next
  last : ∀ h ∈ hs.getLast?, h.next = 0 ∧
    h.address + 64 * h.units = base + 64 * heapTotalUnits
  nonempty : ∀ h ∈ hs, 1 ≤ h.units
  joined : hs.IsChain fun h h' => ¬ (h.free ≠ 0 ∧ h'.free ≠ 0)
  owned : ((hs.filter fun h => h.free = 0).map fun h => (h.address + 8, h.units)).Perm
    (live.map fun p => (p.ptr, bytesToUnits p.size))
  total : ((hs.filter fun h => h.free ≠ 0).map Header.units).sum +
    (live.map fun p => bytesToUnits p.size).sum = heapTotalUnits

/-- Payloads lie in the heap, and meet neither each other nor a header. -/
structure Isolated (base : Nat) (hs : List Header) (live : List Allocation) : Prop where
  inside : ∀ p ∈ live, base ≤ p.ptr ∧ p.ptr + p.size ≤ base + 64 * heapTotalUnits
  disjoint : live.Pairwise fun p q => p.ptr + p.size ≤ q.ptr ∨ q.ptr + q.size ≤ p.ptr
  headers : ∀ p ∈ live, ∀ h ∈ hs, h.address + 8 ≤ p.ptr ∨ p.ptr + p.size ≤ h.address

/-! ### The headers of an arena -/

/-- The headers that an arena at `a` has in memory. -/
def headerList : Nat → List Block → List Header
  | _, [] => []
  | a, b :: bs =>
      ⟨a, b.units, if b.free then 1 else 0, cursor 0 (a + 64 * b.units) bs⟩ ::
        headerList (a + 64 * b.units) bs

theorem HeaderAt.header_eq {m : Mem} {a n link : Nat} {f : Bool} (h : HeaderAt m a n f link) :
    header m a = ⟨a, n, if f then 1 else 0, link⟩ := by
  rw [header, h.units, h.free, h.next]

theorem headers_eq {m : Mem} {a k : Nat} {bs : List Block} (list : BlockList m a bs 0)
    (pos : ∀ b ∈ bs, 0 < b.units) (hbs : bs ≠ []) (hk : bs.length ≤ k) :
    headers m k a = some (headerList a bs) := by
  induction bs generalizing a k with
  | nil => exact absurd rfl hbs
  | cons b bs ih =>
      obtain ⟨k, rfl⟩ : ∃ j, k = j + 1 := ⟨k - 1, by simp at hk; omega⟩
      obtain ⟨head, tail⟩ := list
      obtain ⟨hb, hpos⟩ := List.forall_mem_cons.mp pos
      cases bs with
      | nil =>
          have stop : next m a = 0 := head.next
          rw [headers, if_pos stop, head.header_eq]
          rfl
      | cons c cs =>
          have link : next m a = a + 64 * b.units := head.next
          have rest := ih tail hpos (List.cons_ne_nil c cs) (by simpa using hk)
          rw [headers, if_neg (by omega), link, rest, head.header_eq]
          rfl

section HeaderList

variable {a : Nat} {bs : List Block}

/-- Every header of the list belongs to a block of the arena. -/
theorem exists_of_mem_headerList {h : Header} (hh : h ∈ headerList a bs) :
    ∃ pre b post, bs = pre ++ b :: post ∧ h.address = a + 64 * span pre ∧ h.units = b.units := by
  induction bs generalizing a with
  | nil => simp [headerList] at hh
  | cons b bs ih =>
      rw [headerList, List.mem_cons] at hh
      obtain rfl | hh := hh
      · exact ⟨[], b, bs, rfl, rfl, rfl⟩
      · obtain ⟨pre, c, post, rfl, haddr, hunits⟩ := ih hh
        exact ⟨b :: pre, c, post, rfl, by rw [haddr, span_cons]; omega, hunits⟩

theorem headerList_linked (a : Nat) (bs : List Block) :
    (headerList a bs).IsChain fun h h' =>
      h.next = h.address + 64 * h.units ∧ h'.address = h.next := by
  induction bs generalizing a with
  | nil => exact List.isChain_nil
  | cons b bs ih =>
      cases bs with
      | nil => exact List.isChain_singleton _
      | cons c cs => exact List.isChain_cons_cons.mpr ⟨⟨rfl, rfl⟩, ih (a + 64 * b.units)⟩

theorem headerList_last (a : Nat) (bs : List Block) :
    ∀ h ∈ (headerList a bs).getLast?, h.next = 0 ∧ h.address + 64 * h.units = a + 64 * span bs := by
  induction bs generalizing a with
  | nil => simp [headerList]
  | cons b bs ih =>
      cases bs with
      | nil => simp [headerList]
      | cons c cs =>
          intro h hh
          obtain ⟨hnext, hend⟩ := ih (a + 64 * b.units) h hh
          rw [span_cons]
          exact ⟨hnext, by omega⟩

theorem headerList_joined (joined : bs.IsChain fun b c => ¬ Joinable b c) (a : Nat) :
    (headerList a bs).IsChain fun h h' => ¬ (h.free ≠ 0 ∧ h'.free ≠ 0) := by
  induction bs generalizing a with
  | nil => exact List.isChain_nil
  | cons b bs ih =>
      cases bs with
      | nil => exact List.isChain_singleton _
      | cons c cs =>
          obtain ⟨seam, rest⟩ := List.isChain_cons_cons.mp joined
          refine List.isChain_cons_cons.mpr ⟨?_, ih rest (a + 64 * b.units)⟩
          simpa [Joinable] using seam

theorem headerList_used (base k : Nat) (bs : List Block) :
    ((headerList (base + 64 * k) bs).filter fun h => h.free = 0).map
        (fun h => (h.address + 8, h.units)) =
      (used k bs).map fun u => (base + 64 * u.1 + 8, u.2) := by
  induction bs generalizing k with
  | nil => rfl
  | cons b bs ih =>
      have shift : base + 64 * k + 64 * b.units = base + 64 * (k + b.units) := by omega
      rw [headerList, shift]
      cases hfree : b.free
      · rw [used_cons_used hfree, List.filter_cons_of_pos (by simp), List.map_cons, List.map_cons,
        ih]
      · rw [used_cons_free hfree, List.filter_cons_of_neg (by simp), ih]

theorem headerList_free (a : Nat) (bs : List Block) :
    (((headerList a bs).filter fun h => h.free ≠ 0).map Header.units).sum = freeUnits bs := by
  induction bs generalizing a with
  | nil => rfl
  | cons b bs ih =>
      rw [headerList, freeUnits, ← ih (a + 64 * b.units)]
      cases hfree : b.free
      · rw [List.filter_cons_of_neg (by simp)]
        simp
      · rw [List.filter_cons_of_pos (by simp)]
        simp

end HeaderList

section Invariant

variable {global base : Nat} {bs : List Block} {s : State}

theorem Inv.headers_eq (inv : Inv global base bs s) :
    headers s.mem heapTotalUnits (Memory.heap s.mem global) = some (headerList base bs) := by
  rw [inv.heap.heap]
  exact Memory.headers_eq inv.heap.list inv.heap.wellFormed.pos inv.heap.ne_nil inv.heap.length_le

theorem Inv.tiling (inv : Inv global base bs s) : Tiling base (headerList base bs) s.live where
  first := by
    obtain ⟨b, rest, rfl⟩ := List.exists_cons_of_ne_nil inv.heap.ne_nil
    rfl
  linked := headerList_linked base bs
  last := inv.heap.total ▸ headerList_last base bs
  nonempty := by
    intro h hh
    obtain ⟨pre, b, post, hbs, _, hunits⟩ := exists_of_mem_headerList hh
    rw [hunits]
    exact inv.heap.wellFormed.pos b (by simp [hbs])
  joined := headerList_joined inv.heap.wellFormed.joined base
  owned := by
    have arena := headerList_used base 0 bs
    rw [Nat.mul_zero, Nat.add_zero] at arena
    rw [arena]
    exact inv.owned.symm
  total := by
    have sizes := (inv.owned.map Prod.snd).sum_nat
    simp only [List.map_map, Function.comp_def] at sizes
    rw [headerList_free, sizes, ← inv.heap.total]
    exact freeUnits_add_used 0 bs

theorem Inv.isolated (inv : Inv global base bs s) : Isolated base (headerList base bs) s.live where
  inside := fun _ hp => inv.inside hp
  disjoint := by
    have apart : ((used 0 bs).map fun u => (base + 64 * u.1 + 8, u.2)).Pairwise
        fun u v => u.1 + 64 * u.2 ≤ v.1 ∨ v.1 + 64 * v.2 ≤ u.1 := by
      rw [List.pairwise_map]
      exact (used_pairwise 0 bs).imp fun h => .inl (by simp only; omega)
    have owned := (inv.owned.symm.pairwise_iff fun h => h.symm).mp apart
    rw [List.pairwise_map] at owned
    refine owned.imp_of_mem fun {p q} hp hq h => ?_
    have roomp := le_bytesToUnits (inv.sizes p hp)
    have roomq := le_bytesToUnits (inv.sizes q hq)
    simp only at h
    omega
  headers := by
    intro p hp h hh
    obtain ⟨pre, b, post, hbs, haddr, _⟩ := exists_of_mem_headerList hh
    rw [haddr]
    exact inv.header_apart hp hbs

/-- The search of a `kfree` of any live pointer meets its block before null. -/
theorem Inv.meets (inv : Inv global base bs s) (placed : Placed global base) {p : Allocation}
    (hp : p ∈ s.live) :
    Meets (mergeNext (setFree s.mem (p.ptr - 8) 1) (p.ptr - 8)) (p.ptr - 8) heapTotalUnits
      (Memory.heap s.mem global) := by
  obtain ⟨pre, post, rfl, hptr, _⟩ := inv.block_of_live hp
  obtain ⟨_, _, _, meets, _⟩ :=
    kfree_used inv.heap placed (inv.nonnull p hp) (Nat.lt_succ_self heapTotalUnits)
  rw [inv.heap.heap, hptr, Nat.add_sub_cancel]
  exact meets

end Invariant

section Runs

variable {m : Mem} {global : Nat} {ops : List Op} {s : State}

/-- After every run the blocks reached from the heap pointer tile the heap, the live
allocations are the blocks in use, and every further legal call returns; a `kfree`
finds its block before null. -/
theorem heap_tiled (boots : heap m global = global + 4)
    (run : Runs (Step global) (boot m global) ops s) :
    (∃ hs, headers s.mem heapTotalUnits (heap s.mem global) = some hs ∧
      Tiling (heapBase (global + 4)) hs s.live) ∧
    (∀ op : Op, op.Legal s.live → ∃ t, apply global s op = .ok t) ∧
    ∀ p ∈ s.live, Meets (mergeNext (setFree s.mem (p.ptr - 8) 1) (p.ptr - 8)) (p.ptr - 8)
      heapTotalUnits (heap s.mem global) := by
  obtain ⟨bs, inv⟩ := inv_of_runs boots run
  have placed := placed_heapBase (boots ▸ heap_lt m global)
  refine ⟨⟨headerList _ bs, inv.headers_eq, inv.tiling⟩, ?_, fun p hp => inv.meets placed hp⟩
  intro op legal
  obtain ⟨t, _, taken, _⟩ := legal_step inv placed legal
  exact ⟨t, taken⟩

/-- A memory in which the bump end behind the storage is stored there. -/
def bootAt (global : Nat) : Mem := store32 (fun _ => 0) global (global + 4)

theorem bootAt_boots {global : Nat} (h : global + 4 < 2 ^ 32) :
    heap (bootAt global) global = global + 4 := load_store_self _ (Nat.le_of_lt h) h

/-- Storage at `0x4000`. -/
def bootMem : Mem := bootAt 0x4000

theorem bootMem_boots : heap bootMem 0x4000 = 0x4000 + 4 := bootAt_boots (by decide)

/-- A first request that fits the 16-bit unit count is taken. -/
theorem bootMem_step {size : Nat} (hsize : size ≤ maxSize) :
    ∃ t, Step 0x4000 (boot bootMem 0x4000) (.kmalloc size) t := by
  obtain ⟨t, _, taken, _⟩ :=
    kmalloc_step (inv_boot bootMem_boots) (placed_heapBase (by decide)) hsize
  exact ⟨t, hsize, taken⟩

/-- Two blocks, of which the first is given back and cut for a smaller request. -/
theorem reuse_runs : ∃ s,
    Runs (Step 0x4000) (boot bootMem 0x4000)
      [.kmalloc 100, .kmalloc 200, .kfree 0x4048, .kmalloc 50] s ∧
    s.live = [⟨0x4048, 50⟩, ⟨0x40C8, 200⟩] := by
  have known : ([.kmalloc 100, .kmalloc 200, .kfree 0x4048, .kmalloc 50].foldlM
      (successor 0x4000) (boot bootMem 0x4000)).map State.live =
        some [⟨0x4048, 50⟩, ⟨0x40C8, 200⟩] := by decide +kernel
  obtain ⟨s, taken, live⟩ := Option.map_eq_some_iff.mp known
  exact ⟨s, .of_foldlM (fun _ _ _ => step_of_successor) taken, live⟩

theorem heap_tiled_reuse : ∃ s hs,
    Runs (Step 0x4000) (boot bootMem 0x4000)
      [.kmalloc 100, .kmalloc 200, .kfree 0x4048, .kmalloc 50] s ∧
    headers s.mem heapTotalUnits (heap s.mem 0x4000) = some hs ∧
    Tiling (heapBase 0x4004) hs [⟨0x4048, 50⟩, ⟨0x40C8, 200⟩] := by
  obtain ⟨s, run, live⟩ := reuse_runs
  obtain ⟨hs, walked, tiling⟩ := (heap_tiled bootMem_boots run).1
  exact ⟨s, hs, run, walked, live ▸ tiling⟩

end Runs
end HiveRK.Memory
