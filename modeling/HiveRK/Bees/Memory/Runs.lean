import HiveRK.Bees.Memory.Heap

/-!
# Runs of the memory manager

A run is any sequence of `kmalloc`, `kfree` and client writes from the heap that
`bee_init` builds. `State` adds to the memory the allocations that are live; only
`Op.Legal` looks at them, the code does not.

`Inv` ties the three views of a state together: the headers in memory, the arena, and
the live allocations. Every legal operation returns and keeps it. What clients can rely
on is then read off the arena: `headers` walks the list as the code does and finds the
blocks tiling the heap, and no payload meets a header or another payload.
-/

namespace HiveRK.Memory

open Machine FirstFit

/-- A request that was served: the pointer handed out, and the size asked for. -/
structure Allocation where
  ptr : Nat
  size : Nat
deriving DecidableEq, Repr

/-- The memory, and the allocations that were not freed since. -/
structure State where
  mem : Mem
  live : List Allocation

inductive Op where
  | kmalloc (size : Nat)
  | kfree (ptr : Nat)
  | write (address : Nat) (v : Byte)

/-- Sizes fit the 16-bit unit count, only null and live pointers are freed, and clients
write inside their own payloads. -/
def Op.Legal (live : List Allocation) : Op → Prop
  | .kmalloc size => size ≤ maxSize
  | .kfree ptr => ptr = 0 ∨ ∃ p ∈ live, p.ptr = ptr
  | .write address _ => ∃ p ∈ live, p.ptr ≤ address ∧ address < p.ptr + p.size

instance (live : List Allocation) : (op : Op) → Decidable (op.Legal live)
  | .kmalloc size => inferInstanceAs (Decidable (size ≤ maxSize))
  | .kfree ptr => inferInstanceAs (Decidable (ptr = 0 ∨ ∃ p ∈ live, p.ptr = ptr))
  | .write address _ =>
      inferInstanceAs (Decidable (∃ p ∈ live, p.ptr ≤ address ∧ address < p.ptr + p.size))

/-- Fuel for one pass over the longest possible list. -/
def passFuel : Nat := heapTotalUnits + 1

def apply (global : Nat) (s : State) : Op → Exec State
  | .kmalloc size => (kmalloc passFuel s.mem global size).map fun r =>
      ⟨r.1, if r.2 = 0 then s.live else ⟨r.2, size⟩ :: s.live⟩
  | .kfree ptr => (kfree passFuel s.mem global ptr).map fun m =>
      ⟨m, s.live.eraseP fun p => p.ptr = ptr⟩
  | .write address v => .ok ⟨Function.update s.mem address v, s.live⟩

def Step (global : Nat) (s : State) (op : Op) (t : State) : Prop :=
  op.Legal s.live ∧ apply global s op = .ok t

/-- The state behind a legal operation that returns. -/
def successor (global : Nat) (s : State) (op : Op) : Option State :=
  if op.Legal s.live then (apply global s op).toOption else none

/-- The heap as `bee_init` leaves it, with nothing allocated. -/
def boot (m : Mem) (global : Nat) : State := ⟨initHeap m global, []⟩

theorem step_of_successor {global : Nat} {s t : State} {op : Op}
    (taken : successor global s op = some t) : Step global s op t := of_guarded taken

/-! ### The invariant -/

/-- The headers are the arena `bs`, and its blocks in use are the live allocations. -/
structure Inv (global base : Nat) (bs : List Block) (s : State) : Prop where
  heap : Heap s.mem global base bs
  owned : (s.live.map fun p => (p.ptr, bytesToUnits p.size)).Perm
    ((used 0 bs).map fun u => (base + 64 * u.1 + 8, u.2))
  sizes : ∀ p ∈ s.live, p.size ≤ maxSize
  nonnull : ∀ p ∈ s.live, base ≠ 0

section Invariant

variable {global base : Nat} {bs pre post : List Block} {b : Block} {s : State} {p : Allocation}

/-- A live allocation is a block in use, which holds its header and its payload. -/
theorem Inv.block_of_live (inv : Inv global base bs s) (hp : p ∈ s.live) :
    ∃ pre post, bs = pre ++ ⟨bytesToUnits p.size, false⟩ :: post ∧
      p.ptr = base + 64 * span pre + 8 ∧
      p.ptr + p.size ≤ base + 64 * (span pre + bytesToUnits p.size) := by
  have mem : (p.ptr, bytesToUnits p.size) ∈ (used 0 bs).map fun u => (base + 64 * u.1 + 8, u.2) :=
    inv.owned.subset (List.mem_map_of_mem hp)
  obtain ⟨⟨off, n⟩, hu, heq⟩ := List.mem_map.mp mem
  obtain ⟨hptr, rfl⟩ := Prod.mk.inj heq
  obtain ⟨pre, post, rfl, hoff⟩ := exists_of_mem_used hu
  have room := le_bytesToUnits (inv.sizes p hp)
  simp only at hptr
  exact ⟨pre, post, rfl, by omega, by omega⟩

/-- No payload meets the header of any block. -/
theorem Inv.header_apart (inv : Inv global base bs s) (hp : p ∈ s.live)
    (hbs : bs = pre ++ b :: post) :
    base + 64 * span pre + 8 ≤ p.ptr ∨ p.ptr + p.size ≤ base + 64 * span pre := by
  obtain ⟨pre', post', heq, hptr, hend⟩ := inv.block_of_live hp
  have hb : 0 < b.units := inv.heap.wellFormed.pos b (by simp [hbs])
  obtain ⟨rfl, _⟩ | before | behind := span_le_of_append_eq (hbs.symm.trans heq)
  · omega
  · omega
  · simp only at behind
    omega

/-- No payload meets a free block. -/
theorem Inv.free_apart (inv : Inv global base bs s) (hp : p ∈ s.live)
    (hbs : bs = pre ++ b :: post) (hfree : b.free = true) :
    base + 64 * span pre + 64 * b.units ≤ p.ptr ∨ p.ptr + p.size ≤ base + 64 * span pre := by
  obtain ⟨pre', post', heq, hptr, hend⟩ := inv.block_of_live hp
  obtain ⟨_, rfl⟩ | before | behind := span_le_of_append_eq (hbs.symm.trans heq)
  · exact absurd hfree (by simp)
  · omega
  · simp only at behind
    omega

/-- Payloads lie inside the heap. -/
theorem Inv.inside (inv : Inv global base bs s) (hp : p ∈ s.live) :
    base ≤ p.ptr ∧ p.ptr + p.size ≤ base + 64 * heapTotalUnits := by
  obtain ⟨pre, post, rfl, hptr, hend⟩ := inv.block_of_live hp
  have total := inv.heap.total
  simp only [span_append, span_cons] at total
  omega

theorem inv_boot {m : Mem} (boots : heap m global = global + 4) :
    Inv global (heapBase (global + 4)) [⟨heapTotalUnits, true⟩] (boot m global) := by
  have mem : (boot m global).mem = initHeap m global := rfl
  refine ⟨?_, by simp [boot, used_cons_free], by simp [boot], by simp [boot]⟩
  rw [mem]
  exact heap_initHeap boots

/-- `s` and `t` have the same bytes in every payload that is live in both. -/
def Keeps (s t : State) : Prop :=
  ∀ p ∈ s.live, p ∈ t.live → AgreeOn s.mem t.mem p.ptr p.size

/-! ### One operation -/

/-- `kmalloc` either changes nothing, or performs `allocate` and hands out what it took. -/
theorem kmalloc_step (inv : Inv global base bs s) (placed : Placed global base) {size : Nat}
    (hsize : size ≤ maxSize) :
    ∃ t bs', apply global s (.kmalloc size) = .ok t ∧ Inv global base bs' t ∧ Keeps s t ∧
      ((t = s ∧ (size = 0 ∨ base = 0 ∨ allocate (bytesToUnits size) bs = none)) ∨
        ∃ off, size ≠ 0 ∧ allocate (bytesToUnits size) bs = some (off, bs') ∧
          t.live = ⟨base + 64 * off + 8, size⟩ :: s.live) := by
  rcases kmalloc_cases inv.heap placed hsize (Nat.lt_succ_self heapTotalUnits) with
    ⟨run, why⟩ |
    ⟨m', off, bs', pre, b, post, run, hzero, hbase, found, heap, hbs, hfree, _, written⟩
  · refine ⟨s, bs, ?_, inv, fun _ _ _ => AgreeOn.refl _ _ _, .inl ⟨rfl, why⟩⟩
    simp [apply, passFuel, run, Except.map]
  · refine ⟨⟨m', ⟨base + 64 * off + 8, size⟩ :: s.live⟩, bs', ?_, ⟨heap, ?_, ?_, ?_⟩, ?_,
      .inr ⟨off, hzero, found, rfl⟩⟩
    · simp [apply, passFuel, run, Except.map]
    · have grown := (used_allocate found 0).map fun u => (base + 64 * u.1 + 8, u.2)
      rw [List.map_cons, Nat.zero_add] at grown
      exact (inv.owned.cons _).trans grown.symm
    · exact List.forall_mem_cons.mpr ⟨hsize, inv.sizes⟩
    · exact fun _ _ => hbase
    · intro p hp _
      have apart := inv.free_apart hp hbs hfree
      exact written.agreeOn (by omega)

/-- `kfree` of a live pointer releases its block and takes the allocation away. -/
theorem Inv.kfree_live (inv : Inv global base bs s) (placed : Placed global base)
    (hp : p ∈ s.live) :
    ∃ m' pre n post, bs = pre ++ ⟨n, false⟩ :: post ∧ p.ptr = base + 64 * span pre + 8 ∧
      kfree passFuel s.mem global p.ptr = .ok m' ∧
      Inv global base (release pre n post) ⟨m', s.live.eraseP fun q => q.ptr = p.ptr⟩ ∧
      free m' (base + 64 * span pre) = 1 ∧
      ∀ x, (x < base + 64 * span pre ∨ base + 64 * span pre + 8 ≤ x) →
        (x < base + 64 * span pre.dropLast ∨ base + 64 * span pre.dropLast + 8 ≤ x) →
        m' x = s.mem x := by
  obtain ⟨q, l₁, l₂, _, hq, hlive, herase⟩ :=
    List.exists_of_eraseP (p := fun q : Allocation => q.ptr = p.ptr) hp (decide_eq_true rfl)
  have hqp : q.ptr = p.ptr := of_decide_eq_true hq
  have hqlive : q ∈ s.live := by simp [hlive]
  obtain ⟨pre, post, rfl, hstart, _⟩ := inv.block_of_live hqlive
  obtain ⟨m', run, heap, _, flag, frame⟩ :=
    kfree_release inv.heap placed (inv.nonnull q hqlive) (Nat.lt_succ_self heapTotalUnits)
  rw [← hstart, hqp] at run
  have fewer : (l₁ ++ l₂).Sublist s.live := by
    rw [hlive]
    exact (List.Sublist.refl l₁).append (List.sublist_cons_self q l₂)
  refine ⟨m', pre, bytesToUnits q.size, post, rfl, hqp.symm.trans hstart, run, ?_, flag, frame⟩
  rw [herase]
  refine ⟨heap, ?_, fun r hr => inv.sizes r (fewer.subset hr),
    fun r hr => inv.nonnull r (fewer.subset hr)⟩
  -- The freed block leaves both sides of the correspondence.
  have owned := inv.owned
  rw [hlive] at owned
  simp only [used_append, used_cons_used, List.map_append, List.map_cons, Nat.zero_add] at owned
  rw [used_release, List.map_append, List.map_append, Nat.zero_add]
  have both := (List.perm_middle.symm.trans owned).trans List.perm_middle
  rw [hstart] at both
  exact both.cons_inv

/-- `kfree` takes away at most one allocation, and no block begins where none began. -/
theorem kfree_step (inv : Inv global base bs s) (placed : Placed global base) {ptr : Nat}
    (legal : ptr = 0 ∨ ∃ p ∈ s.live, p.ptr = ptr) :
    ∃ t bs', apply global s (.kfree ptr) = .ok t ∧ Inv global base bs' t ∧ Keeps s t ∧
      t.live.Sublist s.live ∧ (starts 0 bs').Sublist (starts 0 bs) := by
  by_cases hptr : ptr = 0
  · subst hptr
    have kept : (s.live.eraseP fun p => p.ptr = 0) = s.live := by
      apply List.eraseP_of_forall_not
      intro p hp
      obtain ⟨_, _, _, hptr, _⟩ := inv.block_of_live hp
      simp [hptr]
    refine ⟨s, bs, ?_, inv, fun _ _ _ => AgreeOn.refl _ _ _, List.Sublist.refl _,
      List.Sublist.refl _⟩
    simp only [apply, kfree, if_pos, kept]
    rfl
  obtain ⟨p, hp, rfl⟩ := legal.resolve_left hptr
  obtain ⟨m', pre, n, post, rfl, _, run, inv', _, frame⟩ := inv.kfree_live placed hp
  refine ⟨_, release pre n post, ?_, inv', ?_, List.eraseP_sublist,
    starts_release 0 pre ⟨n, false⟩ post⟩
  · simp only [apply, run]
    rfl
  · intro r hr _ x lo hi
    have own := inv.header_apart hr rfl
    apply frame x (by omega)
    obtain rfl | ⟨init, l, rfl⟩ := List.eq_nil_or_concat' pre
    · simpa using (by omega : x < base + 64 * span [] ∨ base + 64 * span [] + 8 ≤ x)
    · have last := inv.header_apart hr (List.append_assoc init [l] _)
      rw [List.dropLast_concat]
      omega

/-- The invariant looks at nothing but the headers and the storage. -/
theorem Inv.agree (inv : Inv global base bs s) (placed : Placed global base) {m' : Mem}
    (storage : AgreeOn s.mem m' global 4)
    (headers : ∀ pre b post, bs = pre ++ b :: post → AgreeOn s.mem m' (base + 64 * span pre) 8) :
    Inv global base bs ⟨m', s.live⟩ := by
  have fits := placed.fits
  refine ⟨⟨?_, ?_, inv.heap.total, inv.heap.wellFormed⟩, inv.owned, inv.sizes, inv.nonnull⟩
  · exact (storage.load placed.storage (Nat.le_refl _) (Nat.le_refl _)).trans inv.heap.heap
  · refine inv.heap.list.agree_headers headers inv.heap.wellFormed.pos ?_
    rw [inv.heap.total]
    omega

/-- The order in which the live allocations are listed is immaterial. -/
theorem Inv.perm {m : Mem} {live live' : List Allocation} (inv : Inv global base bs ⟨m, live⟩)
    (same : live.Perm live') : Inv global base bs ⟨m, live'⟩ :=
  ⟨inv.heap, (same.symm.map _).trans inv.owned, fun p hp => inv.sizes p (same.symm.subset hp),
    fun p hp => inv.nonnull p (same.symm.subset hp)⟩

/-- A client write touches neither a header nor the storage. -/
theorem write_step (inv : Inv global base bs s) (placed : Placed global base) {address : Nat}
    (v : Byte) (legal : ∃ p ∈ s.live, p.ptr ≤ address ∧ address < p.ptr + p.size) :
    ∃ t, apply global s (.write address v) = .ok t ∧ Inv global base bs t := by
  obtain ⟨p, hp, lo, hi⟩ := legal
  have written : WritesWithin s.mem (Function.update s.mem address v) address 1 :=
    fun x hx => Function.update_of_ne (by omega) _ _
  obtain ⟨_, _⟩ := inv.inside hp
  have apart := placed.apart
  refine ⟨_, rfl, inv.agree placed (written.agreeOn (by omega)) fun pre b post hbs => ?_⟩
  have apart := inv.header_apart hp hbs
  exact written.agreeOn (by omega)

/-- Nothing outside the heap is changed. -/
theorem kmalloc_within (inv : Inv global base bs s) (placed : Placed global base) {size : Nat}
    (hsize : size ≤ maxSize) {r : Mem × Nat} (call : kmalloc passFuel s.mem global size = .ok r) :
    WritesWithin s.mem r.1 base (64 * heapTotalUnits) := by
  rcases kmalloc_cases inv.heap placed hsize (Nat.lt_succ_self heapTotalUnits) with
    ⟨run, _⟩ | ⟨m', off, bs', pre, b, post, run, _, _, _, _, rfl, _, _, written⟩
  · obtain rfl := Except.ok.inj (run.symm.trans call)
    exact WritesWithin.refl _ _ _
  · obtain rfl := Except.ok.inj (run.symm.trans call)
    have total := inv.heap.total
    rw [span_append, span_cons] at total
    exact written.mono (by omega) (by omega)

/-- What the loop returns: nothing found, or a block that it took. -/
theorem kmallocLoop_ok {req fuel cur : Nat} {m : Mem} {r : Mem × Nat} (low : cur < 2 ^ 32)
    (call : kmallocLoop req fuel m cur = .ok r) :
    r = (m, 0) ∨ ∃ block < 2 ^ 32, r.2 = u32 (block + 8) ∧
      (r.1 = setFree m block 0 ∨
        req < units m block ∧ r.1 = setFree (splitBlock m block req) block 0) := by
  induction fuel generalizing cur with
  | zero => exact nomatch call
  | succ fuel ih =>
      rw [kmallocLoop] at call
      split_ifs at call with null fit longer
      · exact .inl (Except.ok.inj call).symm
      · obtain rfl := Except.ok.inj call
        exact .inr ⟨cur, low, rfl, .inr ⟨longer, rfl⟩⟩
      · obtain rfl := Except.ok.inj call
        exact .inr ⟨cur, low, rfl, .inl rfl⟩
      · exact ih (load32_lt _ _) call

/-- A served call writes the header of the block that it takes, and one header behind it. -/
theorem kmalloc_headers (inv : Inv global base bs s) (placed : Placed global base) {size : Nat}
    (hsize : size ≤ maxSize) {r : Mem × Nat} (call : kmalloc passFuel s.mem global size = .ok r)
    (hr : r.2 ≠ 0) :
    8 ≤ r.2 ∧ WritesOnly (fun x => r.2 - 8 ≤ x ∧ x < r.2 ∨
      r.2 - 8 + 64 * bytesToUnits size ≤ x ∧ x < r.2 + 64 * bytesToUnits size) s.mem r.1 := by
  rcases kmalloc_cases inv.heap placed hsize (Nat.lt_succ_self heapTotalUnits) with
    ⟨run, _⟩ | ⟨m', off, bs', pre, b, post, run, hzero, _, _, _, rfl, _, rfl, _⟩
  · exact absurd (congrArg Prod.snd (Except.ok.inj (call.symm.trans run))) hr
  obtain rfl := Except.ok.inj (run.symm.trans call)
  refine ⟨Nat.le_add_left _ _, fun x hx => ?_⟩
  simp only [Nat.add_sub_cancel] at hx
  have fits := placed.fits
  have total := inv.heap.total
  have units := bytesToUnits_pos hsize
  have head : HeaderAt s.mem (base + 64 * span pre) b.units b.free _ :=
    (blockList_append.mp inv.heap.list).2.1
  rw [span_append, span_cons] at total
  rw [kmalloc, if_neg hzero] at call
  obtain null | ⟨block, low, hptr, written⟩ := kmallocLoop_ok (heap_lt _ _) call
  · exact absurd (congrArg Prod.snd null) hr
  obtain rfl : block = base + 64 * span pre := by
    simp only [u32] at hptr
    omega
  have hb : 0 < b.units := inv.heap.wellFormed.pos b (by simp)
  have flag : ∀ m, setFree m (base + 64 * span pre) 0 x = m x := fun m =>
    store_outside (by omega) (by omega)
  obtain written | ⟨longer, written⟩ := written
  · rw [written, flag]
  · rw [head.units] at longer
    have split : u32 (base + 64 * span pre + bytesToUnits size * 64) =
        base + 64 * span pre + bytesToUnits size * 64 := u32_of_lt (by omega)
    rw [written, flag, splitBlock, split]
    simp only [setUnits, setFree, setNext]
    iterate 4 refine (store_outside (by omega) (by omega)).trans ?_
    exact store_outside (by omega) (by omega)

/-- No byte of the payload is written. -/
theorem kmalloc_payload (inv : Inv global base bs s) (placed : Placed global base) {size : Nat}
    (hsize : size ≤ maxSize) {r : Mem × Nat} (call : kmalloc passFuel s.mem global size = .ok r)
    (hr : r.2 ≠ 0) : AgreeOn s.mem r.1 r.2 size := by
  obtain ⟨high, written⟩ := kmalloc_headers inv placed hsize call hr
  have room := le_bytesToUnits hsize
  -- The payload lies between the block's own header and that of the remainder.
  exact written.agreeOn fun x lo hi => by omega

theorem kfree_within (inv : Inv global base bs s) (placed : Placed global base) {p : Allocation}
    (hp : p ∈ s.live) {m' : Mem} (call : kfree passFuel s.mem global p.ptr = .ok m') :
    WritesWithin s.mem m' base (64 * heapTotalUnits) := by
  obtain ⟨pre, post, rfl, hptr, _⟩ := inv.block_of_live hp
  obtain ⟨m'', run, _, _, frame⟩ :=
    kfree_used inv.heap placed (inv.nonnull p hp) (Nat.lt_succ_self heapTotalUnits)
  rw [← hptr] at run
  obtain rfl := Except.ok.inj (run.symm.trans call)
  have total := inv.heap.total
  have hlast : span pre.dropLast ≤ span pre := by
    obtain rfl | ⟨init, l, rfl⟩ := List.eq_nil_or_concat' pre <;> simp
  have room := le_bytesToUnits (inv.sizes p hp)
  rw [span_append, span_cons] at total
  simp only at total
  exact fun x hx => frame x (by omega) (by omega)

/-- No payload is changed by `kmalloc`. -/
theorem Inv.kmalloc_keeps (inv : Inv global base bs s) (placed : Placed global base) {size : Nat}
    (hsize : size ≤ maxSize) {r : Mem × Nat} (call : kmalloc passFuel s.mem global size = .ok r)
    (hp : p ∈ s.live) : AgreeOn s.mem r.1 p.ptr p.size := by
  rcases kmalloc_cases inv.heap placed hsize (Nat.lt_succ_self heapTotalUnits) with
    ⟨run, _⟩ | ⟨m', off, bs', pre, b, post, run, _, _, _, _, hbs, hfree, _, written⟩
  · obtain rfl := Except.ok.inj (run.symm.trans call)
    exact AgreeOn.refl _ _ _
  · obtain rfl := Except.ok.inj (run.symm.trans call)
    have apart := inv.free_apart hp hbs hfree
    exact written.agreeOn (by omega)

/-- Nor by `kfree`, not even the one that is given back. -/
theorem Inv.kfree_keeps (inv : Inv global base bs s) (placed : Placed global base)
    {q : Allocation} (hq : q ∈ s.live) {m' : Mem}
    (call : kfree passFuel s.mem global q.ptr = .ok m') (hp : p ∈ s.live) :
    AgreeOn s.mem m' p.ptr p.size := by
  obtain ⟨m'', pre, n, post, hbs, _, run, _, _, frame⟩ := inv.kfree_live placed hq
  obtain rfl := Except.ok.inj (run.symm.trans call)
  intro x lo hi
  have own := inv.header_apart hp hbs
  refine frame x (by omega) ?_
  obtain rfl | ⟨init, l, rfl⟩ := List.eq_nil_or_concat' pre
  · rw [List.dropLast_nil]
    omega
  · have last := inv.header_apart hp (hbs.trans (List.append_assoc init [l] _))
    rw [List.dropLast_concat]
    omega

/-- Every legal operation returns and keeps the invariant. -/
theorem legal_step (inv : Inv global base bs s) (placed : Placed global base) {op : Op}
    (legal : op.Legal s.live) :
    ∃ t bs', apply global s op = .ok t ∧ Inv global base bs' t := by
  cases op with
  | kmalloc size =>
      obtain ⟨t, bs', run, inv', _⟩ := kmalloc_step inv placed legal
      exact ⟨t, bs', run, inv'⟩
  | kfree ptr =>
      obtain ⟨t, bs', run, inv', _⟩ := kfree_step inv placed legal
      exact ⟨t, bs', run, inv'⟩
  | write address v =>
      obtain ⟨t, run, inv'⟩ := write_step inv placed v legal
      exact ⟨t, bs, run, inv'⟩

end Invariant

/-- The invariant holds after every run. -/
theorem inv_of_runs {m : Mem} {global : Nat} {ops : List Op} {s : State}
    (boots : heap m global = global + 4) (run : Runs (Step global) (boot m global) ops s) :
    ∃ bs, Inv global (heapBase (global + 4)) bs s := by
  have placed := placed_heapBase (boots ▸ heap_lt m global)
  refine run.invariant (fun s => ∃ bs, Inv global (heapBase (global + 4)) bs s)
    ⟨_, inv_boot boots⟩ ?_
  rintro s op t ⟨bs, inv⟩ ⟨legal, taken⟩
  obtain ⟨t', bs', run', inv'⟩ := legal_step inv placed legal
  obtain rfl : t' = t := Except.ok.inj (run'.symm.trans taken)
  exact ⟨bs', inv'⟩

end HiveRK.Memory
