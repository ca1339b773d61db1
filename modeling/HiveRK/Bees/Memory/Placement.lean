import HiveRK.Bees.Memory.Isolation

/-!
# The heap and its neighbours

`bee_init` puts the heap behind the bump end and gives it one megabyte, wherever that
is. Two stretches of low memory belong to others: the kernel image and the VGA text
buffer. Nothing in memory.c looks at them, so whether a header or a payload lands there
depends on the blocks that first fit takes, and on nothing else.
-/

namespace HiveRK.Memory

open Machine FirstFit

/-- A stretch of memory that another part of the system owns. -/
structure Region where
  start : Nat
  size : Nat
deriving DecidableEq, Repr

/-- The text buffer that `SYSprint` and display write: 25 lines of 160 bytes. -/
def vga : Region := ⟨0xB8000, 25 * 160⟩

/-- The kernel: 128 sectors at `KERNEL_LOAD_ADDRESS`. -/
def kernel : Region := ⟨0x10000, 128 * 512⟩

/-- The `n` bytes at `a` are outside the kernel and the text buffer. -/
def Clear (a n : Nat) : Prop :=
  ∀ r ∈ [kernel, vga], a + n ≤ r.start ∨ r.start + r.size ≤ a

instance (a n : Nat) : Decidable (Clear a n) :=
  inferInstanceAs (Decidable (∀ r ∈ [kernel, vga], _))

/-- Every header in the list and every payload handed out is clear. -/
def ClearState (global : Nat) (s : State) : Prop :=
  ∃ hs, headers s.mem heapTotalUnits (heap s.mem global) = some hs ∧
    (∀ h ∈ hs, Clear h.address 8) ∧ ∀ p ∈ s.live, Clear p.ptr p.size

def Header.Fits (req : Nat) (h : Header) : Prop := h.free ≠ 0 ∧ req ≤ h.units

instance (req : Nat) (h : Header) : Decidable (h.Fits req) :=
  inferInstanceAs (Decidable (h.free ≠ 0 ∧ req ≤ h.units))

/-- The first block of the list that is free and long enough. -/
def firstFit (m : Mem) (global req : Nat) : Option Header :=
  (headers m heapTotalUnits (heap m global)).bind fun hs => hs.find? fun h => h.Fits req

/-- The block that a request would be cut from has room outside the kernel and the text
buffer: for the payload behind its header, and for the header of the remainder. -/
def RoomIsClear (global : Nat) (s : State) : Op → Prop
  | .kmalloc size => size ≠ 0 → ∀ h ∈ firstFit s.mem global (bytesToUnits size),
      Clear (h.address + 8) size ∧
        (bytesToUnits size < h.units → Clear (h.address + 64 * bytesToUnits size) 8)
  | .kfree _ => True
  | .write _ _ => True

section Headers

variable {a req : Nat} {bs pre post : List Block} {b : Block}

theorem headerList_addresses (base k : Nat) (bs : List Block) :
    (headerList (base + 64 * k) bs).map Header.address =
      (starts k bs).map fun u => base + 64 * u := by
  induction bs generalizing k with
  | nil => rfl
  | cons b bs ih =>
      have shift : base + 64 * k + 64 * b.units = base + 64 * (k + b.units) := by omega
      rw [headerList, shift, List.map_cons, ih, starts_cons, List.map_cons]

/-- All headers are clear exactly when all blocks begin at clear addresses. -/
theorem clear_headerList (base : Nat) (bs : List Block) :
    (∀ h ∈ headerList base bs, Clear h.address 8) ↔ ∀ u ∈ starts 0 bs, Clear (base + 64 * u) 8 := by
  have addresses := headerList_addresses base 0 bs
  rw [Nat.mul_zero, Nat.add_zero] at addresses
  rw [← List.forall_mem_map (P := fun a => Clear a 8), addresses, List.forall_mem_map]

theorem find_fits (post : List Block) (small : ∀ c ∈ pre, ¬ (c.free = true ∧ req ≤ c.units))
    (hfree : b.free = true)
    (hfit : req ≤ b.units) :
    ∃ h, (headerList a (pre ++ b :: post)).find? (fun h => h.Fits req) = some h ∧
      h.address = a + 64 * span pre ∧ h.units = b.units := by
  induction pre generalizing a with
  | nil =>
      refine ⟨_, List.find?_cons_of_pos ?_, rfl, rfl⟩
      simpa [Header.Fits, hfree] using hfit
  | cons c pre ih =>
      obtain ⟨hc, hpre⟩ := List.forall_mem_cons.mp small
      obtain ⟨h, found, haddr, hunits⟩ := @ih (a + 64 * c.units) hpre
      refine ⟨h, ?_, by rw [haddr, span_cons]; omega, hunits⟩
      rw [List.cons_append, headerList, List.find?_cons_of_neg, found]
      simpa [Header.Fits] using hc

theorem find_fits_none (small : ∀ c ∈ bs, ¬ (c.free = true ∧ req ≤ c.units)) :
    (headerList a bs).find? (fun h => h.Fits req) = none := by
  induction bs generalizing a with
  | nil => rfl
  | cons c bs ih =>
      obtain ⟨hc, hbs⟩ := List.forall_mem_cons.mp small
      rw [headerList, List.find?_cons_of_neg, ih hbs]
      simpa [Header.Fits] using hc

end Headers

section Steps

variable {global base : Nat} {bs : List Block} {s t : State}

theorem Inv.clearState_iff (inv : Inv global base bs s) :
    ClearState global s ↔
      (∀ u ∈ starts 0 bs, Clear (base + 64 * u) 8) ∧ ∀ p ∈ s.live, Clear p.ptr p.size := by
  rw [ClearState, inv.headers_eq, ← clear_headerList]
  simp

theorem Inv.firstFit_eq (inv : Inv global base bs s) (req : Nat) :
    firstFit s.mem global req = (headerList base bs).find? fun h => h.Fits req := by
  rw [firstFit, inv.headers_eq, Option.bind_some]

/-- A request keeps the state clear exactly when the room it is served from is clear. -/
theorem clear_kmalloc (inv : Inv global base bs s) (placed : Placed global base)
    (hbase : base ≠ 0) (clear : ClearState global s) {size : Nat} (hsize : size ≤ maxSize)
    (taken : apply global s (.kmalloc size) = .ok t) :
    ClearState global t ↔ RoomIsClear global s (.kmalloc size) := by
  obtain ⟨t', bs', run, inv', _, served⟩ := kmalloc_step inv placed hsize
  obtain rfl : t' = t := Except.ok.inj (run.symm.trans taken)
  rw [RoomIsClear, inv.firstFit_eq]
  obtain ⟨rfl, hzero | hnull | none⟩ | ⟨off, hzero, found, live⟩ := served
  · exact iff_of_true clear fun h => absurd hzero h
  · exact absurd hnull hbase
  · rw [find_fits_none (allocate_eq_none.mp none)]
    exact iff_of_true clear fun _ _ h => nomatch h
  · obtain ⟨pre, b, post, rfl, small, hfree, hfit, rfl, rfl⟩ := allocate_eq_some found
    obtain ⟨h, hfound, haddr, hunits⟩ := find_fits (a := base) post small hfree hfit
    obtain ⟨headersClear, payloadsClear⟩ := inv.clearState_iff.mp clear
    simp only [inv'.clearState_iff, mem_starts_split hfit, live, hfound, Option.mem_some_iff,
      forall_eq', haddr, hunits, List.forall_mem_cons, Nat.zero_add]
    constructor
    · rintro ⟨starts, payload, _⟩ _
      refine ⟨payload, fun hlt => ?_⟩
      have rest := starts (span pre + bytesToUnits size) (.inr ⟨hlt, rfl⟩)
      rwa [Nat.mul_add, ← Nat.add_assoc] at rest
    · intro room
      obtain ⟨payload, rest⟩ := room hzero
      refine ⟨?_, payload, payloadsClear⟩
      rintro u (hu | ⟨hlt, rfl⟩)
      · exact headersClear u hu
      · rw [Nat.mul_add, ← Nat.add_assoc]
        exact rest hlt

/-- Freeing and client writes never leave the clear states. -/
theorem clear_step (inv : Inv global base bs s) (placed : Placed global base) (hbase : base ≠ 0)
    (clear : ClearState global s) {op : Op} (step : Step global s op t) :
    ClearState global t ↔ RoomIsClear global s op := by
  obtain ⟨legal, taken⟩ := step
  cases op with
  | kmalloc size => exact clear_kmalloc inv placed hbase clear legal taken
  | kfree ptr =>
      obtain ⟨t', bs', run, inv', _, fewer, starts⟩ := kfree_step inv placed legal
      obtain rfl : t' = t := Except.ok.inj (run.symm.trans taken)
      obtain ⟨headersClear, payloadsClear⟩ := inv.clearState_iff.mp clear
      refine iff_of_true (inv'.clearState_iff.mpr ⟨?_, ?_⟩) trivial
      · exact fun u hu => headersClear u (starts.subset hu)
      · exact fun p hp => payloadsClear p (fewer.subset hp)
  | write address v =>
      obtain ⟨t', run, inv'⟩ := write_step inv placed v legal
      obtain rfl : t' = t := Except.ok.inj (run.symm.trans taken)
      obtain rfl := Except.ok.inj run
      exact iff_of_true (inv'.clearState_iff.mpr (inv.clearState_iff.mp clear)) trivial

end Steps

section Runs

variable {m : Mem} {global : Nat} {ops : List Op} {s : State}

theorem clearState_boot (boots : heap m global = global + 4) :
    ClearState global (boot m global) ↔ Clear (heapBase (global + 4)) 8 := by
  rw [(inv_boot boots).clearState_iff]
  simp [boot]

/-- A run from a bump end below the text buffer goes through clear states only, if and
only if the first header is clear and every request is served from clear room. -/
theorem clear_run_iff (boots : heap m global = global + 4) (below : global + 4 < vga.start) :
    (ClearState global (boot m global) ∧
      Runs (fun s op t => Step global s op t ∧ ClearState global t) (boot m global) ops s) ↔
    (Clear (heapBase (global + 4)) 8 ∧
      Runs (fun s op t => Step global s op t ∧ RoomIsClear global s op) (boot m global) ops s) := by
  have placed := placed_heapBase (boots ▸ heap_lt m global)
  have hbase : heapBase (global + 4) ≠ 0 := by
    have hvga : vga.start = 0xB8000 := rfl
    simp only [heapBase, bytesToUnits, u32]
    omega
  rw [clearState_boot boots]
  refine and_congr_right fun first => ?_
  have start : (∃ bs, Inv global (heapBase (global + 4)) bs (boot m global)) ∧
      ClearState global (boot m global) :=
    ⟨⟨_, inv_boot boots⟩, (clearState_boot boots).mpr first⟩
  have next : ∀ {s op t}, (∃ bs, Inv global (heapBase (global + 4)) bs s) →
      Step global s op t → ∃ bs, Inv global (heapBase (global + 4)) bs t := by
    rintro s op t ⟨bs, inv⟩ ⟨legal, taken⟩
    obtain ⟨t', bs', run, inv'⟩ := legal_step inv placed legal
    obtain rfl : t' = t := Except.ok.inj (run.symm.trans taken)
    exact ⟨bs', inv'⟩
  constructor
  · intro run
    refine (run.imp (fun s => (∃ bs, Inv global _ bs s) ∧ ClearState global s) start ?_).1
    rintro s op t ⟨⟨bs, inv⟩, clear⟩ ⟨step, clear'⟩
    exact ⟨⟨step, (clear_step inv placed hbase clear step).mp clear'⟩, next ⟨bs, inv⟩ step, clear'⟩
  · intro run
    refine (run.imp (fun s => (∃ bs, Inv global _ bs s) ∧ ClearState global s) start ?_).1
    rintro s op t ⟨⟨bs, inv⟩, clear⟩ ⟨step, room⟩
    have clear' := (clear_step inv placed hbase clear step).mpr room
    exact ⟨⟨step, clear'⟩, next ⟨bs, inv⟩ step, clear'⟩

/-- The first 100 bytes are served clear of both regions. -/
theorem clear_run_iff_first_kmalloc : ∃ s,
    Runs (fun s op t => Step 0x4000 s op t ∧ ClearState 0x4000 t) (boot bootMem 0x4000)
      [.kmalloc 100] s := by
  obtain ⟨s, step⟩ := bootMem_step (show 100 ≤ maxSize by decide)
  have room : RoomIsClear 0x4000 (boot bootMem 0x4000) (.kmalloc 100) := by
    have found : (headerList (heapBase (0x4000 + 4)) [⟨heapTotalUnits, true⟩]).find?
        (fun h => h.Fits (bytesToUnits 100)) = some ⟨0x4040, 16384, 1, 0⟩ := by decide
    rw [RoomIsClear, (inv_boot bootMem_boots).firstFit_eq, found]
    intro _ h hh
    obtain rfl := Option.mem_some_iff.mp hh
    decide
  have clear := (clear_run_iff bootMem_boots (by decide)).mpr ⟨by decide, .snoc .nil ⟨step, room⟩⟩
  exact ⟨s, clear.2⟩

/-- The memory manager is the only module: names page, an image of two sectors, data page, a
node of 40 bytes and four bytes of storage. A single request of a million bytes is served
across the kernel and the text buffer. -/
theorem kmalloc_overlaps_kernel_and_vga : ∃ s,
    Runs (Step 0x4828) (boot (bootAt 0x4828) 0x4828) [.kmalloc 1000000] s ∧
      s.live = [⟨0x4848, 1000000⟩] ∧
      (0x4848 < kernel.start ∧ kernel.start + kernel.size < 0x4848 + 1000000) ∧
      (0x4848 < vga.start ∧ vga.start + vga.size < 0x4848 + 1000000) ∧
      ¬ ClearState 0x4828 s := by
  have hsize : 1000000 ≤ maxSize := by decide
  have placed : Placed 0x4828 (heapBase (0x4828 + 4)) := placed_heapBase (by decide)
  obtain ⟨s, bs, taken, inv, _, served⟩ :=
    kmalloc_step (inv_boot (bootAt_boots (by decide))) placed hsize
  have first : allocate (bytesToUnits 1000000) [⟨heapTotalUnits, true⟩] =
      some (0, [⟨15626, false⟩, ⟨758, true⟩]) := by decide
  have live : s.live = [⟨0x4848, 1000000⟩] := by
    obtain ⟨_, hzero | hnull | none⟩ | ⟨off, _, found, live⟩ := served
    · exact absurd hzero (by decide)
    · exact absurd hnull (by decide)
    · exact nomatch first.symm.trans none
    · obtain ⟨rfl, _⟩ := Prod.mk.inj (Option.some.inj (first.symm.trans found))
      exact live
  refine ⟨s, .snoc .nil ⟨hsize, taken⟩, live, by decide, by decide, ?_⟩
  rintro ⟨_, _, _, payloads⟩
  have clear : Clear 0x4848 1000000 := payloads ⟨0x4848, 1000000⟩ (by simp [live])
  exact absurd clear (by decide)

end Runs
end HiveRK.Memory
