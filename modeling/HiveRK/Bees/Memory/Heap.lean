import HiveRK.Bees.Memory.Refinement

/-!
# Whole calls on a heap

`Heap m global base bs` is the state of the memory manager between two calls: its
storage points to `base`, and the headers from there on are a well-formed arena of
`heapTotalUnits` units. `kmalloc` and `kfree` keep it, act on the arena as `allocate`
and `release`, and return within a fuel of one step for each block.

The storage is allocated directly in front of the bump end from which the base is
computed, so it never lies in the heap. A base of 0 is possible, because
`bytes_to_units` cuts the bump end to 16 bits of
units. The guard `while(cur)` then fails at once, and no request is ever served.
-/

namespace HiveRK.Memory

open Machine FirstFit

/-- Where the heap and the module's four bytes of storage lie. -/
structure Placed (global base : Nat) : Prop where
  fits : base + 64 * heapTotalUnits < 2 ^ 32
  apart : global + 4 ≤ base ∨ base + 64 * heapTotalUnits ≤ global
  storage : global + 4 ≤ 2 ^ 32

/-- The base that `bee_init` computes from the bump end. -/
def heapBase (bumpEnd : Nat) : Nat := bytesToUnits bumpEnd * 64

/-- Storage that ends at the bump end is apart from the heap, also where the 16-bit unit
count wraps and puts the base far below. -/
theorem placed_heapBase {global : Nat} (h : global + 4 < 2 ^ 32) :
    Placed global (heapBase (global + 4)) := by
  have cut := bytesToUnits_lt (global + 4)
  have units : heapTotalUnits = 16384 := by decide
  refine ⟨?_, ?_, by omega⟩
  · rw [heapBase]
    omega
  · simp only [heapBase, bytesToUnits, u32]
    omega

/-- The heap between calls. -/
structure Heap (m : Mem) (global base : Nat) (bs : List Block) : Prop where
  heap : heap m global = base
  list : BlockList m base bs 0
  total : span bs = heapTotalUnits
  wellFormed : WellFormed bs

/-- `bee_init` leaves one free block of all units at the base that it computes, and writes
nothing but its storage and the header. -/
theorem heap_initHeap_of {m : Mem} {global bumpEnd : Nat} (boot : heap m global = bumpEnd)
    (placed : Placed global (heapBase bumpEnd)) :
    Heap (initHeap m global) global (heapBase bumpEnd) [⟨heapTotalUnits, true⟩] ∧
      WritesOnly (fun x => (global ≤ x ∧ x < global + 4) ∨
        (heapBase bumpEnd ≤ x ∧ x < heapBase bumpEnd + 8)) m (initHeap m global) := by
  have units : heapTotalUnits = 16384 := by decide
  obtain ⟨fits, apart, storage⟩ := placed
  rw [units] at fits apart
  have base : bytesToUnits (heap m global) * 64 = heapBase bumpEnd := by rw [boot, heapBase]
  generalize heapBase bumpEnd = b at *
  simp only [heap] at base
  have stored : load32 (store32 m global b) global = b := load_store_self m (by omega) (by omega)
  have built : initHeap m global =
      setNext (setFree (setUnits (store32 m global b) b heapTotalUnits) b 1) b 0 := by
    simp (disch := omega) only [initHeap, heap, base, setUnits, setFree, setNext, stored,
      load_store_of_disjoint]
  rw [built]
  simp only [setUnits, setFree, setNext]
  refine ⟨⟨?_, ⟨⟨?_, ?_, ?_⟩, trivial⟩, rfl, wellFormed_single (by decide)⟩, fun x hx => ?_⟩
  · simp (disch := omega) only [heap, stored, load_store_of_disjoint]
  · simp (disch := omega) only [Memory.units, units, load_store_of_disjoint, load_store_self]
  · simp (disch := omega) only [free, load_store_of_disjoint, load_store_self]
    rfl
  · simp (disch := omega) only [next, load_store_self]
    rfl
  · simp only [not_or, not_and, not_lt] at hx
    exact (store_outside (by omega) (by omega)).trans ((store_outside (by omega) (by omega)).trans
      ((store_outside (by omega) (by omega)).trans (store_outside (by omega) (by omega))))

/-- The heap of a module whose storage ends at the bump end. -/
theorem heap_initHeap {m : Mem} {global : Nat} (boot : heap m global = global + 4) :
    Heap (initHeap m global) global (heapBase (global + 4)) [⟨heapTotalUnits, true⟩] :=
  (heap_initHeap_of boot (placed_heapBase (boot ▸ heap_lt m global))).1

theorem length_le_span {bs : List Block} (pos : ∀ b ∈ bs, 0 < b.units) : bs.length ≤ span bs := by
  induction bs with
  | nil => simp
  | cons b bs ih =>
      obtain ⟨hb, hbs⟩ := List.forall_mem_cons.mp pos
      have tail := ih hbs
      rw [List.length_cons, span_cons]
      omega

section Calls

variable {m : Mem} {global base fuel : Nat} {bs : List Block}

theorem Heap.length_le (h : Heap m global base bs) : bs.length ≤ heapTotalUnits :=
  h.total ▸ length_le_span h.wellFormed.pos

theorem Heap.ne_nil (h : Heap m global base bs) : bs ≠ [] := by
  rintro rfl
  exact absurd h.total (by decide)

theorem Heap.cursor_eq (h : Heap m global base bs) : cursor 0 base bs = base := by
  obtain ⟨b, bs, rfl⟩ := List.exists_cons_of_ne_nil h.ne_nil
  rfl

/-- A write inside the heap does not reach the module's storage. -/
theorem Placed.heap_agree (placed : Placed global base) {m' : Mem} {a n : Nat}
    (written : WritesWithin m m' a n) (lo : base ≤ a) (hi : a + n ≤ base + 64 * heapTotalUnits) :
    heap m' global = heap m global :=
  written.load placed.storage (by have := placed.apart; omega)

/-- `kmalloc` either changes nothing and outputs 0, for the reason given, or it performs
`allocate` and outputs the address behind the header of the block it took. -/
theorem kmalloc_cases (h : Heap m global base bs) (placed : Placed global base) {size : Nat}
    (hsize : size ≤ maxSize) (hfuel : heapTotalUnits < fuel) :
    (kmalloc fuel m global size = .ok (m, 0) ∧
      (size = 0 ∨ base = 0 ∨ allocate (bytesToUnits size) bs = none)) ∨
    ∃ m' off bs' pre b post, kmalloc fuel m global size = .ok (m', base + 64 * off + 8) ∧
      size ≠ 0 ∧ base ≠ 0 ∧ allocate (bytesToUnits size) bs = some (off, bs') ∧
      Heap m' global base bs' ∧ bs = pre ++ b :: post ∧ b.free = true ∧ off = span pre ∧
      WritesWithin m m' (base + 64 * span pre) (64 * b.units) := by
  by_cases hzero : size = 0
  · exact .inl ⟨by rw [kmalloc, if_pos hzero], .inl hzero⟩
  have call : kmalloc fuel m global size = kmallocLoop (bytesToUnits size) fuel m base := by
    rw [kmalloc, if_neg hzero, h.heap]
  by_cases hbase : base = 0
  · refine .inl ⟨?_, .inr (.inl hbase)⟩
    obtain ⟨k, rfl⟩ : ∃ k, fuel = k + 1 := ⟨fuel - 1, by omega⟩
    rw [call, hbase, kmallocLoop, if_pos rfl]
  have hlen : bs.length < fuel := Nat.lt_of_le_of_lt h.length_le hfuel
  cases found : allocate (bytesToUnits size) bs with
  | none =>
      refine .inl ⟨?_, .inr (.inr rfl)⟩
      rw [call, ← h.cursor_eq]
      exact kmallocLoop_none h.list hbase found hlen
  | some r =>
      obtain ⟨off, bs'⟩ := r
      have hfits := placed.fits
      have htotal := h.total
      have hunits : heapTotalUnits < 2 ^ 16 := by decide
      obtain ⟨m', pre, b, post, run, list, rfl, hfree, rfl, written⟩ :=
        kmallocLoop_some h.list hbase found (bytesToUnits_pos hsize) h.wellFormed (by omega)
          (by omega) hlen
      rw [h.cursor_eq] at run
      have inside : span pre + b.units ≤ heapTotalUnits := by
        rw [← htotal, span_append, span_cons]
        omega
      refine .inr ⟨m', span pre, bs', pre, b, post, call.trans run, hzero, hbase, rfl, ?_, rfl,
        hfree, rfl, written⟩
      refine ⟨?_, list, (span_allocate found).trans htotal,
        h.wellFormed.allocate (bytesToUnits_pos hsize) found⟩
      exact (placed.heap_agree written (by omega) (by omega)).trans h.heap

section Freed

variable {pre post : List Block} {n : Nat}

/-- The flag is set and a free successor is taken in, both in the freed block's header. -/
theorem freed_merged (h : Heap m global base (pre ++ ⟨n, false⟩ :: post))
    (placed : Placed global base) :
    ∃ total rest, joinNext n post = ⟨total, true⟩ :: rest ∧
      BlockList (mergeNext (setFree m (base + 64 * span pre) 1) (base + 64 * span pre)) base
        (pre ++ ⟨total, true⟩ :: rest) 0 ∧
      (∀ b ∈ pre ++ ⟨total, true⟩ :: rest, 0 < b.units) ∧
      WritesWithin m (mergeNext (setFree m (base + 64 * span pre) 1) (base + 64 * span pre))
        (base + 64 * span pre) 8 := by
  have hfits := placed.fits
  have htotal := h.total
  have hunits : heapTotalUnits < 2 ^ 16 := by decide
  obtain ⟨prewf, usedwf, _⟩ := wellFormed_append.mp h.wellFormed
  obtain ⟨hn, _, postwf⟩ := wellFormed_cons.mp usedwf
  obtain ⟨front, blocks⟩ := blockList_append.mp h.list
  have head : HeaderAt m (base + 64 * span pre) n false
      (cursor 0 (base + 64 * span pre + 64 * n) post) := blocks.1
  have back : BlockList m (base + 64 * span pre + 64 * n) post 0 := blocks.2
  simp only [span_append, span_cons] at htotal hn
  obtain ⟨freed, flagged⟩ := headerAt_setFree head true (rfl : 1 = _) (by omega)
  obtain ⟨merged, mergedIn⟩ := blockList_mergeNext freed
    (back.agree postwf.pos (flagged.agreeOn (by omega)) (by omega)) hn postwf.pos (by omega)
    (by omega)
  have written := flagged.trans mergedIn
  have front₁ := front.agree prewf.pos (written.agreeOn (by omega)) (by omega)
  have joined := usedwf.joinNext
  obtain ⟨total, rest, hjoin⟩ := joinNext_eq_cons n post
  rw [hjoin] at merged joined
  refine ⟨total, rest, hjoin, blockList_append.mpr ⟨front₁, merged⟩, fun b hb => ?_, written⟩
  obtain hb | hb := List.mem_append.mp hb
  · exact prewf.pos b hb
  · exact joined.pos b hb

/-- The freed block is the first one, or lies behind the header that can still change. -/
theorem freed_flag {m₁ : Mem} {total : Nat} {rest : List Block}
    (list₁ : BlockList m₁ base (pre ++ ⟨total, true⟩ :: rest) 0)
    (list₂ : BlockList (mergeLast m₁ (if pre = [] then 0 else base + 64 * span pre.dropLast)
      (base + 64 * span pre)) base (joinPrev pre (⟨total, true⟩ :: rest)) 0)
    (absorbed : WritesWithin m₁ (mergeLast m₁ (if pre = [] then 0 else
      base + 64 * span pre.dropLast) (base + 64 * span pre)) (base + 64 * span pre.dropLast) 8)
    (pos : ∀ b ∈ pre, 0 < b.units) (fits : base + 64 * span pre + 8 ≤ 2 ^ 32) :
    free (mergeLast m₁ (if pre = [] then 0 else base + 64 * span pre.dropLast)
      (base + 64 * span pre)) (base + 64 * span pre) = 1 := by
  obtain rfl | ⟨init, l, rfl⟩ := List.eq_nil_or_concat' pre
  · rw [joinPrev_nil] at list₂
    simpa using list₂.1.free
  · have hl : 0 < l.units := pos l (by simp)
    have here : HeaderAt m₁ (base + 64 * span (init ++ [l])) total true _ :=
      (blockList_append.mp list₁).2.1
    have before : span init + l.units = span (init ++ [l]) := by simp
    rw [if_neg (by simp), List.dropLast_concat] at absorbed ⊢
    exact (absorbed.load (by omega) (by omega)).trans here.free

/-- `kfree` of a block in use performs `release`, and its search meets the block before
null. Only two headers can change: the one of the freed block, which says free from then on
even where it is no block of its own any more, and the one of the block in front of it. -/
theorem kfree_release
    (h : Heap m global base (pre ++ ⟨n, false⟩ :: post)) (placed : Placed global base)
    (hbase : base ≠ 0) (hfuel : heapTotalUnits < fuel) :
    ∃ m', kfree fuel m global (base + 64 * span pre + 8) = .ok m' ∧
      Heap m' global base (release pre n post) ∧
      Meets (mergeNext (setFree m (base + 64 * span pre) 1) (base + 64 * span pre))
        (base + 64 * span pre) heapTotalUnits base ∧
      free m' (base + 64 * span pre) = 1 ∧
      ∀ x, (x < base + 64 * span pre ∨ base + 64 * span pre + 8 ≤ x) →
        (x < base + 64 * span pre.dropLast ∨ base + 64 * span pre.dropLast + 8 ≤ x) →
        m' x = m x := by
  have hfits := placed.fits
  have htotal := h.total
  have hunits : heapTotalUnits < 2 ^ 16 := by decide
  have hlen := h.length_le
  obtain ⟨prewf, usedwf, _⟩ := wellFormed_append.mp h.wellFormed
  have notFree : ¬ free m (base + 64 * span pre) ≠ 0 := by
    have head : HeaderAt m (base + 64 * span pre) n false _ := (blockList_append.mp h.list).2.1
    simp [head.free]
  have hn := (wellFormed_cons.mp usedwf).1
  simp only [span_append, span_cons, List.length_append, List.length_cons] at htotal hlen hn
  have hlast : span pre.dropLast ≤ span pre := by
    obtain rfl | ⟨init, l, rfl⟩ := List.eq_nil_or_concat' pre <;> simp
  have hblock : u32 (base + 64 * span pre + 8 + 2 ^ 32 - 8) = base + 64 * span pre := by
    rw [u32]
    omega
  obtain ⟨total, rest, hjoin, list₁, pos₁, written⟩ := freed_merged h placed
  generalize hm₁ : mergeNext _ _ = m₁ at list₁ written
  have hsum := span_joinNext n post
  simp only [hjoin, span_cons] at hsum
  -- The search returns the block in front, which absorbs the freed one if it is free.
  have search := findLast_eq 0 list₁ prewf.pos (List.cons_ne_nil _ _)
    (Nat.lt_of_le_of_lt (Nat.le_trans (Nat.le_add_right _ _) hlen) hfuel)
  obtain ⟨list₂, absorbed⟩ := blockList_mergeLast list₁ hbase pos₁ (by omega) (by omega) rfl
  have heap₁ : heap m₁ global = base :=
    (placed.heap_agree written (by omega) (by omega)).trans h.heap
  have wf' : WellFormed (release pre n post) := WellFormed.release h.wellFormed
  refine ⟨mergeLast m₁ (if pre = [] then 0 else base + 64 * span pre.dropLast)
    (base + 64 * span pre), ?_, ⟨?_, ?_, ?_, wf'⟩, ?_,
    freed_flag list₁ list₂ absorbed prewf.pos (by omega), ?_⟩
  · rw [kfree, if_neg (by omega)]
    simp only [hblock, if_neg notFree]
    rw [hm₁, heap₁, search]
    rfl
  · exact (placed.heap_agree absorbed (by omega) (by omega)).trans heap₁
  · rw [release, hjoin]
    exact list₂
  · rw [span_release]
    omega
  · exact meets_blockList list₁ hbase (List.cons_ne_nil _ _) (by omega)
  · intro x hx hx'
    exact (absorbed x hx').trans (written x hx)

end Freed

theorem kfree_used {pre post : List Block} {n : Nat}
    (h : Heap m global base (pre ++ ⟨n, false⟩ :: post)) (placed : Placed global base)
    (hbase : base ≠ 0) (hfuel : heapTotalUnits < fuel) :
    ∃ m', kfree fuel m global (base + 64 * span pre + 8) = .ok m' ∧
      Heap m' global base (release pre n post) ∧
      Meets (mergeNext (setFree m (base + 64 * span pre) 1) (base + 64 * span pre))
        (base + 64 * span pre) heapTotalUnits base ∧
      ∀ x, (x < base + 64 * span pre ∨ base + 64 * span pre + 8 ≤ x) →
        (x < base + 64 * span pre.dropLast ∨ base + 64 * span pre.dropLast + 8 ≤ x) →
        m' x = m x := by
  obtain ⟨m', run, heap, meets, _, frame⟩ := kfree_release h placed hbase hfuel
  exact ⟨m', run, heap, meets, frame⟩

end Calls
end HiveRK.Memory
