import HiveRK.Bees.Memory.Frees

/-!
# Pointers that are no longer live

`kfree` reads the header in front of its argument, also where that header is no block's
header any more because its block was joined with another one. `Traced` adds to a state
what the run has left behind: every address at which a header stood, and every pointer
that was handed out. No operation clears the flag of such a header except the one that
hands its block out again, so a stale flag is set.
-/

namespace HiveRK.Memory

open Machine FirstFit

/-- `kfree` with the memory at the point where it returns or stops. -/
def kfreeReached (fuel : Nat) (m : Mem) (global ptr : Nat) : Mem × Exec Unit :=
  if ptr = 0 then (m, .ok ())
  else
    let block := u32 (ptr + 2 ^ 32 - 8)
    if free m block ≠ 0 then (m, .error .trap)
    else
      let m := mergeNext (setFree m block 1) block
      match findLast block fuel m 0 (heap m global) with
      | .ok last => (mergeLast m last block, .ok ())
      | .error stop => (m, .error stop)

/-- Where `kfree` returns, it returns the memory that it has reached. -/
theorem kfree_eq_reached (fuel : Nat) (m : Mem) (global ptr : Nat) :
    kfree fuel m global ptr =
      (kfreeReached fuel m global ptr).2.map fun _ => (kfreeReached fuel m global ptr).1 := by
  simp only [kfree, kfreeReached]
  by_cases null : ptr = 0
  · rw [if_pos null, if_pos null]
    rfl
  rw [if_neg null, if_neg null]
  by_cases set : free m (u32 (ptr + 2 ^ 32 - 8)) ≠ 0
  · rw [if_pos set, if_pos set]
    rfl
  rw [if_neg set, if_neg set]
  cases findLast _ _ _ _ _ <;> rfl

/-- The addresses of the blocks in the list. -/
def blockAddresses (m : Mem) (global : Nat) : List Nat :=
  ((headers m heapTotalUnits (heap m global)).getD []).map Header.address

/-- The pointer that an operation hands out, if it is a `kmalloc` that is served. -/
def handedOut (global : Nat) (s : State) : Op → List Nat
  | .kmalloc size =>
      match kmalloc passFuel s.mem global size with
      | .ok r => if r.2 = 0 then [] else [r.2]
      | .error _ => []
  | .kfree _ => []
  | .write _ _ => []

/-- A state, and what the run to it has left behind. -/
structure Traced where
  state : State
  seen : List Nat
  returned : List Nat

def Traced.apply (global : Nat) (w : Traced) (op : Op) : Exec Traced :=
  (Memory.apply global w.state op).map fun t =>
    ⟨t, blockAddresses t.mem global ++ w.seen, handedOut global w.state op ++ w.returned⟩

/-- Any pointer that was handed out may be freed again, and clients write anywhere but in
the module's storage and in headers, those of the list and those left behind. -/
def Op.LegalAfter (global : Nat) (w : Traced) : Op → Prop
  | .kmalloc size => size ≤ maxSize
  | .kfree ptr => ptr = 0 ∨ ptr ∈ w.returned
  | .write address _ => (address < global ∨ global + 4 ≤ address) ∧
      ∀ a ∈ w.seen, address < a ∨ a + 8 ≤ address

def TracedStep (global : Nat) (w : Traced) (op : Op) (w' : Traced) : Prop :=
  op.LegalAfter global w ∧ w.apply global op = .ok w'

def Traced.boot (m : Mem) (global : Nat) : Traced :=
  ⟨Memory.boot m global, blockAddresses (Memory.boot m global).mem global, []⟩

/-! ### The flags left behind -/

/-- The header at `a` says free, or its block is a live allocation. -/
def Flagged (s : State) (a : Nat) : Prop := free s.mem a ≠ 0 ∨ ∃ p ∈ s.live, p.ptr = a + 8

/-- Every header that ever stood somewhere is flagged. -/
structure Marked (global base : Nat) (bs : List Block) (w : Traced) : Prop where
  inv : Inv global base bs w.state
  current : ∀ k ∈ starts 0 bs, base + 64 * k ∈ w.seen
  place : ∀ a ∈ w.seen, ∃ k < heapTotalUnits, a = base + 64 * k
  flagged : ∀ a ∈ w.seen, Flagged w.state a
  returned : ∀ p ∈ w.returned, ∃ a ∈ w.seen, p = a + 8

section Marks

variable {global base : Nat} {bs bs' : List Block} {s t : State} {w w' : Traced}

theorem headerList_address (base k : Nat) (bs : List Block) :
    (headerList (base + 64 * k) bs).map Header.address =
      (starts k bs).map fun x => base + 64 * x := by
  induction bs generalizing k with
  | nil => rfl
  | cons b bs ih =>
      have shift : base + 64 * k + 64 * b.units = base + 64 * (k + b.units) := by omega
      rw [headerList, List.map_cons, shift, ih, starts_cons, List.map_cons]

theorem Inv.blockAddresses_eq (inv : Inv global base bs s) :
    blockAddresses s.mem global = (starts 0 bs).map fun x => base + 64 * x := by
  rw [blockAddresses, inv.headers_eq, Option.getD_some]
  exact headerList_address base 0 bs

theorem Inv.start_lt (inv : Inv global base bs s) {k : Nat} (hk : k ∈ starts 0 bs) :
    k < heapTotalUnits := by
  obtain ⟨pre, b, post, rfl, rfl⟩ := mem_starts.mp hk
  have pos : 0 < b.units := inv.heap.wellFormed.pos b (by simp)
  have total := inv.heap.total
  rw [span_append, span_cons] at total
  omega

/-- A header of the list says free, or its block is a live allocation. -/
theorem Inv.flagged (inv : Inv global base bs s) {k : Nat} (hk : k ∈ starts 0 bs) :
    Flagged s (base + 64 * k) := by
  obtain ⟨pre, b, post, rfl, rfl⟩ := mem_starts.mp hk
  rw [Nat.zero_add]
  obtain ⟨head, _⟩ := (blockList_append.mp inv.heap.list).2
  cases hfree : b.free with
  | true =>
      refine .inl ?_
      rw [head.free, hfree]
      decide
  | false =>
      have own : (base + 64 * span pre + 8, b.units) ∈
          s.live.map fun p => (p.ptr, bytesToUnits p.size) := by
        refine inv.owned.symm.subset ?_
        simp [used_cons_used hfree]
      obtain ⟨p, hp, heq⟩ := List.mem_map.mp own
      exact .inr ⟨p, hp, (Prod.mk.inj heq).1⟩

/-- The flag of a header that is not written stays, and so do live allocations. -/
theorem Flagged.keep {a : Nat} (h : Flagged s a) (same : AgreeOn s.mem t.mem a 8)
    (fits : a + 8 ≤ 2 ^ 32) (live : ∀ p ∈ s.live, p.ptr = a + 8 → p ∈ t.live) : Flagged t a := by
  obtain set | ⟨p, hp, hptr⟩ := h
  · have kept : free t.mem a = free s.mem a := same.load (by omega) (by omega) (by omega)
    exact .inl (kept ▸ set)
  · exact .inr ⟨p, live p hp hptr, hptr⟩

/-- What a step has to show: the headers left behind stay flagged, and what is handed out
lies behind a header of the list. -/
theorem Marked.next (h : Marked global base bs w) (inv' : Inv global base bs' t)
    {output : List Nat}
    (stale : ∀ k < heapTotalUnits, base + 64 * k ∈ w.seen → k ∉ starts 0 bs' →
      Flagged t (base + 64 * k))
    (handed : ∀ p ∈ output, ∃ k ∈ starts 0 bs', p = base + 64 * k + 8) :
    Marked global base bs' ⟨t, blockAddresses t.mem global ++ w.seen, output ++ w.returned⟩ := by
  have listed : ∀ {a}, a ∈ blockAddresses t.mem global ↔ ∃ k ∈ starts 0 bs', base + 64 * k = a := by
    intro a
    rw [inv'.blockAddresses_eq, List.mem_map]
  refine ⟨inv', fun k hk => List.mem_append_left _ (listed.mpr ⟨k, hk, rfl⟩), ?_, ?_, ?_⟩
  · intro a ha
    obtain ha | ha := List.mem_append.mp ha
    · obtain ⟨k, hk, rfl⟩ := listed.mp ha
      exact ⟨k, inv'.start_lt hk, rfl⟩
    · exact h.place a ha
  · intro a ha
    obtain here | old := List.mem_append.mp ha
    · obtain ⟨k, hk, rfl⟩ := listed.mp here
      exact inv'.flagged hk
    · obtain ⟨k, hk, rfl⟩ := h.place a old
      by_cases now : k ∈ starts 0 bs'
      · exact inv'.flagged now
      · exact stale k hk old now
  · intro p hp
    obtain hp | hp := List.mem_append.mp hp
    · obtain ⟨k, hk, rfl⟩ := handed p hp
      exact ⟨_, List.mem_append_left _ (listed.mpr ⟨k, hk, rfl⟩), rfl⟩
    · obtain ⟨a, ha, rfl⟩ := h.returned p hp
      exact ⟨a, List.mem_append_right _ ha, rfl⟩

/-- What `allocate` writes to are blocks of the new list. -/
theorem allocate_boundaries {req off : Nat} (found : allocate req bs = some (off, bs')) :
    off ∈ starts 0 bs' ∧ (off + req ∈ starts 0 bs' ∨ off + req = span bs) := by
  obtain ⟨pre, b, post, rfl, _, _, hfit, rfl, rfl⟩ := allocate_eq_some found
  exact ⟨mem_starts.mpr ⟨pre, ⟨req, false⟩, _, rfl, by simp⟩, split_boundary hfit pre post⟩

/-- A request clears no flag but that of the block it takes, which is live from then on. -/
theorem Marked.kmalloc (h : Marked global base bs w) (placed : Placed global base) {size : Nat}
    (hsize : size ≤ maxSize) (taken : w.apply global (.kmalloc size) = .ok w') :
    ∃ bs', Marked global base bs' w' := by
  have fits := placed.fits
  rcases kmalloc_cases h.inv.heap placed hsize (Nat.lt_succ_self heapTotalUnits) with
    ⟨call, _⟩ | ⟨m', off, bs', pre, b, post, call, _, _, found, _⟩
  · simp only [Traced.apply, apply, handedOut, passFuel, call, Except.map, if_true] at taken
    obtain rfl := Except.ok.inj taken
    exact ⟨bs, h.next h.inv (fun k _ seen _ => h.flagged _ seen) (by simp)⟩
  · obtain ⟨t, bs₁, step, inv', _, outcome⟩ := kmalloc_step h.inv placed hsize
    simp only [apply, passFuel, call, Except.map, Nat.succ_ne_zero, if_false] at step
    obtain rfl := Except.ok.inj step
    obtain ⟨same, _⟩ | ⟨off₁, _, found₁, _⟩ := outcome
    · exact absurd (congrArg (fun s => s.live.length) same) (by simp)
    obtain ⟨rfl, rfl⟩ := Prod.mk.inj (Option.some.inj (found.symm.trans found₁))
    simp only [Traced.apply, apply, handedOut, passFuel, call, Except.map, Nat.succ_ne_zero,
      if_false] at taken
    obtain rfl := Except.ok.inj taken
    obtain ⟨start, boundary⟩ := allocate_boundaries found
    obtain ⟨_, written⟩ := kmalloc_headers h.inv placed hsize call (Nat.succ_ne_zero _)
    have total := h.inv.heap.total
    refine ⟨bs', h.next inv' (fun k hk seen stale => ?_) ?_⟩
    · have first : k ≠ off := fun heq => stale (heq ▸ start)
      have second : k ≠ off + bytesToUnits size := by
        rintro rfl
        exact boundary.elim stale (by omega)
      refine (h.flagged _ seen).keep (written.agreeOn fun x lo hi => ?_) (by omega)
        fun p hp _ => List.mem_cons_of_mem _ hp
      simp only [Nat.add_sub_cancel]
      omega
    · intro p hp
      exact ⟨off, start, List.mem_singleton.mp hp⟩

/-- The header in front of a pointer that was handed out is flagged. -/
theorem Marked.returned_flagged (h : Marked global base bs w) (placed : Placed global base)
    {ptr : Nat} (hp : ptr ∈ w.returned) :
    8 ≤ ptr ∧ u32 (ptr + 2 ^ 32 - 8) = ptr - 8 ∧ Flagged w.state (ptr - 8) := by
  obtain ⟨a, ha, rfl⟩ := h.returned _ hp
  obtain ⟨k, hk, rfl⟩ := h.place a ha
  have fits := placed.fits
  refine ⟨Nat.le_add_left _ _, ?_, ?_⟩
  · simp only [u32]
    omega
  · rw [Nat.add_sub_cancel]
    exact h.flagged _ ha

/-- A stale pointer is trapped before anything is written. -/
theorem kfreeReached_trap {m : Mem} {ptr : Nat} (high : 8 ≤ ptr)
    (block : u32 (ptr + 2 ^ 32 - 8) = ptr - 8) (set : free m (ptr - 8) ≠ 0) (fuel : Nat) :
    kfreeReached fuel m global ptr = (m, .error .trap) := by
  simp only [kfreeReached, block, if_neg (show ptr ≠ 0 by omega), if_pos set]

/-- The block of a freed pointer says free from then on. -/
theorem Marked.kfree (h : Marked global base bs w) (placed : Placed global base) {ptr : Nat}
    (legal : ptr = 0 ∨ ptr ∈ w.returned) (taken : w.apply global (.kfree ptr) = .ok w') :
    ∃ bs', Marked global base bs' w' := by
  have fits := placed.fits
  obtain rfl | hp := legal
  · simp only [Traced.apply, apply, handedOut, Memory.kfree, if_true, Except.map] at taken
    obtain rfl := Except.ok.inj taken
    obtain ⟨t, bs', step, inv', _⟩ := kfree_step h.inv placed (.inl rfl)
    obtain rfl := Except.ok.inj step
    refine ⟨bs', h.next inv' (fun k _ seen _ => ?_) (by simp)⟩
    refine (h.flagged _ seen).keep (AgreeOn.refl _ _ _) (by omega) fun p hp hptr => ?_
    exact (List.mem_eraseP_of_neg (by simp [hptr])).mpr hp
  · obtain ⟨high, block, set | ⟨p, hp, hptr⟩⟩ := h.returned_flagged placed hp
    · have trapped := kfree_eq_reached passFuel w.state.mem global ptr
      rw [kfreeReached_trap high block set] at trapped
      simp only [Traced.apply, apply, trapped, Except.map] at taken
      cases taken
    · obtain ⟨m', pre, n, post, rfl, hstart, run, inv', flag, frame⟩ :=
        h.inv.kfree_live placed hp
      obtain rfl : p.ptr = ptr := by omega
      simp only [Traced.apply, apply, handedOut, run, Except.map] at taken
      obtain rfl := Except.ok.inj taken
      refine ⟨_, h.next inv' (fun k hk seen stale => ?_) (by simp)⟩
      by_cases freed : k = span pre
      · subst freed
        exact .inl (by simp [flag])
      have before : k ≠ span pre.dropLast := by
        rintro rfl
        by_cases first : pre = []
        · exact freed (by simp [first])
        · exact stale (starts_release_before first n post)
      refine (h.flagged _ seen).keep (fun x lo hi => frame x (by omega) (by omega)) (by omega)
        fun q hq hqptr => ?_
      refine (List.mem_eraseP_of_neg ?_).mpr hq
      simp only [decide_eq_true_eq]
      omega

/-- Clients do not reach a header, nor the module's storage. -/
theorem Marked.write (h : Marked global base bs w) (placed : Placed global base) {address : Nat}
    {v : Byte} (legal : Op.LegalAfter global w (.write address v))
    (taken : w.apply global (.write address v) = .ok w') : ∃ bs', Marked global base bs' w' := by
  obtain ⟨storage, headers⟩ := legal
  have fits := placed.fits
  have written : WritesWithin w.state.mem (Function.update w.state.mem address v) address 1 :=
    fun x hx => Function.update_of_ne (by omega) _ _
  have kept : ∀ a ∈ w.seen,
      AgreeOn w.state.mem (Function.update w.state.mem address v) a 8 := by
    intro a ha
    have apart := headers a ha
    exact written.agreeOn (by omega)
  obtain rfl := Except.ok.inj taken
  refine ⟨bs, h.next (h.inv.agree placed (written.agreeOn (by omega)) ?_) ?_ (by simp [handedOut])⟩
  · intro pre b post hbs
    exact kept _ (h.current _ (mem_starts.mpr ⟨pre, b, post, hbs, by simp⟩))
  · intro k hk seen _
    exact (h.flagged _ seen).keep (kept _ seen) (by omega) fun p hp _ => hp

theorem Marked.step (h : Marked global base bs w) (placed : Placed global base) {op : Op}
    (step : TracedStep global w op w') : ∃ bs', Marked global base bs' w' := by
  obtain ⟨legal, taken⟩ := step
  cases op with
  | kmalloc size => exact h.kmalloc placed legal taken
  | kfree ptr => exact h.kfree placed legal taken
  | write address v => exact h.write placed legal taken

/-- A `kfree` that returns takes the pointer off the live ones and hands nothing out. -/
theorem Traced.apply_kfree {ptr : Nat} (taken : w.apply global (.kfree ptr) = .ok w') :
    w'.state.live = (w.state.live.eraseP fun p => p.ptr = ptr) ∧ w'.returned = w.returned := by
  rw [Traced.apply] at taken
  cases step : Memory.apply global w.state (.kfree ptr) with
  | error stop =>
      rw [step] at taken
      cases taken
  | ok t =>
      rw [step] at taken
      obtain rfl := Except.ok.inj taken
      exact ⟨live_kfree step, rfl⟩

theorem Marked.progress (h : Marked global base bs w) (placed : Placed global base) {op : Op}
    (legal : op.Legal w.state.live) : ∃ w', w.apply global op = .ok w' := by
  obtain ⟨t, _, taken, _⟩ := legal_step h.inv placed legal
  exact ⟨_, by rw [Traced.apply, taken]; rfl⟩

end Marks

section Runs

variable {m : Mem} {global : Nat} {ops : List Op} {w : Traced}

theorem marked_of_runs (boots : heap m global = global + 4)
    (run : Runs (TracedStep global) (Traced.boot m global) ops w) :
    ∃ bs, Marked global (heapBase (global + 4)) bs w := by
  have placed := placed_heapBase (boots ▸ heap_lt m global)
  refine run.invariant (fun w => ∃ bs, Marked global (heapBase (global + 4)) bs w) ?_
    fun w op w' ⟨bs, marked⟩ step => marked.step placed step
  have inv := inv_boot boots
  refine ⟨_, inv, ?_, ?_, ?_, by simp [Traced.boot]⟩
  all_goals simp only [Traced.boot, inv.blockAddresses_eq]
  · exact fun k hk => List.mem_map_of_mem hk
  · intro a ha
    obtain ⟨k, hk, rfl⟩ := List.mem_map.mp ha
    exact ⟨k, inv.start_lt hk, rfl⟩
  · intro a ha
    obtain ⟨k, hk, rfl⟩ := List.mem_map.mp ha
    exact inv.flagged hk

/-- After every run, a pointer that was handed out at some time is trapped by `kfree`, with
nothing written, exactly when it is not live. -/
theorem double_free_trapped (boots : heap m global = global + 4)
    (run : Runs (TracedStep global) (Traced.boot m global) ops w) {ptr : Nat}
    (handed : ptr ∈ w.returned) :
    kfreeReached passFuel w.state.mem global ptr = (w.state.mem, .error .trap) ↔
      ¬ ∃ p ∈ w.state.live, p.ptr = ptr := by
  obtain ⟨bs, marked⟩ := marked_of_runs boots run
  have placed := placed_heapBase (boots ▸ heap_lt m global)
  obtain ⟨high, block, flagged⟩ := marked.returned_flagged placed handed
  constructor
  · rintro trapped ⟨p, hp, rfl⟩
    obtain ⟨m', _, _, _, _, _, run, _⟩ := marked.inv.kfree_live placed hp
    rw [kfree_eq_reached, trapped] at run
    cases run
  · intro stale
    obtain set | ⟨p, hp, hptr⟩ := flagged
    · exact kfreeReached_trap high block set _
    · exact absurd ⟨p, hp, by omega⟩ stale

/-- Two blocks are handed out and given back. The second one is joined with the rest of the
heap and then buried in the first one, and still cannot be freed again. -/
theorem double_free_trapped_joined : ∃ w,
    Runs (TracedStep 0x4000) (Traced.boot bootMem 0x4000)
      [.kmalloc 100, .kmalloc 100, .kfree 0x40C8, .kfree 0x4048] w ∧
    kfreeReached passFuel w.state.mem 0x4000 0x40C8 = (w.state.mem, .error .trap) := by
  have small : 100 ≤ maxSize := by decide
  have asked : ∀ w, Op.LegalAfter 0x4000 w (.kmalloc 100) := fun _ => small
  have placed : Placed 0x4000 (heapBase 0x4004) := placed_heapBase (by decide)
  have known : (((Traced.boot bootMem 0x4000).apply 0x4000 (.kmalloc 100)).bind fun w =>
      w.apply 0x4000 (.kmalloc 100)).toOption.map (fun w => (w.returned, w.state.live)) =
        some ([0x40C8, 0x4048], [⟨0x40C8, 100⟩, ⟨0x4048, 100⟩]) := by decide
  have run : Runs (TracedStep 0x4000) (Traced.boot bootMem 0x4000) [] _ := .nil
  obtain ⟨_, marked⟩ := marked_of_runs bootMem_boots run
  obtain ⟨w₁, step₁⟩ := marked.progress placed (show Op.Legal _ (.kmalloc 100) from small)
  have run₁ := run.snoc ⟨asked _, step₁⟩
  obtain ⟨_, marked₁⟩ := marked_of_runs bootMem_boots run₁
  obtain ⟨w₂, step₂⟩ := marked₁.progress placed (show Op.Legal _ (.kmalloc 100) from small)
  have run₂ := run₁.snoc ⟨asked _, step₂⟩
  obtain ⟨_, marked₂⟩ := marked_of_runs bootMem_boots run₂
  rw [step₁] at known
  simp only [Except.bind, step₂, Except.toOption, Option.map_some, Option.some.injEq,
    Prod.mk.injEq] at known
  obtain ⟨returned, live⟩ := known
  have free₃ : Op.Legal w₂.state.live (.kfree 0x40C8) := .inr ⟨⟨0x40C8, 100⟩, by simp [live], rfl⟩
  obtain ⟨w₃, step₃⟩ := marked₂.progress placed free₃
  have again₃ : Op.LegalAfter 0x4000 w₂ (.kfree 0x40C8) := .inr (by simp [returned])
  have run₃ := run₂.snoc ⟨again₃, step₃⟩
  obtain ⟨_, marked₃⟩ := marked_of_runs bootMem_boots run₃
  obtain ⟨live₃, returned₃⟩ := Traced.apply_kfree step₃
  have free₄ : Op.Legal w₃.state.live (.kfree 0x4048) := by
    refine .inr ⟨⟨0x4048, 100⟩, ?_, rfl⟩
    simp [live₃, live]
  obtain ⟨w₄, step₄⟩ := marked₃.progress placed free₄
  have again₄ : Op.LegalAfter 0x4000 w₃ (.kfree 0x4048) := .inr (by simp [returned₃, returned])
  have run₄ := run₃.snoc ⟨again₄, step₄⟩
  obtain ⟨live₄, returned₄⟩ := Traced.apply_kfree step₄
  refine ⟨w₄, run₄, (double_free_trapped bootMem_boots run₄ ?_).mpr ?_⟩
  · simp [returned₄, returned₃, returned]
  · simp [live₄, live₃, live]

end Runs
end HiveRK.Memory
