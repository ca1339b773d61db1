import HiveRK.Bees.Memory.Isolation
import HiveRK.FirstFit.Canonical

/-!
# Freeing undoes allocating

The live allocations determine the block list, because they determine the blocks in use
and a well-formed arena has no other choice. So a `kmalloc` and the `kfree` of its result
cancel, frees may be exchanged, and a heap with nothing live is one free block again.
-/

namespace HiveRK.Memory

open Machine FirstFit

section Canonical

variable {global base : Nat} {bs bs' : List Block} {s t : State}

/-- The pointer and the length that a block in use is known by outside the arena. -/
theorem pointer_injective (base : Nat) :
    Function.Injective fun u : Nat × Nat => (base + 64 * u.1 + 8, u.2) := by
  intro u v h
  obtain ⟨hptr, hunits⟩ := Prod.mk.inj h
  exact Prod.ext (by omega) hunits

/-- Two states with the same live allocations have the same blocks. -/
theorem Inv.blocks_eq (inv : Inv global base bs s) (inv' : Inv global base bs' t)
    (same : s.live.Perm t.live) : bs = bs' := by
  have owned := (inv.owned.symm.trans (same.map _)).trans inv'.owned
  have perm : (used 0 bs).Perm (used 0 bs') :=
    (List.map_perm_map_iff (pointer_injective base)).mp owned
  have equal := used_eq_of_perm inv.heap.wellFormed.pos perm
  exact inv.heap.wellFormed.ext inv'.heap.wellFormed equal
    (inv.heap.total.trans inv'.heap.total.symm)

/-- With nothing live the arena is one free block. -/
theorem Inv.blocks_of_nil (inv : Inv global base bs s) (none : s.live = []) :
    bs = [⟨heapTotalUnits, true⟩] := by
  have whole : WellFormed [⟨heapTotalUnits, true⟩] := wellFormed_single (by decide)
  have owned := inv.owned
  rw [none, List.map_nil, List.nil_perm, List.map_eq_nil_iff] at owned
  exact inv.heap.wellFormed.ext whole owned inv.heap.total

/-- No two live allocations have one pointer. -/
theorem Inv.pointers_apart (inv : Inv global base bs s) :
    s.live.Pairwise fun p q => p.ptr ≠ q.ptr := by
  have apart : ((used 0 bs).map fun u => (base + 64 * u.1 + 8, u.2)).Pairwise
      fun u v => u.1 ≠ v.1 := by
    rw [List.pairwise_map]
    refine (used_pairwise 0 bs).imp_of_mem fun {u v} hu _ before => ?_
    obtain ⟨pre, post, heq, _⟩ := exists_of_mem_used (show (u.1, u.2) ∈ used 0 bs from hu)
    have pos : 0 < u.2 := inv.heap.wellFormed.pos ⟨u.2, false⟩ (by simp [heq])
    simp only
    omega
  have owned := (inv.owned.symm.pairwise_iff fun h => Ne.symm h).mp apart
  rwa [List.pairwise_map] at owned

end Canonical

/-! ### Runs of frees -/

/-- Where pointers are distinct, a freed pointer takes away all that has it. -/
theorem eraseP_eq_filter {live : List Allocation} (apart : live.Pairwise fun p q => p.ptr ≠ q.ptr)
    (ptr : Nat) :
    (live.eraseP fun p => p.ptr = ptr) = live.filter fun p => p.ptr ≠ ptr := by
  induction live with
  | nil => rfl
  | cons p live ih =>
      obtain ⟨others, tail⟩ := List.pairwise_cons.mp apart
      by_cases here : p.ptr = ptr
      · rw [List.eraseP_cons_of_pos (by simpa using here), List.filter_cons_of_neg (by simpa)]
        refine (List.filter_eq_self.mpr fun q hq => ?_).symm
        simpa [← here] using (others q hq).symm
      · rw [List.eraseP_cons_of_neg (by simpa using here), List.filter_cons_of_pos (by simpa),
          ih tail]

section FreeRuns

variable {global base : Nat} {bs : List Block} {s t : State} {ps : List Nat}

theorem live_kfree {ptr : Nat} (taken : apply global s (.kfree ptr) = .ok t) :
    t.live = s.live.eraseP fun p => p.ptr = ptr := by
  rw [apply] at taken
  cases call : kfree passFuel s.mem global ptr with
  | error stop =>
      rw [call] at taken
      cases taken
  | ok m =>
      rw [call] at taken
      obtain rfl := Except.ok.inj taken
      rfl

/-- Frees in any order take away the allocations whose pointers they name. -/
theorem Inv.frees (inv : Inv global base bs s) (placed : Placed global base)
    (run : Runs (Step global) s (ps.map .kfree) t) :
    (∃ bs', Inv global base bs' t) ∧ t.live = s.live.filter fun p => p.ptr ∉ ps := by
  induction ps using List.reverseRecOn generalizing t with
  | nil =>
      obtain rfl := Runs.nil_iff.mp run
      exact ⟨⟨bs, inv⟩, by simp⟩
  | append_singleton ps p ih =>
      rw [List.map_append, List.map_singleton, Runs.snoc_iff] at run
      obtain ⟨u, before, legal, taken⟩ := run
      obtain ⟨⟨bs₁, inv₁⟩, live₁⟩ := ih before
      obtain ⟨t', bs₂, run', inv₂, _⟩ := kfree_step inv₁ placed legal
      obtain rfl : t' = t := Except.ok.inj (run'.symm.trans taken)
      refine ⟨⟨bs₂, inv₂⟩, ?_⟩
      rw [live_kfree taken, eraseP_eq_filter inv₁.pointers_apart, live₁, List.filter_filter]
      refine List.filter_congr fun q _ => ?_
      simp [and_comm]

/-- Distinct live pointers can be freed one after the other. -/
theorem Inv.frees_run (inv : Inv global base bs s) (placed : Placed global base)
    (distinct : ps.Nodup) (live : ∀ p ∈ ps, ∃ a ∈ s.live, a.ptr = p) :
    ∃ t, Runs (Step global) s (ps.map .kfree) t := by
  induction ps using List.reverseRecOn with
  | nil => exact ⟨s, .nil⟩
  | append_singleton ps p ih =>
      obtain ⟨nodup, _, fresh⟩ := List.nodup_append.mp distinct
      obtain ⟨u, run⟩ := ih nodup fun q hq => live q (List.mem_append_left _ hq)
      obtain ⟨⟨bs₁, inv₁⟩, live₁⟩ := inv.frees placed run
      obtain ⟨a, ha, rfl⟩ := live p (by simp)
      have still : a ∈ u.live := by
        rw [live₁, List.mem_filter]
        exact ⟨ha, by simpa using fun h => fresh _ h _ (by simp) rfl⟩
      have legal : Op.Legal u.live (.kfree a.ptr) := .inr ⟨a, still, rfl⟩
      obtain ⟨t, _, taken, _⟩ := kfree_step inv₁ placed legal
      refine ⟨t, ?_⟩
      rw [List.map_append, List.map_singleton]
      exact .snoc run ⟨legal, taken⟩

end FreeRuns

section Runs

variable {m : Mem} {global : Nat} {ops : List Op} {s : State}

/-- After every run a served `kmalloc`, followed by the `kfree` of its result, leaves the
block list as it was. -/
theorem kfree_undoes_kmalloc (boots : heap m global = global + 4)
    (run : Runs (Step global) (boot m global) ops s) {size : Nat} (hsize : size ≤ maxSize)
    {r : Mem × Nat} (call : kmalloc passFuel s.mem global size = .ok r) (served : r.2 ≠ 0) :
    ∃ m' hs, kfree passFuel r.1 global r.2 = .ok m' ∧
      headers s.mem heapTotalUnits (heap s.mem global) = some hs ∧
      headers m' heapTotalUnits (heap m' global) = some hs := by
  obtain ⟨bs, inv⟩ := inv_of_runs boots run
  have placed := placed_heapBase (boots ▸ heap_lt m global)
  obtain ⟨t, bs₁, taken, inv₁, _⟩ := kmalloc_step inv placed hsize
  simp only [apply, call, Except.map, if_neg served] at taken
  obtain rfl := Except.ok.inj taken
  obtain ⟨t', bs₂, freed, inv₂, _⟩ :=
    kfree_step inv₁ placed (.inr ⟨⟨r.2, size⟩, List.mem_cons_self, rfl⟩)
  have live := live_kfree freed
  rw [List.eraseP_cons_of_pos (by simp)] at live
  obtain rfl := inv.blocks_eq inv₂ (.of_eq live.symm)
  refine ⟨t'.mem, headerList (heapBase (global + 4)) bs, ?_, inv.headers_eq, inv₂.headers_eq⟩
  rw [apply] at freed
  cases result : kfree passFuel r.1 global r.2 with
  | error stop =>
      rw [result] at freed
      cases freed
  | ok m' =>
      rw [result] at freed
      obtain rfl := Except.ok.inj freed
      rfl

/-- In the heap as `bee_init` leaves it, 100 bytes are served, and given back. -/
theorem kfree_undoes_kmalloc_first : ∃ (r : Mem × Nat) (m' : Mem) (hs : List Header),
    kmalloc passFuel (boot bootMem 0x4000).mem 0x4000 100 = .ok r ∧
      kfree passFuel r.1 0x4000 r.2 = .ok m' ∧
      headers (boot bootMem 0x4000).mem heapTotalUnits (heap (boot bootMem 0x4000).mem 0x4000) =
        some hs ∧
      headers m' heapTotalUnits (heap m' 0x4000) = some hs := by
  have output : (kmalloc passFuel (boot bootMem 0x4000).mem 0x4000 100).toOption.map Prod.snd =
      some 0x4048 := by decide
  cases call : kmalloc passFuel (boot bootMem 0x4000).mem 0x4000 100 with
  | error stop =>
      rw [call] at output
      cases output
  | ok r =>
      have served : r.2 ≠ 0 := by
        rw [call] at output
        have ptr : r.2 = 0x4048 := Option.some.inj output
        omega
      obtain ⟨m', hs, freed, before, after⟩ :=
        kfree_undoes_kmalloc bootMem_boots .nil (show 100 ≤ maxSize by decide) call served
      exact ⟨r, m', hs, rfl, freed, before, after⟩

/-- After every run, distinct live pointers can be freed, and two orders of freeing them lead
to the same block list. Once nothing is live, the heap is one free block of all units. -/
theorem free_order_immaterial (boots : heap m global = global + 4)
    (run : Runs (Step global) (boot m global) ops s) :
    (∀ ps : List Nat, ps.Nodup → (∀ p ∈ ps, ∃ a ∈ s.live, a.ptr = p) →
      (∃ t, Runs (Step global) s (ps.map .kfree) t) ∧
      ∀ qs : List Nat, ps.Perm qs → ∀ t t', Runs (Step global) s (ps.map .kfree) t →
        Runs (Step global) s (qs.map .kfree) t' →
        ∃ hs, headers t.mem heapTotalUnits (heap t.mem global) = some hs ∧
          headers t'.mem heapTotalUnits (heap t'.mem global) = some hs) ∧
    (s.live = [] → headers s.mem heapTotalUnits (heap s.mem global) =
      some [⟨heapBase (global + 4), 16384, 1, 0⟩]) := by
  obtain ⟨bs, inv⟩ := inv_of_runs boots run
  have placed := placed_heapBase (boots ▸ heap_lt m global)
  refine ⟨fun ps distinct live => ⟨inv.frees_run placed distinct live, ?_⟩, fun none => ?_⟩
  · intro qs perm t t' first second
    obtain ⟨⟨bs₁, inv₁⟩, live₁⟩ := inv.frees placed first
    obtain ⟨⟨bs₂, inv₂⟩, live₂⟩ := inv.frees placed second
    have same : t.live = t'.live := by
      rw [live₁, live₂]
      refine List.filter_congr fun q _ => ?_
      rw [decide_eq_decide, perm.mem_iff]
    obtain rfl := inv₁.blocks_eq inv₂ (.of_eq same)
    exact ⟨_, inv₁.headers_eq, inv₂.headers_eq⟩
  · rw [inv.headers_eq, inv.blocks_of_nil none]
    rfl

/-- Two allocations of the first heap, freed in both orders. -/
theorem free_order_immaterial_two : ∃ s t t' hs,
    Runs (Step 0x4000) (boot bootMem 0x4000) [.kmalloc 100, .kmalloc 200] s ∧
      Runs (Step 0x4000) s [.kfree 0x4048, .kfree 0x40C8] t ∧
      Runs (Step 0x4000) s [.kfree 0x40C8, .kfree 0x4048] t' ∧
      headers t.mem heapTotalUnits (heap t.mem 0x4000) = some hs ∧
      headers t'.mem heapTotalUnits (heap t'.mem 0x4000) = some hs := by
  have output : ((apply 0x4000 (boot bootMem 0x4000) (.kmalloc 100)).bind fun s =>
      apply 0x4000 s (.kmalloc 200)).toOption.map State.live =
        some [⟨0x40C8, 200⟩, ⟨0x4048, 100⟩] := by decide
  obtain ⟨s₁, first⟩ := bootMem_step (show 100 ≤ maxSize by decide)
  have run₁ : Runs (Step 0x4000) (boot bootMem 0x4000) [.kmalloc 100] s₁ := .snoc .nil first
  obtain ⟨_, inv₁⟩ := inv_of_runs bootMem_boots run₁
  obtain ⟨s, _, second, _⟩ :=
    kmalloc_step inv₁ (placed_heapBase (by decide)) (show 200 ≤ maxSize by decide)
  have live : s.live = [⟨0x40C8, 200⟩, ⟨0x4048, 100⟩] := by
    rw [first.2] at output
    simpa [Except.bind, second, Except.toOption] using output
  have run : Runs (Step 0x4000) (boot bootMem 0x4000) [.kmalloc 100, .kmalloc 200] s :=
    .snoc run₁ ⟨show 200 ≤ maxSize by decide, second⟩
  obtain ⟨⟨t, forth⟩, equal⟩ := (free_order_immaterial bootMem_boots run).1 [0x4048, 0x40C8]
    (by decide) (by simp [live])
  obtain ⟨⟨t', back⟩, _⟩ := (free_order_immaterial bootMem_boots run).1 [0x40C8, 0x4048]
    (by decide) (by simp [live])
  obtain ⟨hs, walked, walked'⟩ := equal _ (.swap _ _ _) t t' forth back
  exact ⟨s, t, t', hs, run, forth, back, walked, walked'⟩

end Runs
end HiveRK.Memory
