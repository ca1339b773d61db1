import HiveRK.System.Calls

/-!
# `CMD 1`

A request for global storage is served at most once for each module: by the bump allocator,
which clears what it hands out, or by `core_alloc`, which passes the request on to `kmalloc`
and lets it store the pointer in the node.
-/

namespace HiveRK.System

open Machine Queen Memory FirstFit

section Allocate

variable {boot : Boot} {w : World} {j stack nested global base size : Nat} {bs : List Block}
  {heaped bumped : List Storage}

theorem Inv.granted_eq (inv : Inv boot w) (ready : boot.Ready) (hj : j < boot.bees.length)
    (c' : Core) (size : Nat) :
    granted w.core c' boot.bees[j].id size =
      if pointerOf w.storage boot.bees[j].id = 0 ∧ globalValues c'.mem (boot.node j) ≠ 0 then
        [⟨boot.bees[j].id, globalValues c'.mem (boot.node j), size⟩]
      else [] := by
  simp only [granted, inv.lookup ready hj, Nat.add_sub_cancel, inv.idNodes, inv.slots j hj]

/-- A module that has storage keeps it. -/
theorem Inv.call_served (inv : Inv boot w) (nested : Nat) (ready : boot.Ready)
    (hj : j < boot.bees.length)
    (array : boot.Outside stack 8) (full : pointerOf w.storage boot.bees[j].id ≠ 0)
    (low : size < 2 ^ 32) :
    ∃ m, apply boot w (.call stack nested 0 1 [boot.bees[j].id, size]) = w.withMem m ∧
      Inv boot (w.withMem m) := by
  have inv₁ := inv.withArgs [boot.bees[j].id, size] ready array
  obtain ⟨id, _⟩ := putArgs_two (m := w.core.mem) array.1 (ready.id_lt hj) low
  have served := congrArg Reply.core (inv₁.handler_served (enter boot.code nested) ready hj id full)
  refine ⟨_, ?_, inv₁⟩
  simp only [apply, syscall_core, inv.granted_eq ready hj]
  rw [if_neg (fun h => full h.1), List.nil_append]
  exact congrArg (fun c => World.mk c w.live w.storage) served

theorem callAllocF_alloc {run : Call → Core → Core} {c : Core} (h : c.allocF = .alloc)
    (size data : Nat) : (callAllocF run c size data).1 = alloc c size data := by
  rw [callAllocF, h]

theorem callAllocF_custom {run : Call → Core → Core} {c : Core} {f : Nat} (h : c.allocF = .custom f)
    (size data : Nat) : (callAllocF run c size data).1 = run ⟨f, [size, data]⟩ c := by
  rw [callAllocF, h]

/-- The call with which a module asks for storage. -/
def requestStorage (boot : Boot) (w : World) (stack nested id size : Nat) : Core :=
  syscall (enter boot.code nested) w.core (u32 w.core.irt) stack 0 1 [id, size]

theorem apply_request (id : Nat) :
    apply boot w (.call stack nested 0 1 [id, size]) =
      ⟨requestStorage boot w stack nested id size, w.live,
        granted w.core (requestStorage boot w stack nested id size) id size ++ w.storage⟩ := rfl

/-- The bump allocator serves a module that has no storage. -/
theorem Inv.request_bump (inv : Inv boot w) (nested : Nat) (ready : boot.Ready)
    (phase : Bumping boot w)
    (hj : j < boot.bees.length) (array : boot.Outside stack 8)
    (empty : pointerOf w.storage boot.bees[j].id = 0) (low : size < 2 ^ 32)
    (room : w.core.memory + 4 * size ≤ boot.limit) (own : boot.bees[j].id = 7 → 4 ≤ size) :
    ∃ m, requestStorage boot w stack nested boot.bees[j].id size =
        { w.core with mem := m, memory := w.core.memory + size } ∧
      granted w.core { w.core with mem := m, memory := w.core.memory + size } boot.bees[j].id size =
        [⟨boot.bees[j].id, w.core.memory, size⟩] ∧
      (∀ x, w.core.memory ≤ x → x < w.core.memory + size → m x = 0) ∧
      Inv boot ⟨{ w.core with mem := m, memory := w.core.memory + size }, w.live,
        ⟨boot.bees[j].id, w.core.memory, size⟩ :: w.storage⟩ ∧
      Bumping boot ⟨{ w.core with mem := m, memory := w.core.memory + size }, w.live,
        ⟨boot.bees[j].id, w.core.memory, size⟩ :: w.storage⟩ := by
  have inv₁ := inv.withArgs [boot.bees[j].id, size] ready array
  obtain ⟨id, word⟩ := putArgs_two (m := w.core.mem) array.1 (ready.id_lt hj) low
  obtain ⟨m, allocated, stored, nonzero, cleared, inv₂, phase₂⟩ :=
    inv₁.bump ready (phase.withMem _) hj room own
  have served := inv₁.handler_allocate (enter boot.code nested) ready hj id word empty
  have custom : (w.withMem (putArgs w.core.mem stack [boot.bees[j].id, size])).core.allocF =
    .alloc :=
    phase.allocF
  rw [callAllocF_alloc custom, allocated] at served
  refine ⟨m, ?_, ?_, cleared, inv₂, phase₂⟩
  · rw [requestStorage, syscall_core rfl]
    exact served
  · have pointer : globalValues m (boot.node j) = w.core.memory := stored
    rw [inv.granted_eq ready hj, if_pos ⟨empty, by rw [pointer]; exact nonzero⟩, pointer]

theorem Boot.Outside.keeps {k n : Nat} (array : boot.Outside stack n) {m m' : Mem}
    (written : WritesWithin m m' stack n) {a : Nat}
    (lo : boot.nodes ≤ a) (hi : a + k ≤ boot.limit) :
    AgreeOn m m' a k := by
  intro x first last
  apply written x
  by_contra inside
  have off := (array.2 x (by omega) (by omega)).1
  omega

/-- The call of a module that has no storage reaches `kmalloc`, by way of `core_alloc`, in a
memory that is the same but for the arrays of arguments. -/
theorem Heaped.reaches_kmalloc (phase : Heaped boot w global base bs heaped bumped)
    (inv : Inv boot w) (ready : boot.Ready) (hj : j < boot.bees.length)
    (array : boot.Outside stack 8) (inner : boot.Outside nested 8)
    (empty : pointerOf w.storage boot.bees[j].id = 0) (low : size < 2 ^ 32) :
    ∃ m, Inv boot (w.withMem m) ∧ Heaped boot (w.withMem m) global base bs heaped bumped ∧
      (∀ p, base ≤ p → boot.nodes ≤ p → p + size ≤ boot.limit → AgreeOn w.core.mem m p size) ∧
      ∀ r, Memory.kmalloc passFuel m global size = .ok r →
        requestStorage boot w stack nested boot.bees[j].id size =
          { w.core with mem := store32 r.1 (boot.node j + 20) r.2 } := by
  have insideJ := ready.inside j hj
  have nodeSize := nodeSize_ge boot.bees[j]
  have fits := ready.fits
  have room := ready.room
  -- The outer call, up to the allocator.
  have filled := putArgs_written (m := w.core.mem) [boot.bees[j].id, size] array.1
  have loose : WritesOnly (boot.LooseByte w) w.core.mem
      (putArgs w.core.mem stack [boot.bees[j].id, size]) :=
    filled.only fun x lo hi => .inl (.inl (array.2 x lo hi))
  have inv₁ := inv.loose ready loose
  have phase₁ := phase.loose inv ready loose
  obtain ⟨id, word⟩ := putArgs_two (m := w.core.mem) (b := size) array.1 (ready.id_lt hj) low
  have served := inv₁.handler_allocate (enter boot.code nested) ready hj id word empty
  generalize hm₁ : putArgs w.core.mem stack [boot.bees[j].id, size] = m₁ at *
  -- The inner call, up to `kmalloc`.
  have filled₂ := putArgs_written [size, boot.node j + 20] (m := m₁) inner.1
  have loose₂ : WritesOnly (boot.LooseByte w) m₁ (putArgs m₁ nested [size, boot.node j + 20]) :=
    filled₂.only fun x lo hi => .inl (.inl (inner.2 x lo hi))
  have inv₂ := inv₁.loose ready loose₂
  have phase₂ := phase₁.loose inv₁ ready loose₂
  obtain ⟨word₁, word₂⟩ := putArgs_two (m := m₁) (a := size) (b := boot.node j + 20) inner.1
    low (by omega)
  generalize hm₂ : putArgs m₁ nested [size, boot.node j + 20] = m₂ at *
  obtain ⟨m₃, core, entered, ptr, kept, written, heapKept⟩ := phase₂.manager_call inv₂ ready
    (by decide) inner (List.mem_cons_self (a := (1, boot.code.kmalloc))) (command boot.code)
  have size' : load32 m₃ nested = size :=
    (kept.load (by have := inner.1; omega) (Nat.le_refl _) (by omega)).trans word₁
  have out' : load32 m₃ (nested + 4) = boot.node j + 20 :=
    (kept.load (by have := inner.1; omega) (by omega) (by omega)).trans word₂
  refine ⟨m₃, inv₂.loose ready written, phase₂.loose inv₂ ready written, ?_, ?_⟩
  · intro p heap nodes limit
    have outer : AgreeOn w.core.mem m₁ p size := array.keeps filled nodes limit
    have second : AgreeOn m₁ m₂ p size := inner.keeps filled₂ nodes limit
    exact (outer.trans second).trans (heapKept _ _ heap)
  · intro r allocated
    have custom : (w.withMem m₁).core.allocF = .custom (boot.code.adr boot.code.coreAlloc) :=
      phase.allocF
    have irt : HiveRK.getCoreIRT (w.withMem m₁).core.mem = u32 (w.withMem m₁).core.irt :=
      inv₁.getCoreIRT ready
    rw [callAllocF_custom custom, enter_coreAlloc, coreAlloc, syscall_core irt] at served
    rw [requestStorage, syscall_core rfl]
    simp only [hm₁]
    simp only [World.withMem, hm₂] at served entered
    rw [served, entered, command_kmalloc ptr (by rw [size']; exact allocated), out']

/-- `core_alloc` serves a module that has no storage as `kmalloc` serves the request: with
the payload of the first block that fits, whatever that holds, or not at all. -/
theorem Inv.request_coreAlloc (inv : Inv boot w) (ready : boot.Ready)
    (phase : Heaped boot w global base bs heaped bumped) (hj : j < boot.bees.length)
    (array : boot.Outside stack 8) (inner : boot.Outside nested 8)
    (empty : pointerOf w.storage boot.bees[j].id = 0) (hsize : size ≤ maxSize) :
    ∃ m, requestStorage boot w stack nested boot.bees[j].id size = { w.core with mem := m } ∧
      (granted w.core { w.core with mem := m } boot.bees[j].id size = [] ∧ Inv boot (w.withMem m) ∧
          (size = 0 ∨ firstFit w.core.mem global (bytesToUnits size) = none) ∨
        ∃ p, granted w.core { w.core with mem := m } boot.bees[j].id size =
            [⟨boot.bees[j].id, p, size⟩] ∧
          (∃ h, firstFit w.core.mem global (bytesToUnits size) = some h ∧ p = h.address + 8) ∧
          AgreeOn w.core.mem m p size ∧
          Inv boot
            ⟨{ w.core with mem := m }, w.live, ⟨boot.bees[j].id, p, size⟩ :: w.storage⟩) := by
  have max : maxSize < 2 ^ 32 := by decide
  have other : boot.bees[j].id ≠ 7 := by
    intro seven
    rw [seven, phase.pointerOf_manager] at empty
    exact phase.global_ne inv empty
  obtain ⟨m₁, inv₁, phase₁, kept, request⟩ := phase.reaches_kmalloc inv ready hj array inner empty
    (Nat.lt_of_le_of_lt hsize max)
  obtain ⟨r, allocated, within, outcome⟩ := phase₁.kmalloc inv₁ ready hsize
  have result := request r allocated
  obtain ⟨rfl, why⟩ |
    ⟨nonzero, lo, low', payload, ⟨off, _, found, address⟩, bs', phase₂, inv₂⟩ := outcome
  · -- Refused: the slot keeps its 0.
    have slot : load32 m₁ (boot.node j + 20) = 0 := (inv₁.slots j hj).trans empty
    have same : store32 m₁ (boot.node j + 20) 0 = m₁ := by
      rw [← slot]
      exact store_load 4 m₁ (boot.node j + 20)
    simp only [World.withMem, same] at result
    refine ⟨m₁, result, .inl ⟨?_, inv₁, ?_⟩⟩
    · rw [inv.granted_eq ready hj, if_neg fun h => h.2 slot]
    · exact why.imp_right (phase.heap.firstFit_none_iff _).mpr
  · obtain ⟨m, stored, pointer, _, inv₃⟩ := Heaped.adopt (w := w.withMem r.1) (p := ⟨r.2, size⟩)
      phase₂ inv₂ ready hj other nonzero low'
    have inside := phase₂.live_inside (p := ⟨r.2, size⟩) List.mem_cons_self
    simp only [World.withMem] at inside stored pointer inv₃
    rw [stored] at result
    refine ⟨m, result, .inr ⟨r.2, ?_, ?_, ?_, inv₃⟩⟩
    · rw [inv.granted_eq ready hj, if_pos ⟨empty, by rw [pointer]; exact nonzero⟩, pointer]
    · obtain ⟨h, fit, at_⟩ := phase.heap.firstFit_some found
      exact ⟨h, fit, by rw [at_, address]⟩
    · have insideJ := ready.inside j hj
      have nodeSize := nodeSize_ge boot.bees[j]
      have fits := ready.fits
      have room := ready.room
      have low := inv.low
      have above := phase.above
      have below := phase.below
      have slot : AgreeOn r.1 m r.2 size := by
        rw [← stored]
        have written : WritesWithin r.1 (store32 r.1 (boot.node j + 20) r.2) (boot.node j + 20) 4 :=
          .store (by omega) (Nat.le_refl _) (Nat.le_refl _)
        exact written.agreeOn (by omega)
      exact ((kept r.2 lo (by omega) (by omega)).trans payload).trans slot

end Allocate

end HiveRK.System
