import HiveRK.System.Basic

/-!
# The invariant of the combined system

Two phases follow each other. While the bump allocator serves `CMD 1`, all storage lies
between the nodes and the bump pointer. After `bee_init` the bump pointer stands still, the
heap begins above it, and the heap's arena holds the live allocations and the storage that
`core_alloc` provided.

What a client writes, and what a dispatch stores in a `CoreData`, is `Inv.loose`: neither
phase depends on those bytes.
-/

namespace HiveRK.System

open Machine Queen Memory FirstFit

/-- The storage as the heap knows it. -/
def Storage.block (s : Storage) : Allocation := ⟨s.ptr, s.size⟩

def Storage.Apart (s t : Storage) : Prop := s.ptr + s.size ≤ t.ptr ∨ t.ptr + t.size ≤ s.ptr

instance : Std.Symm Storage.Apart := ⟨fun _ _ h => h.symm⟩

/-- The pointer that the node of module `id` holds. -/
def pointerOf (storage : List Storage) (id : Nat) : Nat :=
  ((storage.find? fun s => s.id = id).map Storage.ptr).getD 0

section Bytes

variable (boot : Boot)

/-- A byte of a node that is never written: its id, the fixed half of its `CoreData`, and
everything behind its storage pointer. -/
def Boot.FixedByte (x : Nat) : Prop :=
  ∃ (j : Nat) (h : j < boot.bees.length), boot.node j ≤ x ∧
    x < boot.node j + boot.bees[j].nodeSize ∧
    ¬ (boot.node j + 12 ≤ x ∧ x < boot.node j + 24)

/-- A byte of the arguments in the `CoreData` of a module. -/
def Boot.ArgByte (x : Nat) : Prop :=
  ∃ j < boot.bees.length, boot.node j + 12 ≤ x ∧ x < boot.node j + 20

end Bytes

/-- The bump allocator is installed. -/
structure Bumping (boot : Boot) (w : World) : Prop where
  allocF : w.core.allocF = .alloc
  live : w.live = []
  within : ∀ s ∈ w.storage, boot.core.memory ≤ s.ptr ∧ s.ptr + s.size ≤ w.core.memory
  apart : w.storage.Pairwise Storage.Apart
  own : ∀ s ∈ w.storage, s.id = 7 → 4 ≤ s.size

/-- `core_alloc` is installed, and the heap at `base` is the arena `bs`. -/
structure Heaped (boot : Boot) (w : World) (global base : Nat) (bs : List Block)
    (heaped bumped : List Storage) : Prop where
  allocF : w.core.allocF = .custom (boot.code.adr boot.code.coreAlloc)
  storage : w.storage = heaped ++ bumped
  within : ∀ s ∈ bumped, boot.core.memory ≤ s.ptr ∧ s.ptr + s.size ≤ w.core.memory
  apart : bumped.Pairwise Storage.Apart
  manager : ∃ size, 4 ≤ size ∧ ⟨7, global, size⟩ ∈ bumped ∧
    w.storage.find? (fun s => s.id = 7) = some ⟨7, global, size⟩
  others : ∀ s ∈ heaped, s.id ≠ 7
  above : w.core.memory ≤ base
  below : base + 64 * heapTotalUnits ≤ boot.limit
  placed : Placed global base
  heap : Memory.Inv global base bs ⟨w.core.mem, w.live ++ heaped.map Storage.block⟩

structure Inv (boot : Boot) (w : World) : Prop where
  array : w.core.idNodes = boot.core.idNodes
  irt : w.core.irt = boot.core.irt
  fixed : ∀ x, boot.FixedByte x ∨ Published x → w.core.mem x = boot.core.mem x
  low : boot.core.memory ≤ w.core.memory
  high : w.core.memory ≤ boot.limit
  slots : ∀ (j : Nat) (h : j < boot.bees.length),
    globalValues w.core.mem (boot.node j) = pointerOf w.storage boot.bees[j].id
  nonnull : ∀ s ∈ w.storage, s.ptr ≠ 0
  phase : Bumping boot w ∨ ∃ global base bs heaped bumped,
    Heaped boot w global base bs heaped bumped

section Facts

variable {boot : Boot} {w : World} {global base : Nat} {bs : List Block}
  {heaped bumped : List Storage} {j : Nat}

theorem nodeSize_ge (b : Bee) : 28 ≤ b.nodeSize := Nat.le_add_right 28 _

theorem Boot.Ready.nodes_apart (ready : boot.Ready) {i : Nat} (hi : i < boot.bees.length)
    (hj : j < boot.bees.length) (hij : i ≠ j) :
    boot.node i + boot.bees[i].nodeSize ≤ boot.node j ∨
      boot.node j + boot.bees[j].nodeSize ≤ boot.node i := by
  obtain lt | gt := Nat.lt_or_gt_of_ne hij
  · exact .inl (ready.apart i j hi lt hj)
  · exact .inr (ready.apart j i hj gt hi)

theorem Heaped.storage_inside (h : Heaped boot w global base bs heaped bumped) {s : Storage}
    (hs : s ∈ heaped) : base ≤ s.ptr ∧ s.ptr + s.size ≤ base + 64 * heapTotalUnits :=
  h.heap.inside (List.mem_append_right _ (List.mem_map_of_mem (f := Storage.block) hs))

theorem Heaped.live_inside (h : Heaped boot w global base bs heaped bumped) {p : Allocation}
    (hp : p ∈ w.live) : base ≤ p.ptr ∧ p.ptr + p.size ≤ base + 64 * heapTotalUnits :=
  h.heap.inside (List.mem_append_left _ hp)

/-- All storage lies between the nodes and the end of the stretch. -/
theorem Inv.storage_within (inv : Inv boot w) {s : Storage} (hs : s ∈ w.storage) :
    boot.core.memory ≤ s.ptr ∧ s.ptr + s.size ≤ boot.limit := by
  have low := inv.low
  have high := inv.high
  obtain phase | ⟨global, base, bs, heaped, bumped, phase⟩ := inv.phase
  · have inside := phase.within s hs
    omega
  · have above := phase.above
    have below := phase.below
    rw [phase.storage] at hs
    obtain hs | hs := List.mem_append.mp hs
    · have inside := phase.storage_inside hs
      omega
    · have inside := phase.within s hs
      omega

theorem Inv.live_within (inv : Inv boot w) {p : Allocation} (hp : p ∈ w.live) :
    boot.core.memory ≤ p.ptr ∧ p.ptr + p.size ≤ boot.limit := by
  have low := inv.low
  obtain phase | ⟨global, base, bs, heaped, bumped, phase⟩ := inv.phase
  · rw [phase.live] at hp
    exact absurd hp List.not_mem_nil
  · have above := phase.above
    have below := phase.below
    have inside := phase.live_inside hp
    omega

/-- The nodes and the published word belong to no client. -/
theorem Inv.not_client (inv : Inv boot w) (ready : boot.Ready) {x : Nat}
    (h : boot.nodes ≤ x ∧ x < boot.core.memory ∨ Published x) : ¬ ClientByte boot w x := by
  have room := ready.room
  have outside := ready.outside
  have first : boot.nodes ≤ boot.core.memory := by
    obtain ⟨j, hj, _⟩ := ready.manager
    have inside := ready.inside j hj
    omega
  have apart : ∀ a n, boot.core.memory ≤ a → a + n ≤ boot.limit → ¬ (a ≤ x ∧ x < a + n) := by
    intro a n lo hi has
    simp only [Published] at h
    omega
  rintro (⟨off, unpublished⟩ | ⟨s, hs, _, has⟩ | ⟨p, hp, has⟩)
  · obtain h | h := h
    · omega
    · exact unpublished h
  · obtain ⟨lo, hi⟩ := inv.storage_within hs
    exact apart _ _ lo hi has
  · obtain ⟨lo, hi⟩ := inv.live_within hp
    exact apart _ _ lo hi has

/-- Arguments are stored in no fixed byte and in no storage pointer. -/
theorem Boot.Ready.not_arg (ready : boot.Ready) {x : Nat}
    (h : boot.FixedByte x ∨ Published x ∨
      ∃ j < boot.bees.length, boot.node j + 20 ≤ x ∧ x < boot.node j + 24) : ¬ boot.ArgByte x := by
  rintro ⟨i, hi, lo, hi'⟩
  have size := nodeSize_ge boot.bees[i]
  have insideI := ready.inside i hi
  have room := ready.room
  have outside := ready.outside
  obtain ⟨j, hj, h⟩ | h | ⟨j, hj, h⟩ := h
  · by_cases hij : i = j
    · subst hij
      omega
    · have apart := ready.nodes_apart hi hj hij
      omega
  · simp only [Published] at h
    omega
  · by_cases hij : i = j
    · subst hij
      omega
    · have size' := nodeSize_ge boot.bees[j]
      have apart := ready.nodes_apart hi hj hij
      omega

/-- No header and no byte of the manager's storage belongs to a client. -/
theorem Heaped.not_client (h : Heaped boot w global base bs heaped bumped) (inv : Inv boot w)
    (ready : boot.Ready) {x : Nat}
    (hx : (global ≤ x ∧ x < global + 4) ∨
      ∃ pre b post, bs = pre ++ b :: post ∧ base + 64 * span pre ≤ x ∧
        x < base + 64 * span pre + 8) :
    ¬ ClientByte boot w x := by
  have above := h.above
  have below := h.below
  have low := inv.low
  have outside := ready.outside
  have units : heapTotalUnits = 16384 := by decide
  obtain ⟨size, hsize, manager, _⟩ := h.manager
  have managerIn := h.within _ manager
  simp only at managerIn
  have first : boot.nodes ≤ boot.core.memory := by
    obtain ⟨j, hj, _⟩ := ready.manager
    have inside := ready.inside j hj
    omega
  -- Where the byte lies, whichever kind it is.
  have stretch : boot.core.memory ≤ x ∧ x < boot.limit := by
    obtain hx | ⟨pre, b, post, rfl, hx⟩ := hx
    · omega
    · have total := h.heap.heap.total
      have pos : 0 < b.units := h.heap.heap.wellFormed.pos b (by simp)
      rw [span_append, span_cons] at total
      omega
  have switched : w.core.allocF ≠ .alloc := by
    rw [h.allocF]
    exact nofun
  have inHeap : ∀ p ∈ w.live ++ heaped.map Storage.block, ¬ (p.ptr ≤ x ∧ x < p.ptr + p.size) := by
    intro p hp has
    have inside := h.heap.inside hp
    obtain hx | ⟨pre, b, post, hbs, hx⟩ := hx
    · omega
    · have apart := h.heap.header_apart hp hbs
      omega
  rintro (⟨off, _⟩ | ⟨s, hs, seven, has⟩ | ⟨p, hp, has⟩)
  · omega
  · rw [h.storage] at hs
    obtain hs | hs := List.mem_append.mp hs
    · exact inHeap s.block (List.mem_append_right _ (List.mem_map_of_mem hs)) has
    · have inside := h.within s hs
      obtain hx | ⟨pre, b, post, _, hx⟩ := hx
      · have other : s ≠ ⟨7, global, size⟩ := by
          rintro rfl
          exact switched (seven rfl)
        have apart := h.apart.forall hs manager other
        simp only [Storage.Apart] at apart
        omega
      · omega
  · exact inHeap p (List.mem_append_left _ hp) has

/-- A header byte and the manager's storage are apart from all arguments. -/
theorem Heaped.not_arg (h : Heaped boot w global base bs heaped bumped) (inv : Inv boot w)
    (ready : boot.Ready) {x : Nat} (hx : global ≤ x ∧ x < global + 4 ∨ base ≤ x) :
    ¬ boot.ArgByte x := by
  rintro ⟨j, hj, lo, hi⟩
  have above := h.above
  have low := inv.low
  have inside := ready.inside j hj
  have size := nodeSize_ge boot.bees[j]
  obtain ⟨_, _, manager, _⟩ := h.manager
  have managerIn := h.within _ manager
  simp only at managerIn
  omega

/-- The bytes that clients write and in which arguments are stored. -/
def Boot.LooseByte (boot : Boot) (w : World) (x : Nat) : Prop :=
  ClientByte boot w x ∨ boot.ArgByte x

/-- The world with other memory. -/
def World.withMem (w : World) (m : Mem) : World := ⟨{ w.core with mem := m }, w.live, w.storage⟩

theorem Bumping.withMem (h : Bumping boot w) (m : Mem) : Bumping boot (w.withMem m) :=
  ⟨h.allocF, h.live, h.within, h.apart, h.own⟩

theorem Heaped.loose (h : Heaped boot w global base bs heaped bumped) (inv : Inv boot w)
    (ready : boot.Ready) {m : Mem} (written : WritesOnly (boot.LooseByte w) w.core.mem m) :
    Heaped boot (w.withMem m) global base bs heaped bumped := by
  refine ⟨h.allocF, h.storage, h.within, h.apart, h.manager, h.others, h.above, h.below, h.placed,
    ?_⟩
  refine h.heap.agree h.placed (written.agreeOn fun x lo hi => ?_)
    fun pre b post hbs => written.agreeOn fun x lo hi => ?_
  · rintro (client | arg)
    · exact h.not_client inv ready (.inl ⟨lo, hi⟩) client
    · exact h.not_arg inv ready (.inl ⟨lo, hi⟩) arg
  · rintro (client | arg)
    · exact h.not_client inv ready (.inr ⟨pre, b, post, hbs, lo, hi⟩) client
    · exact h.not_arg inv ready (.inr (by omega)) arg

/-- The bytes on which the nodes and the published word depend. -/
def Boot.NodeByte (boot : Boot) (x : Nat) : Prop :=
  boot.FixedByte x ∨ Published x ∨
    ∃ j < boot.bees.length, boot.node j + 20 ≤ x ∧ x < boot.node j + 24

/-- Where the nodes and the published word are kept, so is what the invariant says of them. -/
theorem Inv.nodes_kept (inv : Inv boot w) (ready : boot.Ready) {m : Mem}
    (kept : ∀ x, boot.NodeByte x → m x = w.core.mem x) :
    (∀ x, boot.FixedByte x ∨ Published x → m x = boot.core.mem x) ∧
      ∀ (j : Nat) (h : j < boot.bees.length),
        globalValues m (boot.node j) = pointerOf w.storage boot.bees[j].id := by
  refine ⟨fun x hx => ?_, fun j hj => ?_⟩
  · exact (kept x (hx.imp_right .inl)).trans (inv.fixed x hx)
  · have inside := ready.inside j hj
    have size := nodeSize_ge boot.bees[j]
    have room := ready.room
    have fits := ready.fits
    have same : AgreeOn w.core.mem m (boot.node j + 20) 4 :=
      fun x lo hi => kept x (.inr (.inr ⟨j, hj, lo, hi⟩))
    rw [← inv.slots j hj]
    exact same.load (by omega) (Nat.le_refl _) (Nat.le_refl _)

/-- Client writes and stored arguments keep the invariant. -/
theorem Inv.loose (inv : Inv boot w) (ready : boot.Ready) {m : Mem}
    (written : WritesOnly (boot.LooseByte w) w.core.mem m) : Inv boot (w.withMem m) := by
  have kept : ∀ x, boot.NodeByte x → m x = w.core.mem x := by
    intro x hx
    apply written x
    rintro (client | arg)
    · refine inv.not_client ready ?_ client
      obtain ⟨j, hj, lo, hi, _⟩ | hx | ⟨j, hj, lo, hi⟩ := hx
      · have inside := ready.inside j hj
        exact .inl (by omega)
      · exact .inr hx
      · have inside := ready.inside j hj
        have size := nodeSize_ge boot.bees[j]
        exact .inl (by omega)
    · exact ready.not_arg hx arg
  obtain ⟨fixed, slots⟩ := inv.nodes_kept ready kept
  refine ⟨inv.array, inv.irt, fixed, inv.low, inv.high, slots, inv.nonnull, ?_⟩
  obtain phase | ⟨global, base, bs, heaped, bumped, phase⟩ := inv.phase
  · exact .inl (phase.withMem m)
  · exact .inr ⟨global, base, bs, heaped, bumped, phase.loose inv ready written⟩

end Facts

end HiveRK.System
