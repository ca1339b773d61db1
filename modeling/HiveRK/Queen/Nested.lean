import HiveRK.Machine.Execution
import HiveRK.Queen.Alloc
import HiveRK.Queen.Dispatch

/-!
# Nested calls

A command runs until it returns. Before that it, or an interrupt handler that arrives, may
call the core again, so the active calls form a stack and a run is a tree of calls, read in
the order in which they begin and end. All dispatches to a module use the one `CoreData` in
its node.
-/

namespace HiveRK.Nested

open Machine Queen

/-! ### The dispatcher up to the entry of a function -/

/-- The handler stopped where it enters a function. -/
def entry (c : Core) (ID CMD arsSize dataPtr : Nat) : Reply :=
  coreInterruptHandler (fun _ c => c) c ID CMD arsSize dataPtr

/-- The handler is its part up to the entry, and then the function that it enters. -/
theorem coreInterruptHandler_entry (run : Call → Core → Core) (c : Core)
    (ID CMD arsSize dataPtr : Nat) :
    (coreInterruptHandler run c ID CMD arsSize dataPtr).core =
      match (entry c ID CMD arsSize dataPtr).calls with
      | [] => (entry c ID CMD arsSize dataPtr).core
      | call :: _ => run call (entry c ID CMD arsSize dataPtr).core := by
  unfold entry coreInterruptHandler
  split
  · unfold coreCommand
    simp only
    split
    · split
      · rfl
      · split
        · rfl
        · unfold callAllocF
          cases c.allocF <;> rfl
    all_goals first | rfl | (split <;> rfl)
  · simp only
    split
    · rfl
    · split <;> rfl

/-! ### Runs -/

/-- A call of the core that has not returned. -/
structure Frame where
  ID : Nat
  count : Nat
  ptr : Nat
  /-- The modules to which the core dispatched since. -/
  since : List Nat
deriving DecidableEq, Repr

/-- The core, the active calls from the innermost on, and the arguments of the latest dispatch
to each module. -/
structure World where
  core : Core
  active : List Frame
  latest : Nat → Option (Nat × Nat)

def start (c : Core) : World := ⟨c, [], fun _ => none⟩

inductive Op where
  | write (address : Nat) (v : Byte)
  | call (ID CMD arsSize dataPtr : Nat)
  | ret
deriving DecidableEq, Repr

def Frame.pass (ID : Nat) (f : Frame) : Frame := { f with since := ID :: f.since }

/-- A call that enters a function is active from then on. -/
def apply (w : World) : Op → World
  | .write address v =>
      { w with core := { w.core with mem := Function.update w.core.mem address v } }
  | .call ID CMD arsSize dataPtr =>
      let reply := entry w.core ID CMD arsSize dataPtr
      if reply.calls = [] then { w with core := reply.core }
      else
        ⟨reply.core, ⟨ID, u32 arsSize, u32 dataPtr, []⟩ :: w.active.map (Frame.pass ID),
          Function.update w.latest ID (some (u32 arsSize, u32 dataPtr))⟩
  | .ret => { w with active := w.active.tail }

/-- `n` bytes apart from the id nodes. -/
def OffNodes (bees : List Bee) (c : Core) (a n : Nat) : Prop :=
  a + n ≤ 2 ^ 32 ∧ ∀ (j : Nat) (h : j < bees.length),
    a + n ≤ c.idNodes j ∨ c.idNodes j + bees[j].nodeSize ≤ a

/-- Functions write to their own memory, call the core and the loaded modules, and pass
pointers to their own memory; bump memory does not run over. -/
inductive Legal (bees : List Bee) (w : World) : Op → Prop
  | write {address : Nat} {v : Byte} (own : OffNodes bees w.core address 1) :
      Legal bees w (.write address v)
  | command {b : Bee} {CMD arsSize dataPtr : Nat} (known : b ∈ bees) :
      Legal bees w (.call b.id CMD arsSize dataPtr)
  | allocate {b : Bee} {arsSize dataPtr : Nat} (known : b ∈ bees)
      (id : load32 w.core.mem dataPtr = b.id)
      (room : w.core.allocF = .alloc →
        w.core.memory + 4 * load32 w.core.mem (dataPtr + 4) < 2 ^ 32) :
      Legal bees w (.call 0 1 arsSize dataPtr)
  | storage {b : Bee} {arsSize dataPtr : Nat} (known : b ∈ bees)
      (id : load32 w.core.mem dataPtr = b.id)
      (own : OffNodes bees w.core (load32 w.core.mem (dataPtr + 4)) 4) :
      Legal bees w (.call 0 2 arsSize dataPtr)
  | coreData {b : Bee} {arsSize dataPtr : Nat} (known : b ∈ bees)
      (id : load32 w.core.mem dataPtr = b.id)
      (own : OffNodes bees w.core (load32 w.core.mem (dataPtr + 4)) 4) :
      Legal bees w (.call 0 3 arsSize dataPtr)
  | bumpEnd {arsSize dataPtr : Nat} (own : OffNodes bees w.core (load32 w.core.mem dataPtr) 4) :
      Legal bees w (.call 0 4 arsSize dataPtr)
  | other {CMD arsSize dataPtr : Nat} (else_ : CMD = 0 ∨ 4 < CMD) :
      Legal bees w (.call 0 CMD arsSize dataPtr)
  | ret {f : Frame} {rest : List Frame} (active : w.active = f :: rest) : Legal bees w .ret

def Step (bees : List Bee) (w : World) (op : Op) (w' : World) : Prop :=
  Legal bees w op ∧ w' = apply w op

/-- The arguments in the `CoreData` of a module. -/
def arguments (c : Core) (ID : Nat) : Nat × Nat :=
  let node := c.idNodes (lookupID c ID - 1)
  (dataCount c.mem node, dataPtr c.mem node)

/-! ### The invariant -/

/-- What `setupLookupArray` leaves: a node for each module, back to back below `MEMORY`. -/
structure Ready (bees : List Bee) (c : Core) : Prop where
  few : bees.length ≤ MAX_BEES
  distinct : bees.Pairwise fun b b' => b.id ≠ b'.id
  nonzero : ∀ b ∈ bees, b.id ≠ 0
  ids : ∀ (j : Nat) (h : j < bees.length), nodeID c.mem (c.idNodes j) = bees[j].id
  below : ∀ (j : Nat) (h : j < bees.length), c.idNodes j + bees[j].nodeSize ≤ c.memory
  apart : ∀ (i j : Nat) (hi : i < bees.length), i < j → j < bees.length →
    c.idNodes i + bees[i].nodeSize ≤ c.idNodes j
  fits : c.memory < 2 ^ 32

/-- The latest arguments for its module are those of an active call until the next dispatch. -/
def Frame.Good (bees : List Bee) (latest : Nat → Option (Nat × Nat)) (f : Frame) : Prop :=
  f.ID ≠ 0 → (∃ b ∈ bees, b.id = f.ID) ∧ (latest f.ID).isSome ∧
    (f.ID ∉ f.since → latest f.ID = some (f.count, f.ptr))

/-- The nodes stay, and each `CoreData` has the arguments of the latest dispatch. -/
structure Inv (bees : List Bee) (c : Core) (w : World) : Prop where
  array : w.core.idNodes = c.idNodes
  low : c.memory ≤ w.core.memory
  high : w.core.memory < 2 ^ 32
  ids : ∀ (j : Nat) (h : j < bees.length), nodeID w.core.mem (c.idNodes j) = bees[j].id
  latest : ∀ (j : Nat) (h : j < bees.length) (args : Nat × Nat),
    w.latest bees[j].id = some args →
      (dataCount w.core.mem (c.idNodes j), dataPtr w.core.mem (c.idNodes j)) = args
  active : ∀ f ∈ w.active, f.Good bees w.latest

section Steps

variable {bees : List Bee} {c : Core} {w w' : World} {j : Nat}

theorem Ready.room (ready : Ready bees c) (hj : j < bees.length) : c.idNodes j + 28 ≤ 2 ^ 32 := by
  have below := ready.below j hj
  have fits := ready.fits
  simp only [Bee.nodeSize] at below
  omega

theorem Ready.apart_of_ne (ready : Ready bees c) {i : Nat} (hi : i < bees.length)
    (hj : j < bees.length) (hij : i ≠ j) :
    c.idNodes i + 28 ≤ c.idNodes j ∨ c.idNodes j + 28 ≤ c.idNodes i := by
  obtain lt | gt := Nat.lt_or_gt_of_ne hij
  · have apart := ready.apart i j hi lt hj
    simp only [Bee.nodeSize] at apart
    omega
  · have apart := ready.apart j i hj gt hi
    simp only [Bee.nodeSize] at apart
    omega

theorem Ready.id_ne (ready : Ready bees c) {i : Nat} (hi : i < bees.length)
    (hj : j < bees.length) (hij : i ≠ j) : bees[i].id ≠ bees[j].id := by
  obtain lt | gt := Nat.lt_or_gt_of_ne hij
  · exact List.pairwise_iff_getElem.mp ready.distinct i j hi hj lt
  · exact (List.pairwise_iff_getElem.mp ready.distinct j i hj hi gt).symm

theorem Inv.start (ready : Ready bees c) : Inv bees c (start c) where
  array := rfl
  low := Nat.le_refl _
  high := ready.fits
  ids := ready.ids
  latest _ _ _ h := by cases h
  active _ h := by cases h

theorem Inv.lookup (inv : Inv bees c w) (ready : Ready bees c) (hj : j < bees.length) :
    lookupID w.core bees[j].id = j + 1 :=
  lookupID_eq (fun j hj => inv.array ▸ inv.ids j hj) ready.few ready.distinct hj

theorem Inv.arguments (inv : Inv bees c w) (ready : Ready bees c) (hj : j < bees.length) :
    arguments w.core bees[j].id =
      (dataCount w.core.mem (c.idNodes j), dataPtr w.core.mem (c.idNodes j)) := by
  simp only [Nested.arguments, inv.lookup ready hj, Nat.add_sub_cancel, inv.array]

/-- Steps that keep the ids and the arguments in the nodes keep the invariant. -/
theorem Inv.quiet (inv : Inv bees c w) (ready : Ready bees c) {c' : Core}
    (array : c'.idNodes = w.core.idNodes) (low : w.core.memory ≤ c'.memory)
    (high : c'.memory < 2 ^ 32)
    (kept : ∀ (j : Nat) (_ : j < bees.length), AgreeOn w.core.mem c'.mem (c.idNodes j) 20) :
    Inv bees c { w with core := c' } := by
  refine ⟨array.trans inv.array, Nat.le_trans inv.low low, high, fun j hj => ?_,
    fun j hj args latest => ?_, inv.active⟩
  · rw [← inv.ids j hj]
    exact (kept j hj).load (by have := ready.room hj; omega) (Nat.le_refl _) (by omega)
  · have count : dataCount c'.mem (c.idNodes j) = dataCount w.core.mem (c.idNodes j) :=
      (kept j hj).load (by have := ready.room hj; omega) (by omega) (by omega)
    have ptr : dataPtr c'.mem (c.idNodes j) = dataPtr w.core.mem (c.idNodes j) :=
      (kept j hj).load (by have := ready.room hj; omega) (by omega) (by omega)
    simp only [count, ptr]
    exact inv.latest j hj args latest

/-- A store off the nodes. -/
theorem Inv.store (inv : Inv bees c w) (ready : Ready bees c) {a n : Nat}
    (own : OffNodes bees w.core a n) {m : Mem} (written : WritesWithin w.core.mem m a n) :
    Inv bees c { w with core := { w.core with mem := m } } := by
  refine inv.quiet ready rfl (Nat.le_refl _) inv.high fun j hj => written.agreeOn ?_
  have off := own.2 j hj
  rw [inv.array] at off
  simp only [Bee.nodeSize] at off
  omega

/-! #### Dispatches -/

/-- The two stores of a dispatch. -/
def putArguments (m : Mem) (node arsSize dataPtr : Nat) : Mem :=
  store32 (store32 m (coreData node + 8) arsSize) (coreData node + 12) dataPtr

theorem putArguments_written (m : Mem) {node : Nat} (arsSize dataPtr : Nat)
    (fits : node + 28 ≤ 2 ^ 32) :
    WritesWithin m (putArguments m node arsSize dataPtr) (node + 12) 8 := by
  refine (WritesWithin.store ?_ ?_ ?_).andStore ?_ ?_ ?_ <;> simp only [Queen.coreData] <;> omega

theorem putArguments_count (m : Mem) {node : Nat} (arsSize dataPtr : Nat)
    (fits : node + 28 ≤ 2 ^ 32) :
    dataCount (putArguments m node arsSize dataPtr) node = u32 arsSize := by
  simp (disch := omega) only [putArguments, dataCount, Queen.coreData, load_store_of_disjoint,
    load_store_same]
  rfl

theorem putArguments_ptr (m : Mem) {node : Nat} (arsSize dataPtr : Nat)
    (fits : node + 28 ≤ 2 ^ 32) :
    Queen.dataPtr (putArguments m node arsSize dataPtr) node = u32 dataPtr := by
  simp (disch := omega) only [putArguments, Queen.dataPtr, Queen.coreData, load_store_same]
  rfl

/-- A call of a loaded module is refused, or stores its arguments and enters a function. -/
theorem Inv.entry_command (inv : Inv bees c w) (ready : Ready bees c) (hj : j < bees.length)
    (CMD arsSize dataPtr : Nat) :
    entry w.core bees[j].id CMD arsSize dataPtr = ⟨w.core, [], some CORE_ERROR_NO_CMD⟩ ∨
      ∃ call, entry w.core bees[j].id CMD arsSize dataPtr =
        ⟨{ w.core with mem := putArguments w.core.mem (c.idNodes j) arsSize dataPtr }, [call],
          some CORE_ERROR_NONE⟩ := by
  have nonzero := ready.nonzero _ (List.getElem_mem hj)
  have known : ¬ j + 1 = 0 := Nat.succ_ne_zero j
  simp only [entry, coreInterruptHandler, if_neg nonzero, inv.lookup ready hj, if_neg known,
    Nat.add_sub_cancel, inv.array]
  split
  · exact .inl rfl
  · exact .inr ⟨_, rfl⟩

/-- A dispatch passes the active calls and becomes the innermost one. -/
theorem active_dispatch {active : List Frame} {latest : Nat → Option (Nat × Nat)} {ID : Nat}
    (known : ID ≠ 0 → ∃ b ∈ bees, b.id = ID) (before : ∀ f ∈ active, f.Good bees latest)
    (count ptr : Nat) :
    ∀ f ∈ ⟨ID, count, ptr, []⟩ :: active.map (Frame.pass ID),
      f.Good bees (Function.update latest ID (some (count, ptr))) := by
  intro f mem module
  cases List.mem_cons.mp mem with
  | inl innermost =>
      subst innermost
      rw [Function.update_self]
      exact ⟨known module, rfl, fun _ => rfl⟩
  | inr passed =>
      obtain ⟨f₀, mem₀, rfl⟩ := List.mem_map.mp passed
      obtain ⟨loaded, some, kept⟩ := before f₀ mem₀ module
      refine ⟨loaded, ?_, fun fresh => ?_⟩
      · by_cases same : f₀.ID = ID
        · simp only [Frame.pass, same, Function.update_self, Option.isSome_some]
        · simp only [Frame.pass, Function.update_of_ne same]
          exact some
      · simp only [Frame.pass, List.mem_cons, not_or] at fresh
        simp only [Frame.pass, Function.update_of_ne fresh.1]
        exact kept fresh.2

/-- A dispatch changes the arguments of its own module only. -/
theorem Inv.putArguments (inv : Inv bees c w) (ready : Ready bees c) (hj : j < bees.length)
    (arsSize dataPtr : Nat) :
    Inv bees c ⟨{ w.core with mem := putArguments w.core.mem (c.idNodes j) arsSize dataPtr },
      ⟨bees[j].id, u32 arsSize, u32 dataPtr, []⟩ :: w.active.map (Frame.pass bees[j].id),
      Function.update w.latest bees[j].id (some (u32 arsSize, u32 dataPtr))⟩ := by
  have written := putArguments_written w.core.mem arsSize dataPtr (ready.room hj)
  refine ⟨inv.array, inv.low, inv.high, fun i hi => ?_, fun i hi args latest => ?_,
    active_dispatch (fun _ => ⟨_, List.getElem_mem hj, rfl⟩) inv.active _ _⟩
  · rw [← inv.ids i hi]
    refine written.load (by have := ready.room hi; omega) ?_
    by_cases hij : i = j
    · subst hij
      omega
    · have off := ready.apart_of_ne hi hj hij
      omega
  by_cases hij : i = j
  · subst hij
    simp only [Function.update_self, Option.some.injEq] at latest
    rw [← latest, putArguments_count _ _ _ (ready.room hi), putArguments_ptr _ _ _ (ready.room hi)]
  · simp only [Function.update_of_ne (ready.id_ne hi hj hij)] at latest
    have off := ready.apart_of_ne hi hj hij
    have inside := ready.room hi
    have count : dataCount (Nested.putArguments w.core.mem (c.idNodes j) arsSize dataPtr)
        (c.idNodes i) = dataCount w.core.mem (c.idNodes i) := written.load (by omega) (by omega)
    have ptr : Queen.dataPtr (Nested.putArguments w.core.mem (c.idNodes j) arsSize dataPtr)
        (c.idNodes i) = Queen.dataPtr w.core.mem (c.idNodes i) := written.load (by omega) (by omega)
    rw [count, ptr]
    exact inv.latest i hi args latest

theorem Inv.command (inv : Inv bees c w) (ready : Ready bees c) (hj : j < bees.length)
    (CMD arsSize dataPtr : Nat) :
    Inv bees c (apply w (.call bees[j].id CMD arsSize dataPtr)) := by
  obtain refused | ⟨call, entered⟩ := inv.entry_command ready hj CMD arsSize dataPtr
  · simp only [apply, refused, if_pos]
    exact inv
  · simp only [apply, entered, if_neg (List.cons_ne_nil _ _)]
    exact inv.putArguments ready hj arsSize dataPtr

/-! #### The commands of the core -/

/-- The core calls an allocator with stack arguments only. -/
theorem Inv.enterAllocator (inv : Inv bees c w) (ready : Ready bees c) (arsSize dataPtr : Nat) :
    Inv bees c ⟨w.core, ⟨0, u32 arsSize, u32 dataPtr, []⟩ :: w.active.map (Frame.pass 0),
      Function.update w.latest 0 (some (u32 arsSize, u32 dataPtr))⟩ := by
  refine ⟨inv.array, inv.low, inv.high, inv.ids, fun j hj args latest => ?_,
    active_dispatch (fun nonzero => absurd rfl nonzero) inv.active _ _⟩
  have nonzero := ready.nonzero _ (List.getElem_mem hj)
  simp only [Function.update_of_ne nonzero] at latest
  exact inv.latest j hj args latest

/-- `CMD 1` stores in the storage pointer of a node and above `MEMORY`, or enters the
allocator that `CMD 5` installed. -/
theorem Inv.allocate (inv : Inv bees c w) (ready : Ready bees c) (hj : j < bees.length)
    {arsSize dataPtr : Nat} (id : load32 w.core.mem dataPtr = bees[j].id)
    (room : w.core.allocF = .alloc →
      w.core.memory + 4 * load32 w.core.mem (dataPtr + 4) < 2 ^ 32) :
    Inv bees c (apply w (.call 0 1 arsSize dataPtr)) := by
  have known : ¬ j + 1 = 0 := Nat.succ_ne_zero j
  have request : entry w.core 0 1 arsSize dataPtr =
      if globalValues w.core.mem (c.idNodes j) ≠ 0 then ⟨w.core, [], none⟩
      else
        let done := callAllocF (fun _ c => c) w.core (load32 w.core.mem (dataPtr + 4))
          (c.idNodes j + 20)
        ⟨done.1, done.2, some CORE_ERROR_NONE⟩ := by
    simp only [entry, coreInterruptHandler, if_pos, coreCommand, id, inv.lookup ready hj,
      if_neg known, Nat.add_sub_cancel, inv.array]
  by_cases served : globalValues w.core.mem (c.idNodes j) ≠ 0
  · rw [if_pos served] at request
    simp only [apply, request, if_pos]
    exact inv
  rw [if_neg served] at request
  cases installed : w.core.allocF with
  | custom f =>
      simp only [callAllocF, installed] at request
      simp only [apply, request, if_neg (List.cons_ne_nil _ _)]
      exact inv.enterAllocator ready arsSize dataPtr
  | alloc =>
      simp only [callAllocF, installed] at request
      simp only [apply, request, if_pos]
      generalize load32 w.core.mem (dataPtr + 4) = size at *
      have enough := room installed
      have low := inv.low
      have below := ready.below j hj
      have node := ready.room hj
      simp only [Bee.nodeSize] at below
      obtain ⟨m, done, _, _, written⟩ := alloc_spec (c := w.core)
        (show c.idNodes j + 20 + 4 ≤ w.core.memory by omega) enough
      rw [done]
      refine inv.quiet ready rfl (Nat.le_add_right _ _) (by simp only; omega) fun i hi => ?_
      refine written.agreeOn fun x lo hi' off => ?_
      have belowI := ready.below i hi
      simp only [Bee.nodeSize] at belowI
      by_cases hij : i = j
      · subst hij
        omega
      · have apart := ready.apart_of_ne hi hj hij
        omega

theorem Inv.output (inv : Inv bees c w) (ready : Ready bees c) {a v : Nat}
    (own : OffNodes bees w.core a 4) :
    Inv bees c { w with core := { w.core with mem := store32 w.core.mem a v } } :=
  inv.store ready own (.store own.1 (Nat.le_refl _) (Nat.le_refl _))

/-- `CMD 2` and `CMD 3` store where their second argument points. -/
theorem Inv.found_output (inv : Inv bees c w) (ready : Ready bees c) (hj : j < bees.length)
    {CMD arsSize dataPtr : Nat} (command : CMD = 2 ∨ CMD = 3)
    (id : load32 w.core.mem dataPtr = bees[j].id)
    (own : OffNodes bees w.core (load32 w.core.mem (dataPtr + 4)) 4) :
    Inv bees c (apply w (.call 0 CMD arsSize dataPtr)) := by
  have known : ¬ j + 1 = 0 := Nat.succ_ne_zero j
  cases command with
  | inl storage =>
      subst storage
      simp only [apply, entry, coreInterruptHandler, if_pos, coreCommand, id, inv.lookup ready hj,
        if_neg known]
      exact inv.output ready own
  | inr coreData =>
      subst coreData
      simp only [apply, entry, coreInterruptHandler, if_pos, coreCommand, id, inv.lookup ready hj,
        if_neg known]
      exact inv.output ready own

/-- `CMD 5` installs an allocator, and what the core does not know changes nothing. -/
theorem Inv.other (inv : Inv bees c w) (ready : Ready bees c) {CMD arsSize dataPtr : Nat}
    (else_ : CMD = 0 ∨ 4 < CMD) : Inv bees c (apply w (.call 0 CMD arsSize dataPtr)) := by
  have still : ∀ f, Inv bees c { w with core := { w.core with allocF := f } } := fun f =>
    inv.quiet ready rfl (Nat.le_refl _) inv.high fun _ _ => .refl _ _ _
  by_cases installs : CMD = 5
  · subst installs
    simp only [apply, entry, coreInterruptHandler, if_pos, coreCommand]
    exact still _
  · have unknown : entry w.core 0 CMD arsSize dataPtr =
        ⟨w.core, [], some CORE_ERROR_NO_CMD⟩ := by
      unfold entry coreInterruptHandler coreCommand
      simp only [if_pos]
      split <;> first | omega | rfl
    simp only [apply, unknown, if_pos]
    exact inv

/-- A return takes the innermost call away. -/
theorem Inv.ret (inv : Inv bees c w) : Inv bees c (apply w .ret) :=
  ⟨inv.array, inv.low, inv.high, inv.ids, inv.latest,
    fun f mem => inv.active f (List.mem_of_mem_tail mem)⟩

theorem Inv.step (inv : Inv bees c w) (ready : Ready bees c) {op : Op}
    (step : Step bees w op w') : Inv bees c w' := by
  obtain ⟨legal, rfl⟩ := step
  cases legal with
  | write own => exact inv.store ready own fun x off => Function.update_of_ne (by omega) _ _
  | command known =>
      obtain ⟨j, hj, rfl⟩ := List.getElem_of_mem known
      exact inv.command ready hj _ _ _
  | allocate known id room =>
      obtain ⟨j, hj, rfl⟩ := List.getElem_of_mem known
      exact inv.allocate ready hj id room
  | storage known id own =>
      obtain ⟨j, hj, rfl⟩ := List.getElem_of_mem known
      exact inv.found_output ready hj (.inl rfl) id own
  | coreData known id own =>
      obtain ⟨j, hj, rfl⟩ := List.getElem_of_mem known
      exact inv.found_output ready hj (.inr rfl) id own
  | bumpEnd own => exact inv.output ready own
  | other else_ => exact inv.other ready else_
  | ret _ => exact inv.ret

end Steps

/-! ### The arguments of active calls -/

section Results

variable {bees : List Bee} {c c₁ : Core}

theorem ready_of_setUp {page0 : Nat} {rest : List Nat} (setUp : SetUp page0 rest bees c c₁)
    (few : bees.length ≤ MAX_BEES) (distinct : bees.Pairwise fun b b' => b.id ≠ b'.id)
    (nonzero : ∀ b ∈ bees, b.id ≠ 0) (fits : c.memory + nodesSize bees < 2 ^ 32) :
    Ready bees c₁ where
  few := few
  distinct := distinct
  nonzero := nonzero
  ids _ hj := (setUp.fresh hj).id
  below _ hj := (setUp.inside hj).2
  apart _ _ hi hij hj := setUp.apart hi hij hj
  fits := setUp.memory ▸ fits

/-- At every moment of every run the `CoreData` of a running command's module has the arguments
of the latest dispatch to the module, and so the command's own as long as none came later. -/
theorem arguments_latest {page0 : Nat} (registered : Registered page0 bees c)
    (few : bees.length ≤ MAX_BEES) (named : ∀ b ∈ bees, b.Named)
    (distinct : bees.Pairwise fun b b' => b.id ≠ b'.id) (nonzero : ∀ b ∈ bees, b.id ≠ 0)
    (nonneg : ∀ b ∈ bees, b.NonNegative) (fits : c.memory + nodesSize bees < 2 ^ 32) {fuel : Nat}
    {events : List Event} (setup : setupLookupArray fuel c page0 0 = .ok (c₁, events))
    (hfuel : bees.length < fuel) {ops : List Op} {w : World}
    (run : Runs (Step bees) (start c₁) ops w) {f : Frame} (mem : f ∈ w.active)
    (module : f.ID ≠ 0) :
    w.latest f.ID = some (arguments w.core f.ID) ∧
      (f.ID ∉ f.since → arguments w.core f.ID = (f.count, f.ptr)) := by
  obtain ⟨rest, loaded⟩ := registered.loaded
  obtain ⟨c₂, setUp⟩ := loaded.setUp (fun b hb => ⟨named b hb, nonneg b hb⟩) fits
  obtain ⟨rfl, _⟩ := Prod.mk.inj (Except.ok.inj (setup.symm.trans (setUp.run fuel hfuel)))
  have ready := ready_of_setUp setUp few distinct nonzero fits
  have inv : Inv bees c₁ w :=
    run.invariant (Inv bees c₁) (.start ready) fun _ _ _ inv step => inv.step ready step
  obtain ⟨⟨b, known, id⟩, some, kept⟩ := inv.active f mem module
  obtain ⟨j, hj, rfl⟩ := List.getElem_of_mem known
  obtain ⟨args, latest⟩ := Option.isSome_iff_exists.mp some
  have held : arguments w.core f.ID = args := by
    rw [← id, inv.arguments ready hj]
    exact inv.latest j hj args (id ▸ latest)
  refine ⟨held ▸ latest, fun fresh => ?_⟩
  rw [held]
  exact Option.some.inj (latest.symm.trans (kept fresh))

/-- The core with `beeThree` loaded, behind `setupLookupArray`. -/
def nestedCore : Core :=
  ((setupLookupArray 2 coreThree 0x4000 0).toOption.map Prod.fst).getD coreThree

theorem nestedCore_setUp : ∃ events,
    setupLookupArray 2 coreThree 0x4000 0 = .ok (nestedCore, events) := by
  obtain ⟨rest, loaded⟩ := registered_three.loaded
  obtain ⟨c₁, setUp⟩ := loaded.setUp (fun b hb => ⟨by revert b; decide, by revert b; decide⟩)
    (by decide)
  have run := setUp.run 2 (show 1 < 2 by decide)
  have built : nestedCore = c₁ :=
    congrArg (fun r => (r.toOption.map Prod.fst).getD coreThree) run
  exact ⟨_, built ▸ run⟩

/-- Module 3 is called while it runs. -/
def reentrant : List Op := [.call 3 0 0 0x100, .call 3 0 0 0x200, .ret]

theorem reentrant_runs : Runs (Step [beeThree]) (start nestedCore) reentrant
    (apply (apply (apply (start nestedCore) (.call 3 0 0 0x100)) (.call 3 0 0 0x200)) .ret) := by
  have known : beeThree ∈ [beeThree] := List.mem_cons_self
  have outer : Runs (Step [beeThree]) (start nestedCore) [.call 3 0 0 0x100] _ :=
    .snoc .nil ⟨.command known, rfl⟩
  have inner : Runs (Step [beeThree]) (start nestedCore) [.call 3 0 0 0x100, .call 3 0 0 0x200] _ :=
    .snoc outer ⟨.command known, rfl⟩
  have running : (apply (apply (start nestedCore) (.call 3 0 0 0x100)) (.call 3 0 0 0x200)).active =
      [⟨3, 0, 0x200, []⟩, ⟨3, 0, 0x100, [3]⟩] := by decide +kernel
  exact .snoc inner ⟨.ret running, rfl⟩

/-- The outer command finds the arguments of the inner one. -/
theorem arguments_overwritten : ¬ ∀ (ops : List Op) (w : World) (f : Frame) (rest : List Frame),
    Runs (Step [beeThree]) (start nestedCore) (ops ++ [.ret]) w → w.active = f :: rest →
      f.ID ≠ 0 → arguments w.core f.ID = (f.count, f.ptr) := by
  intro kept
  have outer := kept [.call 3 0 0 0x100, .call 3 0 0 0x200] _ ⟨3, 0, 0x100, [3]⟩ [] reentrant_runs
    (by decide +kernel) (by decide)
  exact absurd outer (by decide +kernel)

/-- Module 3 is called while it runs, and goes on with the arguments of the inner call. -/
theorem arguments_latest_beeThree : ∃ w, Runs (Step [beeThree]) (start nestedCore) reentrant w ∧
    w.active = [⟨3, 0, 0x100, [3]⟩] ∧ w.latest 3 = some (0, 0x200) ∧
      arguments w.core 3 = (0, 0x200) := by
  obtain ⟨w, hw⟩ : ∃ w, w = apply (apply (apply (start nestedCore) (.call 3 0 0 0x100))
    (.call 3 0 0 0x200)) .ret := ⟨_, rfl⟩
  obtain ⟨active, latest⟩ : w.active = [⟨3, 0, 0x100, [3]⟩] ∧ w.latest 3 = some (0, 0x200) := by
    rw [hw]
    decide +kernel
  have mem : ⟨3, 0, 0x100, [3]⟩ ∈ w.active := active ▸ List.mem_cons_self
  obtain ⟨events, setup⟩ := nestedCore_setUp
  have held := (arguments_latest registered_three (by decide) (by decide) (by decide) (by decide)
    (by decide) (by decide) setup (by decide) (hw ▸ reentrant_runs) mem (by decide)).1
  exact ⟨w, hw ▸ reentrant_runs, active, latest, Option.some.inj (held.symm.trans latest)⟩

end Results

end HiveRK.Nested
