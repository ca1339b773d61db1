import HiveRK.Bees.Memory.Manager
import HiveRK.Bees.Memory.Requests
import HiveRK.Queen.Dispatch

/-!
# The core and the memory manager together

A run starts behind `setupLookupArray` and consists of system calls by any module, of writes
to what belongs to the modules, and of one `bee_init` of the memory manager, which builds
the heap above the bump end and puts `core_alloc` in the place of the bump allocator.

`Boot` is what stays fixed in a run. The id nodes begin at `nodes`; behind them bump memory
and the heap grow, below `limit`. The core's own variables, the stacks of the callers and
the word that `main` published lie outside of that stretch. `World` adds to the core what
its clients own, which no code looks at: the pointers that `kmalloc` gave out directly, and
the storage that `CMD 1` gave.
-/

namespace HiveRK.System

open Machine Queen Memory

structure Boot where
  bees : List Bee
  core : Core
  code : Code
  nodes : Nat
  limit : Nat

/-- The global storage of a module. -/
structure Storage where
  id : Nat
  ptr : Nat
  size : Nat
deriving DecidableEq, Repr

structure World where
  core : Core
  live : List Allocation
  storage : List Storage

def start (boot : Boot) : World := ⟨boot.core, [], []⟩

/-- The node of the `j`-th module. -/
def Boot.node (boot : Boot) (j : Nat) : Nat := boot.core.idNodes j

/-- What the loader provides: nodes back to back below the bump pointer, the published
word, and the memory manager with its two commands. -/
structure Boot.Ready (boot : Boot) : Prop where
  few : boot.bees.length ≤ MAX_BEES
  distinct : boot.bees.Pairwise fun b b' => b.id ≠ b'.id
  fresh : ∀ (j : Nat) (h : j < boot.bees.length),
    Fresh boot.core.mem boot.core.irt boot.bees[j] (boot.node j)
  inside : ∀ (j : Nat) (h : j < boot.bees.length), boot.nodes ≤ boot.node j ∧
    boot.node j + boot.bees[j].nodeSize ≤ boot.core.memory
  apart : ∀ (i j : Nat) (hi : i < boot.bees.length), i < j → j < boot.bees.length →
    boot.node i + boot.bees[i].nodeSize ≤ boot.node j
  room : boot.core.memory ≤ boot.limit
  fits : boot.limit < 2 ^ 32
  bump : boot.core.allocF = .alloc
  published : getCoreIRT boot.core.mem = u32 boot.core.irt
  outside : CORE_GLOBAL_MEMORY + 4 ≤ boot.nodes ∨ boot.limit ≤ CORE_GLOBAL_MEMORY
  manager : ∃ (j : Nat) (h : j < boot.bees.length), boot.bees[j].id = 7 ∧
    boot.bees[j].base = boot.code.base ∧
    boot.bees[j].exports = [⟨1, boot.code.kmalloc⟩, ⟨2, boot.code.kfree⟩]
  entries : boot.code.adr boot.code.kmalloc ≠ 0 ∧ boot.code.adr boot.code.kfree ≠ 0
  different : boot.code.adr boot.code.kfree ≠ boot.code.adr boot.code.kmalloc ∧
    boot.code.adr boot.code.kmalloc ≠ boot.code.adr boot.code.coreAlloc ∧
    boot.code.adr boot.code.kfree ≠ boot.code.adr boot.code.coreAlloc

/-! ### Operations -/

inductive Op where
  | call (stack nested ID CMD : Nat) (args : List Nat)
  | write (address : Nat) (v : Byte)
  | beeInit (core stack slot : Nat)

/-- The storage that a request for module `id` brought it. -/
def granted (c c' : Core) (id size : Nat) : List Storage :=
  let node := c.idNodes (lookupID c id - 1)
  if globalValues c.mem node = 0 ∧ globalValues c'.mem node ≠ 0 then
    [⟨id, globalValues c'.mem node, size⟩]
  else []

/-- What an operation does. A call has its argument array at `stack`, and `core_alloc`, if
it is entered, has its own at `nested`. -/
def apply (boot : Boot) (w : World) : Op → World
  | .call stack nested ID CMD args =>
      let c := syscall (enter boot.code nested) w.core (u32 w.core.irt) stack ID CMD args
      match ID, CMD, args with
      | 0, 1, [id, size] => ⟨c, w.live, granted w.core c id size ++ w.storage⟩
      | 7, 1, [size, out] =>
          let p := load32 c.mem out
          ⟨c, if p = 0 then w.live else ⟨p, size⟩ :: w.live, w.storage⟩
      | 7, 2, [ptr] => ⟨c, w.live.eraseP fun p => p.ptr = ptr, w.storage⟩
      | _, _, _ => ⟨c, w.live, w.storage⟩
  | .write address v =>
      ⟨{ w.core with mem := Function.update w.core.mem address v }, w.live, w.storage⟩
  | .beeInit core stack slot =>
      let c := beeInit boot.code w.core core stack slot
      ⟨c, w.live, granted w.core c 7 4 ++ w.storage⟩

/-! ### What belongs to whom -/

section Ownership

variable (boot : Boot)

/-- A byte of the word that `main` published. -/
def Published (x : Nat) : Prop := CORE_GLOBAL_MEMORY ≤ x ∧ x < CORE_GLOBAL_MEMORY + 4

/-- A byte apart from the nodes, bump memory, the heap and the published word. -/
def Boot.OutsideByte (x : Nat) : Prop := (x < boot.nodes ∨ boot.limit ≤ x) ∧ ¬ Published x

/-- `n` bytes of a caller's stack. -/
def Boot.Outside (a n : Nat) : Prop :=
  a + n ≤ 2 ^ 32 ∧ ∀ x, a ≤ x → x < a + n → boot.OutsideByte x

/-- A byte that a module may write: outside, in the storage of a module, or in the payload
of a live allocation. The storage of the memory manager belongs to the manager alone once
it holds the heap pointer. -/
def ClientByte (w : World) (x : Nat) : Prop :=
  boot.OutsideByte x ∨
    (∃ s ∈ w.storage, (s.id = 7 → w.core.allocF = .alloc) ∧ s.ptr ≤ x ∧ x < s.ptr + s.size) ∨
    ∃ p ∈ w.live, p.ptr ≤ x ∧ x < p.ptr + p.size

/-- `n` bytes that a module may write. -/
def Client (w : World) (a n : Nat) : Prop :=
  a + n ≤ 2 ^ 32 ∧ ∀ x, a ≤ x → x < a + n → ClientByte boot w x

/-- Callers have their arguments on their stacks, pass pointers to what belongs to them, free
live pointers only, and ask for sizes that the unit count can hold, for the memory manager
no less than its `GlobalData`; bump memory stays below `limit`. `bee_init` runs once and
finds room for the heap above the bump end. -/
inductive Legal (w : World) : Op → Prop
  | allocate {stack nested id size : Nat} (array : boot.Outside stack 8)
      (inner : boot.Outside nested 8) (known : ∃ b ∈ boot.bees, b.id = id) (small : size ≤ maxSize)
      (room : w.core.allocF = .alloc → w.core.memory + 4 * size ≤ boot.limit)
      (own : id = 7 → 4 ≤ size) : Legal w (.call stack nested 0 1 [id, size])
  | storage {stack nested id out : Nat} (array : boot.Outside stack 8)
      (known : ∃ b ∈ boot.bees, b.id = id) (target : Client boot w out 4) :
      Legal w (.call stack nested 0 2 [id, out])
  | coreData {stack nested id out : Nat} (array : boot.Outside stack 8)
      (known : ∃ b ∈ boot.bees, b.id = id) (target : Client boot w out 4) :
      Legal w (.call stack nested 0 3 [id, out])
  | bumpEnd {stack nested out : Nat} (array : boot.Outside stack 4) (target : Client boot w out 4) :
      Legal w (.call stack nested 0 4 [out])
  | kmalloc {stack nested size out : Nat} (array : boot.Outside stack 8)
      (switched : w.core.allocF ≠ .alloc) (small : size ≤ maxSize) (target : Client boot w out 4) :
      Legal w (.call stack nested 7 1 [size, out])
  | kfree {stack nested ptr : Nat} (array : boot.Outside stack 4)
      (switched : w.core.allocF ≠ .alloc) (owned : ptr = 0 ∨ ∃ p ∈ w.live, p.ptr = ptr) :
      Legal w (.call stack nested 7 2 [ptr])
  | command {stack nested CMD : Nat} {b : Bee} {args : List Nat}
      (array : boot.Outside stack (4 * args.length)) (low : stack < 2 ^ 32) (known : b ∈ boot.bees)
      (nonzero : b.id ≠ 0) (other : b.id ≠ 7) (table : CMD < b.tableSize)
      (own : b.entry CMD ≠ boot.code.adr boot.code.kmalloc ∧
        b.entry CMD ≠ boot.code.adr boot.code.kfree ∧
        b.entry CMD ≠ boot.code.adr boot.code.coreAlloc) :
      Legal w (.call stack nested b.id CMD args)
  | write {address : Nat} {v : Byte} (target : Client boot w address 1) :
      Legal w (.write address v)
  | beeInit {j stack slot : Nat} (hj : j < boot.bees.length) (manager : boot.bees[j].id = 7)
      (first : w.core.allocF = .alloc) (array : boot.Outside stack 8) (global : boot.Outside slot 4)
      (room : w.core.memory + 16 ≤ boot.limit)
      (above : ∀ bumpEnd,
        bumpEnd = (apply boot w (.beeInit (coreData (boot.node j)) stack slot)).core.memory →
        bumpEnd ≤ heapBase bumpEnd ∧ heapBase bumpEnd + 64 * heapTotalUnits ≤ boot.limit) :
      Legal w (.beeInit (coreData (boot.node j)) stack slot)

def Step (w : World) (op : Op) (w' : World) : Prop := Legal boot w op ∧ w' = apply boot w op

end Ownership

end HiveRK.System
