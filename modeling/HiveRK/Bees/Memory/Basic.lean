import HiveRK.Machine.Execution
import HiveRK.Machine.Memory

/-!
# The memory manager

`bees/memory/memory.c`: a heap of units of `UNIT_SIZE = 64` bytes behind the bump
region, kept as a singly linked list of in-band headers. A header `heap_block_t`
occupies the first `sizeof(heap_block_t) = 8` bytes of its block:

* `units` at offset 0, two bytes;
* `free` at offset 2, one byte, and one byte of padding;
* `next` at offset 4, four bytes.

The module's storage, `GlobalData`, is four bytes at the address `global` and holds
the address of the first block. `kmalloc` and `kfree` are the bodies of the two
commands; the value that `kmalloc` puts in `*data` is returned beside the memory,
and `kmallocCommand` reads the argument array and performs that store.
-/

namespace HiveRK.Memory

open Machine

/-- `HEAP_TOTAL_UNITS`: `HEAP_SIZE`, one megabyte, in units of `UNIT_SIZE`. -/
def heapTotalUnits : Nat := 1024 * 1024 / 64

/-! ### The header `heap_block_t` -/

def units (m : Mem) (block : Nat) : Nat := load16 m block

def free (m : Mem) (block : Nat) : Nat := load8 m (block + 2)

def next (m : Mem) (block : Nat) : Nat := load32 m (block + 4)

def setUnits (m : Mem) (block v : Nat) : Mem := store16 m block v

def setFree (m : Mem) (block v : Nat) : Mem := store8 m (block + 2) v

def setNext (m : Mem) (block v : Nat) : Mem := store32 m (block + 4) v

/-- `global->heap`. -/
def heap (m : Mem) (global : Nat) : Nat := load32 m global

theorem heap_lt (m : Mem) (global : Nat) : heap m global < 2 ^ 32 := load32_lt m global

/-! ### Commands -/

/-- `bytes_to_units`: 32-bit additions, and a result cut to 16 bits. -/
def bytesToUnits (payloadBytes : Nat) : Nat :=
  let total := u32 (payloadBytes + 8)
  u32 (total + 64 - 1) / 64 % 2 ^ 16

/-- The part of `bee_init` that builds the heap. It finds in `global->heap` the bump
end that the core stored there. -/
def initHeap (m : Mem) (global : Nat) : Mem :=
  let m := store32 m global (bytesToUnits (heap m global) * 64)
  let m := setUnits m (heap m global) heapTotalUnits
  let m := setFree m (heap m global) 1
  setNext m (heap m global) 0

/-- The branch of `kmalloc` that cuts the block at `cur` in two. -/
def splitBlock (m : Mem) (cur reqUnits : Nat) : Mem :=
  let split := u32 (cur + reqUnits * 64)
  let m := setUnits m split (units m cur - reqUnits)
  let m := setFree m split 1
  let m := setNext m split (next m cur)
  let m := setUnits m cur reqUnits
  setNext m cur split

/-- The loop `while(cur)` of `kmalloc`, and the failing exit after it. -/
def kmallocLoop (reqUnits : Nat) : Nat → Mem → Nat → Exec (Mem × Nat)
  | 0, _, _ => .error .fuel
  | fuel + 1, m, cur =>
      if cur = 0 then .ok (m, 0)
      else if free m cur ≠ 0 ∧ reqUnits ≤ units m cur then
        let m := if reqUnits < units m cur then splitBlock m cur reqUnits else m
        .ok (setFree m cur 0, u32 (cur + 8))
      else kmallocLoop reqUnits fuel m (next m cur)

/-- `kmalloc` for a request of `size` bytes. The second result is `*data`. -/
def kmalloc (fuel : Nat) (m : Mem) (global size : Nat) : Exec (Mem × Nat) :=
  if size = 0 then .ok (m, 0)
  else kmallocLoop (bytesToUnits size) fuel m (heap m global)

/-- The exported command: `core->ptr` names the size and the address of the result. -/
def kmallocCommand (fuel : Nat) (m : Mem) (core global : Nat) : Exec Mem :=
  let args := load32 m (core + 12)
  let size := load32 m args
  let data := load32 m (args + 4)
  (kmalloc fuel m global size).map fun r => store32 r.1 data r.2

/-- The header at `p` takes in the block at `q`, as both merges of `kfree` do. -/
def absorb (m : Mem) (p q : Nat) : Mem :=
  let m := setUnits m p (units m p + units m q)
  setNext m p (next m q)

/-- The merge of `kfree` with the block behind. -/
def mergeNext (m : Mem) (block : Nat) : Mem :=
  if next m block ≠ 0 ∧ free m (next m block) ≠ 0 then absorb m block (next m block) else m

/-- The loop `while(cur!=block)` of `kfree`, which returns `last`. -/
def findLast (block : Nat) : Nat → Mem → Nat → Nat → Exec Nat
  | 0, _, _, _ => .error .fuel
  | fuel + 1, m, last, cur =>
      if cur = block then .ok last else findLast block fuel m cur (next m cur)

/-- The merge of `kfree` with the block in front. -/
def mergeLast (m : Mem) (last block : Nat) : Mem :=
  if last ≠ 0 ∧ free m last ≠ 0 then absorb m last block else m

/-- `kfree`. Freeing a block whose `free` is set enters `while (1)`. -/
def kfree (fuel : Nat) (m : Mem) (global ptr : Nat) : Exec Mem :=
  if ptr = 0 then .ok m
  else
    let block := u32 (ptr + 2 ^ 32 - 8)
    if free m block ≠ 0 then .error .trap
    else
      let m := mergeNext (setFree m block 1) block
      (findLast block fuel m 0 (heap m global)).map fun last => mergeLast m last block

/-- The exported command: `core->ptr` names the pointer to free. -/
def kfreeCommand (fuel : Nat) (m : Mem) (core global : Nat) : Exec Mem :=
  kfree fuel m global (load32 m (load32 m (core + 12)))

/-! ### Unit counts -/

/-- Sizes whose unit count fits the 16-bit field. -/
def maxSize : Nat := 65535 * 64 - 8

theorem bytesToUnits_of_le {size : Nat} (h : size ≤ maxSize) :
    bytesToUnits size = (size + 71) / 64 := by
  unfold maxSize at h
  simp only [bytesToUnits, u32]
  omega

theorem bytesToUnits_pos {size : Nat} (h : size ≤ maxSize) : 0 < bytesToUnits size := by
  rw [bytesToUnits_of_le h]
  unfold maxSize at h
  omega

/-- The units taken hold the header and the payload. -/
theorem le_bytesToUnits {size : Nat} (h : size ≤ maxSize) :
    size + 8 ≤ 64 * bytesToUnits size := by
  rw [bytesToUnits_of_le h]
  unfold maxSize at h
  omega

theorem bytesToUnits_lt (size : Nat) : bytesToUnits size < 2 ^ 16 :=
  Nat.mod_lt _ (by decide)

end HiveRK.Memory
