import HiveRK.Machine.Execution
import HiveRK.Machine.Memory

/-!
# The core's data

`queen/main.c` keeps three kinds of records in the bump region behind `MEMORY`, all of
them packed:

* `BEE_NAMES_PAGE`, 512 bytes: 14 slots `BEE_NAME` of 36 bytes (32 for the name, 4 for
  the pointer `data`), and `nextPage` at 504;
* `BEE_DATA_PAGE`: 18 bytes of fixed fields, then `exportCount` pairs of an id and the
  address of a function;
* `idNode`: 28 bytes of fixed fields, then the table `funcs`.

`Core` holds the memory and the kernel's own variables, which lie in the kernel image
and not in the bump region. `irt` is the address of `core_interrupt_handler`.
-/

namespace HiveRK.Queen

open Machine

/-- What the pointer `allocF` names: the core's `alloc`, or a function a module set. -/
inductive AllocF where
  | alloc
  | custom (func : Nat)
deriving DecidableEq, Repr

structure Core where
  mem : Mem
  memory : Nat
  lastEnd : Nat
  idNodes : Nat → Nat
  allocF : AllocF
  irt : Nat

/-- A core before anything is loaded. -/
def emptyCore : Core := ⟨fun _ => 0, 0x4000, 512, fun _ => 0, .alloc, 0x10000⟩

/-- A 32-bit word read as `int`. -/
def int32 (n : Nat) : Int := if n < 2 ^ 31 then n else n - 2 ^ 32

/-- `(size + 511) / 512 * 512`. -/
def sectorRound (size : Nat) : Nat := u32 (size + 511) / 512 * 512

/-! ### `BEE_NAMES_PAGE` -/

/-- The address of `page->names[i]`. -/
def slot (page i : Nat) : Nat := page + 36 * i

/-- `page->names[i].name[0]`. -/
def firstChar (m : Mem) (page i : Nat) : Nat := load8 m (slot page i)

/-- `page->names[i].data`. -/
def slotData (m : Mem) (page i : Nat) : Nat := load32 m (slot page i + 32)

def nextPage (m : Mem) (page : Nat) : Nat := load32 m (page + 504)

def setNextPage (m : Mem) (page v : Nat) : Mem := store32 m (page + 504) v

/-! ### `BEE_DATA_PAGE` -/

def baseAddress (m : Mem) (data : Nat) : Nat := load32 m data

def beeID (m : Mem) (data : Nat) : Nat := load32 m (data + 4)

def priority (m : Mem) (data : Nat) : Nat := load8 m (data + 8)

def format (m : Mem) (data : Nat) : Nat := load8 m (data + 9)

def exportCount (m : Mem) (data : Nat) : Nat := load32 m (data + 10)

def initFunc (m : Mem) (data : Nat) : Nat := load32 m (data + 14)

/-- `data->funcs[s].ID`. -/
def exportID (m : Mem) (data s : Nat) : Nat := load32 m (data + 18 + 8 * s)

/-- `data->funcs[s].func`. -/
def exportFunc (m : Mem) (data s : Nat) : Nat := load32 m (data + 22 + 8 * s)

/-! ### `idNode` -/

def nodeID (m : Mem) (node : Nat) : Nat := load32 m node

/-- The address of `node->data`, the module's `CoreData`. -/
def coreData (node : Nat) : Nat := node + 4

def dataIrt (m : Mem) (node : Nat) : Nat := load32 m (node + 4)

def dataBaseAdr (m : Mem) (node : Nat) : Nat := load32 m (node + 8)

def dataCount (m : Mem) (node : Nat) : Nat := load32 m (node + 12)

def dataPtr (m : Mem) (node : Nat) : Nat := load32 m (node + 16)

def globalValues (m : Mem) (node : Nat) : Nat := load32 m (node + 20)

def numFuncs (m : Mem) (node : Nat) : Nat := load32 m (node + 24)

/-- The address of `node->funcs[c]`. -/
def funcSlot (node c : Nat) : Nat := node + 28 + 4 * c

/-- `node->funcs[c]`, wherever that is. -/
def func (m : Mem) (node c : Nat) : Nat := load32 m (funcSlot node c)

end HiveRK.Queen
