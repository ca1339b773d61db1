import HiveRK.Queen.Basic

/-!
# The running core

`setupLookupArray` turns the registry into id nodes, `run_inits` starts the modules, and
`core_interrupt_handler` serves their calls. What a called function does is outside this
file: it is the parameter `run`. The three loops that walk the registry also return what
they did there, as a list of `Event`s.
-/

namespace HiveRK.Queen

open Machine

def MAX_BEES : Nat := 1024

/-! ### The dispatcher -/

/-- The loop of `lookupID` over its last `k` indices. -/
def lookupLoop (c : Core) (id : Nat) : Nat → Nat → Nat
  | 0, _ => 0
  | k + 1, s => if nodeID c.mem (c.idNodes s) = id then s + 1 else lookupLoop c id k (s + 1)

def lookupID (c : Core) (id : Nat) : Nat := lookupLoop c id MAX_BEES 0

/-- Set `n` words from `a` on to 0. -/
def zeroWords (m : Mem) (a : Nat) : Nat → Mem
  | 0 => m
  | n + 1 => store32 (zeroWords m a n) (a + 4 * n) 0

/-- `alloc(size, data)`. -/
def alloc (c : Core) (size data : Nat) : Core :=
  let m := store32 c.mem data c.memory
  { c with mem := zeroWords m c.memory size, memory := u32 (c.memory + size) }

/-- A function that is entered, and its stack arguments from the first on. -/
structure Call where
  target : Nat
  args : List Nat
deriving DecidableEq, Repr

/-- What a call of the handler did, and what it left in `eax` if it set it. -/
structure Reply where
  core : Core
  calls : List Call
  eax : Option Nat

def CORE_ERROR_NONE : Nat := 0

def CORE_ERROR_NO_MODULE : Nat := 1

def CORE_ERROR_NO_CMD : Nat := 2

section Handler

variable (run : Call → Core → Core)

/-- `allocF(size, &node->globalValues)`. -/
def callAllocF (c : Core) (size data : Nat) : Core × List Call :=
  match c.allocF with
  | .alloc => (alloc c size data, [])
  | .custom f => (run ⟨f, [size, data]⟩ c, [⟨f, [size, data]⟩])

/-- The commands of module 0, the core itself. -/
def coreCommand (c : Core) (CMD dataPtr : Nat) : Reply :=
  let id := load32 c.mem dataPtr
  let node := lookupID c id
  let address := c.idNodes (node - 1)
  let ptr := load32 c.mem (dataPtr + 4)
  match CMD with
  | 1 =>
      if node = 0 then ⟨c, [], some CORE_ERROR_NO_MODULE⟩
      else if globalValues c.mem address ≠ 0 then ⟨c, [], none⟩
      else
        let done := callAllocF run c ptr (address + 20)
        ⟨done.1, done.2, some CORE_ERROR_NONE⟩
  | 2 =>
      if node = 0 then ⟨c, [], some CORE_ERROR_NO_MODULE⟩
      else
        ⟨{ c with mem := store32 c.mem ptr (globalValues c.mem address) }, [],
          some CORE_ERROR_NONE⟩
  | 3 =>
      if node = 0 then ⟨c, [], some CORE_ERROR_NO_MODULE⟩
      else ⟨{ c with mem := store32 c.mem ptr (coreData address) }, [], some CORE_ERROR_NONE⟩
  | 4 => ⟨{ c with mem := store32 c.mem id c.memory }, [], some CORE_ERROR_NONE⟩
  | 5 => ⟨{ c with allocF := .custom id }, [], some CORE_ERROR_NONE⟩
  | _ => ⟨c, [], some CORE_ERROR_NO_CMD⟩

/-- `core_interrupt_handler`, with the four registers as arguments. -/
def coreInterruptHandler (c : Core) (ID CMD arsSize dataPtr : Nat) : Reply :=
  if ID = 0 then coreCommand run c CMD dataPtr
  else
    let node := lookupID c ID
    if node = 0 then ⟨c, [], some CORE_ERROR_NO_MODULE⟩
    else
      let address := c.idNodes (node - 1)
      if func c.mem address CMD = 0 then ⟨c, [], some CORE_ERROR_NO_CMD⟩
      else
        let h := coreData address
        let m := store32 c.mem (h + 8) arsSize
        let m := store32 m (h + 12) dataPtr
        let args := if globalValues c.mem address = 0 then [h] else [h, globalValues m address]
        let call := ⟨func m address CMD, args⟩
        ⟨run call { c with mem := m }, [call], some CORE_ERROR_NONE⟩

end Handler

/-! ### Walking the registry -/

/-- What a loop over the names pages does: it looks at the first character of a slot's
name, uses a slot, looks at `nextPage`, or goes on at a page. -/
inductive Event where
  | probe (page slot : Nat)
  | visit (page slot : Nat)
  | link (page : Nat)
  | follow (page : Nat)
deriving DecidableEq, Repr

/-! ### `setupLookupArray` -/

/-- The largest of -1 and the first `n` export ids, as `int`. -/
def maxID (m : Mem) (data : Nat) : Nat → Int
  | 0 => -1
  | s + 1 =>
      let id := int32 (exportID m data s)
      if maxID m data s < id then id else maxID m data s

/-- The loop that copies the export addresses into the node's table. -/
def fillFuncs (page i node : Nat) : Nat → Nat → Mem → Mem
  | 0, _, m => m
  | k + 1, s, m =>
      let data := slotData m page i
      if s < exportCount m data then
        let id := exportID m data s
        fillFuncs page i node k (s + 1) (store32 m (funcSlot node id) (exportFunc m data s))
      else m

/-- The fixed fields of a new node for the module in a slot. -/
def fillNode (m : Mem) (irt page i node : Nat) : Mem :=
  let m := store32 m node (beeID m (slotData m page i))
  let m := store32 m (node + 4) irt
  let m := store32 m (node + 8) (baseAddress m (slotData m page i))
  let m := store32 m (node + 12) 0
  let m := store32 m (node + 16) 0
  store32 m (node + 20) 0

/-- The body of the loop of `setupLookupArray`. -/
def setupNode (c : Core) (page i index : Nat) : Core :=
  let node := c.memory
  let m := fillNode c.mem c.irt page i node
  let data := slotData m page i
  let MAX_ID := maxID m data (exportCount m data)
  let m := zeroWords m (funcSlot node 0) MAX_ID.toNat
  let m := fillFuncs page i node (2 ^ 31) 0 m
  let m := store32 m (node + 24) (MAX_ID % 2 ^ 32).toNat
  { c with mem := m
           idNodes := Function.update c.idNodes index node
           memory := u32 (c.memory + ((MAX_ID + 1) * 4 + 28).toNat) }

/-- The loop over the last `k` of a page's slots. It also returns where it stopped. -/
def setupSlots (page depth : Nat) : Nat → Nat → Core → Nat × Core × List Event
  | 0, i, c => (i, c, [])
  | k + 1, i, c =>
      if firstChar c.mem page i = 0 then (i, c, [.probe page i])
      else
        let rest := setupSlots page depth k (i + 1) (setupNode c page i (depth + i))
        (rest.1, rest.2.1, .probe page i :: .visit page i :: rest.2.2)

def setupLookupArray : Nat → Core → Nat → Nat → Exec (Core × List Event)
  | 0, _, _, _ => .error .fuel
  | fuel + 1, c, page, depth =>
      let slots := setupSlots page depth 14 0 c
      let c := slots.2.1
      let events := slots.2.2
      if slots.1 < 14 then .ok (c, events)
      else
        let next := nextPage c.mem page
        if next = 0 then .ok (c, events ++ [.link page])
        else (setupLookupArray fuel c next (depth + 14)).map fun rest =>
          (rest.1, events ++ .link page :: .follow next :: rest.2)

/-! ### `run_inits` -/

section Inits

variable (run : Call → Core → Core)

/-- The call of a module's `initFunc` with the `CoreData` found by its id. -/
def initCall (c : Core) (page i : Nat) : Call :=
  let data := slotData c.mem page i
  let n := u32 (lookupID c (beeID c.mem data) + 2 ^ 32 - 1)
  ⟨initFunc c.mem data, [coreData (c.idNodes n)]⟩

/-- The loop `while` of `run_inits`, in the pass for priority `s`. -/
def initPass (s : Nat) : Nat → Core → Nat → Nat → Exec (Core × List Call × List Event)
  | 0, _, _, _ => .error .fuel
  | fuel + 1, c, cur, i =>
      if firstChar c.mem cur i = 0 then .ok (c, [], [.probe cur i])
      else
        let hit := priority c.mem (slotData c.mem cur i) = s
        let call := initCall c cur i
        let calls := if hit then [call] else []
        let c := if hit then run call c else c
        let i' := i + 1
        if i' = 14 then
          let next := nextPage c.mem cur
          if next = 0 then .ok (c, calls, [.probe cur i, .visit cur i, .link cur])
          else (initPass s fuel c next 0).map fun rest =>
            (rest.1, calls ++ rest.2.1,
              .probe cur i :: .visit cur i :: .link cur :: .follow next :: rest.2.2)
        else (initPass s fuel c cur i').map fun rest =>
          (rest.1, calls ++ rest.2.1, .probe cur i :: .visit cur i :: rest.2.2)

/-- The passes for the priorities from `s` on, `k` of them. -/
def initPasses (fuel page : Nat) : Nat → Nat → Core → Exec (Core × List Call)
  | 0, _, c => .ok (c, [])
  | k + 1, s, c => do
      let pass ← initPass run s fuel c page 0
      let rest ← initPasses fuel page k (s + 1) pass.1
      pure (rest.1, pass.2.1 ++ rest.2)

def runInits (fuel : Nat) (c : Core) (page : Nat) : Exec (Core × List Call) :=
  initPasses run fuel page 256 0 c

end Inits

/-! ### `list-bees` -/

/-- The loop of the command `list-bees`, two slots at a time. -/
def listBees (m : Mem) : Nat → Nat → Nat → Exec (List Event)
  | 0, _, _ => .error .fuel
  | fuel + 1, cur, s =>
      if s = 14 ∧ nextPage m cur = 0 then .ok [.link cur]
      else
        let moved := if s = 14 then [.link cur, .follow (nextPage m cur)] else []
        let cur := if s = 14 then nextPage m cur else cur
        let s := if s = 14 then 0 else s
        if firstChar m cur s = 0 then .ok (moved ++ [.probe cur s])
        else if firstChar m cur (s + 1) = 0 then
          .ok (moved ++ [.probe cur s, .visit cur s, .probe cur (s + 1)])
        else (listBees m fuel cur (s + 2)).map fun rest =>
          moved ++ [.probe cur s, .visit cur s, .probe cur (s + 1), .visit cur (s + 1)] ++ rest

end HiveRK.Queen
