import HiveRK.Bees.Memory.Runs
import HiveRK.Bees.Syscall
import HiveRK.Queen.Setup

/-!
# The memory manager as a module

The functions of `bees/memory/memory.c` as the core enters them: `kmalloc` and `kfree` are
the commands 1 and 2 of module 7, and `core_alloc` is the function that `bee_init` puts in
the place of the bump allocator. It answers with a call of the core in turn.
-/

namespace HiveRK.Memory

open Machine Queen

/-- Where the module was loaded, and where its functions were linked. -/
structure Code where
  base : Nat
  kmalloc : Nat
  kfree : Nat
  coreAlloc : Nat

/-- The address of a function of the module. -/
def Code.adr (code : Code) (func : Nat) : Nat := u32 (code.base + func)

/-- The commands of the module, with the `CoreData` and the storage as arguments. A call
that does not return leaves the core as it is; `kmalloc_step` and `kfree_step` say that all
legal calls return. -/
def command (code : Code) (call : Call) (c : Core) : Core :=
  match call.args with
  | [core, global] =>
      let result :=
        if call.target = code.adr code.kmalloc then kmallocCommand passFuel c.mem core global
        else if call.target = code.adr code.kfree then kfreeCommand passFuel c.mem core global
        else .ok c.mem
      match result with
      | .ok m => { c with mem := m }
      | .error _ => c
  | _ => c

/-- `core_alloc(size, data)`, with its argument array at `stack`. -/
def coreAlloc (code : Code) (stack size data : Nat) (c : Core) : Core :=
  syscall (command code) c (getCoreIRT c.mem) stack 7 1 [size, data]

/-- Every function that the core enters. Those of other modules do nothing here: what they
do is a sequence of further calls and writes. -/
def enter (code : Code) (stack : Nat) (call : Call) (c : Core) : Core :=
  match call.args with
  | [size, data] =>
      if call.target = code.adr code.coreAlloc then coreAlloc code stack size data c
      else command code call c
  | _ => command code call c

/-- `bee_init(core)`. Its argument arrays are at `stack`, its variable `global` at `slot`. -/
def beeInit (code : Code) (c : Core) (core stack slot : Nat) : Core :=
  let irt := load32 c.mem core
  let c := syscall (enter code stack) c irt stack 0 1 [7, 4]
  let c := syscall (enter code stack) c irt stack 0 2 [7, slot]
  let global := load32 c.mem slot
  let c := syscall (enter code stack) c irt stack 0 4 [global]
  let c := { c with mem := initHeap c.mem global }
  syscall (enter code stack) c irt stack 0 5 [u32 (load32 c.mem (core + 4) + code.coreAlloc)]

section Commands

variable {code : Code} {c : Core} {core global args : Nat} {r : Mem × Nat}

/-- A served call of `kmalloc` stores its result where the caller asked for it. -/
theorem command_kmalloc (read : load32 c.mem (core + 12) = args)
    (call : kmalloc passFuel c.mem global (load32 c.mem args) = .ok r) :
    command code ⟨code.adr code.kmalloc, [core, global]⟩ c =
      { c with mem := store32 r.1 (load32 c.mem (args + 4)) r.2 } := by
  simp only [command, if_pos, kmallocCommand, read, call, Except.map]

theorem command_kfree (other : code.adr code.kfree ≠ code.adr code.kmalloc) {m : Mem}
    (read : load32 c.mem (core + 12) = args)
    (call : kfree passFuel c.mem global (load32 c.mem args) = .ok m) :
    command code ⟨code.adr code.kfree, [core, global]⟩ c = { c with mem := m } := by
  simp only [command, if_neg other, if_pos, kfreeCommand, read, call]

theorem enter_other {call : Call} (other : call.target ≠ code.adr code.coreAlloc) (stack : Nat)
    (c : Core) : enter code stack call c = command code call c := by
  unfold enter
  split
  · rw [if_neg other]
  · rfl

theorem enter_coreAlloc (stack size data : Nat) (c : Core) :
    enter code stack ⟨code.adr code.coreAlloc, [size, data]⟩ c = coreAlloc code stack size data c :=
  if_pos rfl

/-- Functions of other modules are not the manager's commands. -/
theorem command_other {call : Call} (first : call.target ≠ code.adr code.kmalloc)
    (second : call.target ≠ code.adr code.kfree) (c : Core) : command code call c = c := by
  unfold command
  split
  · simp only [if_neg first, if_neg second]
  · rfl

end Commands

end HiveRK.Memory
