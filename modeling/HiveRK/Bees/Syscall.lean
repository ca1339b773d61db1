import HiveRK.Queen.Dispatcher
import HiveRK.Queen.Loader

/-!
# System calls

`bees/beeUtil.h`: the macro `syscall` builds the array of its arguments on the stack and
calls an address, with the id, the command, 0 and the array in the four registers. Modules
take the address from their `CoreData` or from the word that `main` publishes.
-/

namespace HiveRK

open Machine Queen

/-- `uint32_t __args[] = { ... }`, at `a`. -/
def putArgs : Mem → Nat → List Nat → Mem
  | m, _, [] => m
  | m, a, arg :: args => putArgs (store32 m a arg) (a + 4) args

def getCoreIRT (m : Mem) : Nat := load32 m CORE_GLOBAL_MEMORY

/-- `syscall(addr, ID, CMD, ...)` with its array at `stack`. -/
def syscall (run : Call → Core → Core) (c : Core) (addr stack ID CMD : Nat) (args : List Nat) :
    Core :=
  let c := { c with mem := putArgs c.mem stack args }
  if addr = u32 c.irt then (coreInterruptHandler run c ID CMD 0 stack).core else run ⟨addr, []⟩ c

theorem putArgs_written (args : List Nat) {m : Mem} {a : Nat}
    (fits : a + 4 * args.length ≤ 2 ^ 32) :
    WritesWithin m (putArgs m a args) a (4 * args.length) := by
  induction args generalizing m a with
  | nil => exact WritesWithin.refl m a 0
  | cons arg args ih =>
      rw [List.length_cons] at fits ⊢
      have first : WritesWithin m (store32 m a arg) a (4 * (args.length + 1)) :=
        .store (by omega) (Nat.le_refl a) (by omega)
      exact first.trans ((ih (by omega)).mono (by omega) (by omega))

/-- The callee reads the arguments in their order. -/
theorem load_putArgs (args : List Nat) {m : Mem} {a i : Nat} (fits : a + 4 * args.length ≤ 2 ^ 32)
    (hi : i < args.length) (word : args[i] < 2 ^ 32) :
    load32 (putArgs m a args) (a + 4 * i) = args[i] := by
  induction args generalizing m a i with
  | nil => exact absurd hi (by simp)
  | cons arg args ih =>
      rw [List.length_cons] at fits hi
      rw [putArgs]
      cases i with
      | zero =>
          have behind : WritesWithin (store32 m a arg) (putArgs (store32 m a arg) (a + 4) args)
              (a + 4) (4 * args.length) := putArgs_written _ (by omega)
          exact (behind.load (by omega) (.inl (by omega))).trans (load_store_self m (by omega) word)
      | succ i =>
          have rest := @ih (store32 m a arg) (a + 4) i (by omega) (by omega) word
          rw [show a + 4 * (i + 1) = a + 4 + 4 * i by omega, rest]
          rfl

section Syscall

variable {run : Call → Core → Core} {c : Core} {addr stack ID CMD : Nat} {args : List Nat}

/-- At the core's own address the macro is a call of the dispatcher. -/
theorem syscall_core (here : addr = u32 c.irt) :
    syscall run c addr stack ID CMD args =
      (coreInterruptHandler run { c with mem := putArgs c.mem stack args } ID CMD 0 stack).core :=
  if_pos here

end Syscall

end HiveRK
