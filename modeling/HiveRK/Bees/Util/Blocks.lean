import HiveRK.Machine.Blocks

/-!
# `memcpy` and `memset`

`bees/util/util.c`: both commands are a loop over single bytes, from the first one to the last.
-/

namespace HiveRK.Util

open Machine

/-- `args[i]`, where `core->ptr` is the address of the array. -/
def arg (m : Mem) (core i : Nat) : Nat := load32 m (load32 m (core + 12) + 4 * i)

def memcpy (m : Mem) (core : Nat) : Mem :=
  let dst := arg m core 0
  let src := arg m core 1
  let size := arg m core 2
  copyBytes dst src m size

def memset (m : Mem) (core : Nat) : Mem :=
  let ptr := arg m core 0
  let value := BitVec.ofNat 8 (arg m core 1)
  let size := arg m core 2
  fillBytes ptr value m size

theorem arg_le (m : Mem) (core i : Nat) : arg m core i ≤ 2 ^ 32 := Nat.le_of_lt (load32_lt m _)

theorem memset_apply (m : Mem) (core x : Nat) :
    memset m core x = if Cells (arg m core 0) (arg m core 2) x then BitVec.ofNat 8 (arg m core 1)
      else m x :=
  fillBytes_apply _ _ m _ x

/-- `memcpy` writes its destination only. A byte of it is the byte of the source at the same
index, and if the destination begins inside the source, at that index modulo their distance. -/
theorem memcpy_apply (m : Mem) (core : Nat) :
    (∀ i < arg m core 2, memcpy m core (u32 (arg m core 0 + i)) =
      m (u32 (arg m core 1 + i % distance (arg m core 1) (arg m core 0)))) ∧
    ∀ x, ¬ Cells (arg m core 0) (arg m core 2) x → memcpy m core x = m x :=
  ⟨fun _ inside => copyBytes_at _ _ m (arg_le m core 2) inside,
    fun _ off => copyBytes_off _ _ m off⟩

end HiveRK.Util
