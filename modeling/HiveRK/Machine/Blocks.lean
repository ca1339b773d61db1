import HiveRK.Machine.Memory

/-!
# Blocks of bytes

Loops that copy a block upwards, one byte after the other, and that fill a block. Two blocks
may overlap, and behind the last address comes the first.

A copy reads a byte that it has written if the destination begins inside the source. What it
copies from there on are the bytes in front of the destination, again and again.
-/

namespace Machine

def copyBytes (dst src : Nat) (m : Mem) (n : Nat) : Mem :=
  (List.range n).foldl (fun m i => Function.update m (u32 (dst + i)) (m (u32 (src + i)))) m

def fillBytes (a : Nat) (b : Byte) (m : Mem) (n : Nat) : Mem :=
  (List.range n).foldl (fun m i => Function.update m (u32 (a + i)) b) m

/-- The number of bytes from `src` up to `dst`. -/
def distance (src dst : Nat) : Nat := u32 (dst + (2 ^ 32 - u32 src))

section Blocks

variable {a dst src n i j x : Nat} {b : Byte} {m : Mem}

theorem distance_lt (src dst : Nat) : distance src dst < 2 ^ 32 := u32_lt _

theorem u32_distance (src dst j : Nat) : u32 (src + (distance src dst + j)) = u32 (dst + j) := by
  simp only [distance, u32]
  omega

theorem u32_add_inj (hi : i < 2 ^ 32) (hj : j < 2 ^ 32) : u32 (a + i) = u32 (a + j) ↔ i = j := by
  simp only [u32]
  omega

/-- A byte of the source is also one of the destination's. -/
theorem u32_src_iff (hi : i < 2 ^ 32) (hj : j < 2 ^ 32) :
    u32 (src + i) = u32 (dst + j) ↔
      i = distance src dst + j ∨ i + 2 ^ 32 = distance src dst + j := by
  have whole := distance_lt src dst
  rw [← u32_distance src dst j]
  simp only [u32]
  omega

theorem cells_succ : Cells a (n + 1) x ↔ Cells a n x ∨ x = u32 (a + n) := by
  rw [cells_add]
  refine or_congr Iff.rfl ⟨?_, fun same => ⟨0, Nat.zero_lt_one, same⟩⟩
  rintro ⟨i, one, rfl⟩
  rw [Nat.lt_one_iff.mp one, Nat.add_zero]

theorem copyBytes_succ (dst src : Nat) (m : Mem) (n : Nat) :
    copyBytes dst src m (n + 1) =
      Function.update (copyBytes dst src m n) (u32 (dst + n))
        (copyBytes dst src m n (u32 (src + n))) := by
  rw [copyBytes, List.range_succ, List.foldl_append]
  rfl

theorem fillBytes_succ (a : Nat) (b : Byte) (m : Mem) (n : Nat) :
    fillBytes a b m (n + 1) = Function.update (fillBytes a b m n) (u32 (a + n)) b := by
  rw [fillBytes, List.range_succ, List.foldl_append]
  rfl

theorem fillBytes_apply (a : Nat) (b : Byte) (m : Mem) (n x : Nat) :
    fillBytes a b m n x = if Cells a n x then b else m x := by
  induction n with
  | zero => exact (if_neg fun ⟨i, inside, _⟩ => absurd inside (Nat.not_lt_zero i)).symm
  | succ n ih =>
      rw [fillBytes_succ]
      by_cases here : x = u32 (a + n)
      · rw [if_pos (cells_succ.mpr (.inr here)), here, Function.update_self]
      · rw [Function.update_of_ne here, ih]
        exact if_congr (by rw [cells_succ, or_iff_left here]) rfl rfl

theorem copyBytes_off (dst src : Nat) (m : Mem) (off : ¬ Cells dst n x) :
    copyBytes dst src m n x = m x := by
  induction n with
  | zero => rfl
  | succ n ih =>
      rw [cells_succ, not_or] at off
      rw [copyBytes_succ, Function.update_of_ne off.2, ih off.1]

/-- What a copy leaves in its destination. -/
theorem copyBytes_at (dst src : Nat) (m : Mem) (whole : n ≤ 2 ^ 32) (inside : i < n) :
    copyBytes dst src m n (u32 (dst + i)) = m (u32 (src + i % distance src dst)) := by
  induction n generalizing i with
  | zero => exact absurd inside (Nat.not_lt_zero i)
  | succ n ih =>
      rw [copyBytes_succ]
      obtain before | rfl := Nat.lt_succ_iff_lt_or_eq.mp inside
      · have other : u32 (dst + i) ≠ u32 (dst + n) := by
          rw [Ne, u32_add_inj (by omega) (by omega)]
          exact Nat.ne_of_lt before
        rw [Function.update_of_ne other, ih (by omega) before]
      · rw [Function.update_self]
        by_cases written : Cells dst i (u32 (src + i))
        · -- The byte has been copied `distance src dst` rounds ago.
          obtain ⟨j, earlier, same⟩ := written
          have far := (u32_src_iff (by omega) (by omega)).mp same
          have near := distance_lt src dst
          obtain rfl : i = distance src dst + j := by omega
          rw [same, ih (by omega) earlier, Nat.add_mod_left]
        · have first : distance src dst = 0 ∨ i < distance src dst := by
            by_contra late
            obtain ⟨some, past⟩ := not_or.mp late
            refine written ⟨i - distance src dst, by omega, ?_⟩
            rw [u32_src_iff (by omega) (by omega)]
            omega
          rw [copyBytes_off dst src m written]
          obtain here | short := first
          · rw [here, Nat.mod_zero]
          · rw [Nat.mod_eq_of_lt short]

/-- A copy delivers its source, whatever is in it, unless the destination begins inside. -/
theorem copyBytes_delivers_iff (whole : n ≤ 2 ^ 32) :
    (∀ m, ∀ i < n, copyBytes dst src m n (u32 (dst + i)) = m (u32 (src + i))) ↔
      distance src dst = 0 ∨ n ≤ distance src dst := by
  constructor
  · intro delivers
    by_contra inside
    obtain ⟨some, past⟩ := not_or.mp inside
    have short : distance src dst < n := Nat.lt_of_not_le past
    let marked : Mem := Function.update (fun _ => 0) (u32 src) 1
    have first : marked (u32 (src + 0)) = 1 := Function.update_self _ _ _
    have other : u32 (src + distance src dst) ≠ u32 (src + 0) := by
      rwa [Ne, u32_add_inj (distance_lt src dst) (by decide)]
    have later : marked (u32 (src + distance src dst)) = 0 := Function.update_of_ne other _ _
    have read := delivers marked _ short
    rw [copyBytes_at dst src marked whole short, Nat.mod_self, first, later] at read
    exact absurd read (by decide)
  · intro apart m i hi
    rw [copyBytes_at dst src m whole hi]
    obtain here | far := apart
    · rw [here, Nat.mod_zero]
    · rw [Nat.mod_eq_of_lt (Nat.lt_of_lt_of_le hi far)]

end Blocks

end Machine
