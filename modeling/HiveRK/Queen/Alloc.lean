import HiveRK.Queen.Node

/-!
# The bump allocator

`alloc` hands out the bytes at `MEMORY`. Its loop clears words where it should clear bytes,
so it also clears three times the size behind what it hands out.
-/

namespace HiveRK.Queen

open Machine

theorem zeroWords_zero {m : Mem} {a n x : Nat} (h : Cells a (4 * n) x) :
    zeroWords m a n x = 0 := by
  induction n with
  | zero =>
      obtain ⟨i, hi, _⟩ := h
      omega
  | succ n ih =>
      rw [zeroWords]
      by_cases last : Cells (a + 4 * n) 4 x
      · exact store_zero last
      · rw [Nat.mul_succ, cells_add] at h
        exact (store_off last).trans (ih (h.resolve_right last))

theorem zeroWords_off {m : Mem} {a n x : Nat} (h : ¬ Cells a (4 * n) x) :
    zeroWords m a n x = m x := by
  induction n with
  | zero => rfl
  | succ n ih =>
      rw [Nat.mul_succ, cells_add, not_or] at h
      exact (store_off h.2).trans (ih h.1)

/-- `alloc` returns the old bump pointer in `*data` and clears what it hands out. Nothing
changes but `*data` and the bytes that it clears. -/
theorem alloc_spec {c : Core} {size data : Nat} (below : data + 4 ≤ c.memory)
    (fits : c.memory + 4 * size < 2 ^ 32) :
    ∃ m, alloc c size data = { c with mem := m, memory := c.memory + size } ∧
      load32 m data = c.memory ∧
      (∀ x, c.memory ≤ x → x < c.memory + 4 * size → m x = 0) ∧
      WritesOnly (fun x => data ≤ x ∧ x < data + 4 ∨ c.memory ≤ x ∧ x < c.memory + 4 * size)
        c.mem m := by
  have cleared : WritesWithin (store32 c.mem data c.memory)
      (zeroWords (store32 c.mem data c.memory) c.memory size) c.memory (4 * size) :=
    zeroWords_written _ (by omega)
  refine ⟨zeroWords (store32 c.mem data c.memory) c.memory size, ?_, ?_, ?_, ?_⟩
  · rw [alloc, u32_of_lt (by omega)]
  · refine (cleared.load (by omega) (.inl below)).trans (load_store_self _ (by omega) ?_)
    show c.memory < 2 ^ 32
    omega
  · exact fun x lo hi => zeroWords_zero ((cells_iff (by omega)).mpr ⟨lo, hi⟩)
  · intro x hx
    rw [cleared x (by omega)]
    exact store_outside (by omega) (by omega)

/-! ### What is touched -/

/-- `alloc` puts the old `MEMORY` into `*data`, clears the `size` bytes that it hands out, and
advances `MEMORY` by `size`. It touches nothing else. -/
structure Grants (c c' : Core) (size data : Nat) : Prop where
  stored : load32 c'.mem data = c.memory
  zeroed : ∀ x, Cells c.memory size x → c'.mem x = 0
  advanced : c'.memory = u32 (c.memory + size)
  kept : ∀ x, ¬ Cells c.memory size x → ¬ Cells data 4 x → c'.mem x = c.mem x

/-- `alloc` touches only what it hands out if and only if, once `*data` is set, the bytes that the
loop clears besides are 0 already: those behind what is handed out, and those of `*data`. -/
theorem alloc_grants_iff {c : Core} {size data : Nat} (low : c.memory < 2 ^ 32) :
    Grants c (alloc c size data) size data ↔
      ∀ x, Cells c.memory (4 * size) x → ¬ Cells c.memory size x ∨ Cells data 4 x →
        store32 c.mem data c.memory x = 0 := by
  obtain ⟨m, hm⟩ : ∃ m, store32 c.mem data c.memory = m := ⟨_, rfl⟩
  have result : alloc c size data =
      { c with mem := zeroWords m c.memory size, memory := u32 (c.memory + size) } := by
    rw [alloc, hm]
  have word : load32 m data = c.memory := by
    rw [← hm]
    exact (load_store c.mem data c.memory (by decide)).trans (Nat.mod_eq_of_lt low)
  have other : ∀ x, ¬ Cells data 4 x → m x = c.mem x := by
    intro x off
    rw [← hm]
    exact store_off off
  rw [result, hm]
  constructor
  · intro grants x cleared outside
    have zero : zeroWords m c.memory size x = 0 := zeroWords_zero cleared
    by_cases inWord : Cells data 4 x
    · obtain ⟨i, hi, rfl⟩ := inWord
      rw [← zero]
      exact eq_of_load_eq (word.trans grants.stored.symm) hi
    · rw [other x inWord, ← zero]
      exact (grants.kept x (outside.resolve_right inWord) inWord).symm
  · intro already
    have same : ∀ x, ¬ Cells c.memory size x ∨ Cells data 4 x →
        zeroWords m c.memory size x = m x := by
      intro x outside
      by_cases cleared : Cells c.memory (4 * size) x
      · rw [zeroWords_zero cleared, already x cleared outside]
      · exact zeroWords_off cleared
    refine ⟨?_, fun x granted => ?_, rfl, fun x off offWord => ?_⟩
    · exact (load_congr fun i hi => same _ (.inr ⟨i, hi, rfl⟩)).trans word
    · exact zeroWords_zero (granted.mono (by omega))
    · exact (same x (.inl off)).trans (other x offWord)

theorem alloc_grants_iff_empty :
    Grants emptyCore (alloc emptyCore 2 0x5000) 2 0x5000 := by
  refine (alloc_grants_iff (by decide)).mpr fun x cleared _ => ?_
  have inside := (cells_iff (by decide)).mp cleared
  have memory : emptyCore.memory = 0x4000 := rfl
  rw [memory] at inside
  exact store_outside (by decide) (.inl (by omega))

/-- A core with a 1 behind the one byte that is asked for. -/
def dirtyCore : Core := { emptyCore with mem := fun x => if x = 0x4001 then 1 else 0 }

theorem alloc_clears_more : ¬ Grants dirtyCore (alloc dirtyCore 1 0x5000) 1 0x5000 := by
  intro grants
  have kept := grants.kept 0x4001 (by decide) (by decide)
  exact absurd kept (by decide)

end HiveRK.Queen
