import HiveRK.Bees.Display.Basic
import HiveRK.Terminal.Basic

/-!
# The screen

What the functions of the display do to the cells of the screen, to the cell at which the
cursor stands, and to the list of written addresses. Stores of cells do not move the cursor,
and the cursor registers are no cells.
-/

namespace HiveRK.Display

open Machine

section Cursor

variable {d : Vga}

/-- The cell at which the hardware cursor stands. -/
def cell (d : Vga) : Nat := (d.crtc VGA_OFFSET_HIGH).toNat * 256 + (d.crtc VGA_OFFSET_LOW).toNat

/-- Reading the cursor selects a register. -/
theorem getCursor_eq (d : Vga) :
    getCursor d = ({ d with index := VGA_OFFSET_LOW }, ((2 * cell d : Nat) : Int)) := by
  have offset : ((2 * cell d : Nat) : Int) = (((d.crtc VGA_OFFSET_HIGH).toNat <<< 8 +
      (d.crtc VGA_OFFSET_LOW).toNat : Nat) : Int) * 2 := by
    rw [cell, Nat.shiftLeft_eq]
    omega
  rw [offset]
  rfl

/-- The registers take the low 16 bits of half an even offset. -/
theorem cell_setCursor (d : Vga) (n : Int) :
    cell (setCursor d (2 * n)) = (n % 65536).toNat := by
  have half : (if 2 * n ≠ 0 then (2 * n).tdiv 2 else 2 * n) = n := by
    split_ifs with h
    · exact Int.mul_tdiv_cancel_left n (by decide)
    · omega
  have other : VGA_OFFSET_HIGH ≠ VGA_OFFSET_LOW := by decide
  have port : VGA_DATA_REGISTER ≠ VGA_CTRL_REGISTER := by decide
  simp only [setCursor, half, cell, outb, if_true, if_neg port, Function.update_self,
    Function.update_of_ne other, BitVec.toNat_ofInt, Int.shiftRight_eq_div_pow]
  omega

@[simp] theorem setCursor_mem (d : Vga) (offset : Int) : (setCursor d offset).mem = d.mem := rfl

@[simp] theorem cell_poke (d : Vga) (offset : Int) (v : Byte) : cell (poke d offset v) = cell d :=
  rfl

end Cursor

/-! ### Stores -/

section Stores

variable {d d' d'' : Vga}

/-- The bytes of the text buffer. -/
def OnScreen (a : Nat) : Prop := VIDEO_ADDRESS ≤ a ∧ a < VIDEO_ADDRESS + 4000

theorem vidmem_eq {n : Nat} (h : n < 4000) : vidmem n = VIDEO_ADDRESS + n := by
  simp only [vidmem, VIDEO_ADDRESS]
  omega

theorem onScreen_vidmem {n : Nat} (h : n < 4000) : OnScreen (vidmem n) := by
  rw [vidmem_eq h]
  exact ⟨Nat.le_add_right _ n, Nat.add_lt_add_left h _⟩

/-- All bytes that were written on the way from `d` to `d'` are on the screen. -/
def Wrote (d d' : Vga) : Prop := ∀ a ∈ d'.written, a ∈ d.written ∨ OnScreen a

theorem Wrote.refl (d : Vga) : Wrote d d := fun _ ha => .inl ha

theorem Wrote.trans (h : Wrote d d') (h' : Wrote d' d'') : Wrote d d'' :=
  fun a ha => (h' a ha).elim (h a) .inr

theorem Wrote.poke (h : Wrote d d') {n : Nat} (hn : n < 4000) (v : Byte) :
    Wrote d (poke d' n v) := by
  intro a ha
  obtain rfl | ha := List.mem_cons.mp ha
  · exact .inr (onScreen_vidmem hn)
  · exact h a ha

theorem Wrote.setCursor (h : Wrote d d') (offset : Int) : Wrote d (setCursor d' offset) := h

theorem peek_poke {n k : Nat} (hn : n < 4000) (hk : k < 4000) (v : Byte) :
    peek (poke d n v) k = if k = n then v else peek d k := by
  simp only [peek, poke, Function.update_apply, vidmem_eq hn, vidmem_eq hk, Nat.add_left_cancel_iff]

/-- The two bytes of the `n`-th cell. -/
def cellAt (d : Vga) (n : Nat) : Byte × Byte := (peek d (2 * n : Nat), peek d (2 * n + 1 : Nat))

def blank : Byte × Byte := (0x20, BitVec.ofInt 8 DEFAULT_COLOR)

theorem cellAt_setCursor (d : Vga) (offset : Int) (n : Nat) :
    cellAt (setCursor d offset) n = cellAt d n := rfl

/-- Both bytes of a cell are stored. -/
theorem cellAt_poke {n k : Nat} (hn : n < 2000) (hk : k < 2000) (ch color : Byte) :
    cellAt (poke (poke d (2 * n : Nat) ch) (2 * n + 1 : Nat) color) k =
      if k = n then (ch, color) else cellAt d k := by
  simp (disch := omega) only [cellAt, peek_poke]
  by_cases same : k = n
  · subst same
    simp only [if_true, if_neg (show 2 * k ≠ 2 * k + 1 by omega)]
  · simp only [if_neg same, if_neg (show 2 * k ≠ 2 * n + 1 by omega),
      if_neg (show 2 * k ≠ 2 * n by omega), if_neg (show 2 * k + 1 ≠ 2 * n + 1 by omega),
      if_neg (show 2 * k + 1 ≠ 2 * n by omega)]

theorem setChar_cell {n : Nat} (d : Vga) (ch : Byte) (color : Int) :
    setChar d ch (2 * n : Nat) color =
      poke (poke d (2 * n : Nat) ch) (2 * n + 1 : Nat) (colorByte color) := by
  have even : ((2 * n : Nat) : Int).tmod 2 = 0 := by
    rw [Int.tmod_eq_emod_of_nonneg (Int.natCast_nonneg _)]
    omega
  rw [setChar, if_neg (by rw [even]; exact fun h => h rfl)]
  rfl

/-! ### Loops over cells -/

/-- A loop that stores blanks from cell `first` on. -/
theorem blankLoop_spec {first k : Nat} (room : first + k ≤ 2000) (d : Vga) :
    let d' := (List.range k).foldl (fun d s =>
      poke (poke d (2 * (first + s) : Nat) 0x20) (2 * (first + s) + 1 : Nat)
        (BitVec.ofInt 8 DEFAULT_COLOR)) d
    cell d' = cell d ∧ Wrote d d' ∧
      ∀ n < 2000, cellAt d' n = if first ≤ n ∧ n < first + k then blank else cellAt d n := by
  induction k with
  | zero => exact ⟨rfl, .refl d, fun n _ => (if_neg (by omega)).symm⟩
  | succ k ih =>
      obtain ⟨same, wrote, cells⟩ := ih (by omega)
      rw [List.range_succ, List.foldl_append, List.foldl_cons, List.foldl_nil]
      refine ⟨same, (wrote.poke (by omega) _).poke (by omega) _, fun n hn => ?_⟩
      rw [cellAt_poke (by omega) hn, cells n hn]
      by_cases last : n = first + k
      · rw [if_pos last, if_pos (by omega)]
        rfl
      · rw [if_neg last]
        congr 1
        apply propext
        omega

/-- The first loop of `shiftUp`. Every byte is read before it is overwritten. -/
theorem copyLoop_spec {k : Nat} (room : k ≤ 3840) (d : Vga) :
    let d' := (List.range k).foldl (fun d s => poke d (s : Nat) (peek d (s + 160 : Nat))) d
    cell d' = cell d ∧ Wrote d d' ∧
      ∀ n < 4000, peek d' (n : Nat) =
        if n < k then peek d (n + 160 : Nat) else peek d (n : Nat) := by
  induction k with
  | zero => exact ⟨rfl, .refl d, fun n _ => (if_neg (Nat.not_lt_zero n)).symm⟩
  | succ k ih =>
      obtain ⟨same, wrote, bytes⟩ := ih (by omega)
      rw [List.range_succ, List.foldl_append, List.foldl_cons, List.foldl_nil]
      refine ⟨same, wrote.poke (by omega) _, fun n hn => ?_⟩
      rw [peek_poke (by omega) hn, bytes n hn, bytes (k + 160) (by omega)]
      by_cases last : n = k
      · rw [if_pos last, if_neg (by omega), if_pos (by omega), last]
      · rw [if_neg last]
        congr 1
        apply propext
        omega

/-- The rows move up by one, and the last one becomes blank. -/
theorem shiftUp_spec (d : Vga) : cell (shiftUp d) = cell d ∧ Wrote d (shiftUp d) ∧
    ∀ n < 2000, cellAt (shiftUp d) n = if n < 1920 then cellAt d (n + 80) else blank := by
  have offsets (s : Nat) :
      (s : Int) * 2 + MAX_ROWS * MAX_COLS * 2 - MAX_COLS * 2 = (2 * (1920 + s) : Nat) ∧
      (s : Int) * 2 + 1 + MAX_ROWS * MAX_COLS * 2 - MAX_COLS * 2 = (2 * (1920 + s) + 1 : Nat) := by
    simp only [MAX_ROWS, MAX_COLS]
    omega
  obtain ⟨same, wrote, bytes⟩ := copyLoop_spec (Nat.le_refl 3840) d
  simp only [shiftUp, offsets]
  obtain ⟨same', wrote', cells⟩ := blankLoop_spec (show 1920 + 80 ≤ 2000 by decide)
    ((List.range 3840).foldl (fun d s => poke d (s : Nat) (peek d (s + 160 : Nat))) d)
  refine ⟨same'.trans same, wrote.trans wrote', fun n hn => (cells n hn).trans ?_⟩
  by_cases low : n < 1920
  · rw [if_neg (by omega), if_pos low, cellAt, bytes _ (by omega), bytes _ (by omega),
      if_pos (by omega), if_pos (by omega), cellAt, show 2 * n + 160 = 2 * (n + 80) by omega,
      show 2 * n + 1 + 160 = 2 * (n + 80) + 1 by omega]
  · rw [if_pos (by omega), if_neg low]

theorem clear_spec (d : Vga) : cell (clear d) = 0 ∧ Wrote d (clear d) ∧
    ∀ n < 2000, cellAt (clear d) n = blank := by
  have offsets (i : Nat) : (i : Int) * 2 = (2 * (0 + i) : Nat) ∧
      (i : Int) * 2 + 1 = (2 * (0 + i) + 1 : Nat) := by
    omega
  obtain ⟨_, wrote, cells⟩ := blankLoop_spec (show 0 + 2000 ≤ 2000 by decide) d
  have filled : (List.range (MAX_COLS * MAX_ROWS)).foldl (fun d (i : Nat) =>
      poke (poke d (i * 2) 0x20) (i * 2 + 1) (BitVec.ofInt 8 DEFAULT_COLOR)) d =
      (List.range 2000).foldl (fun d s => poke (poke d (2 * (0 + s) : Nat) 0x20)
        (2 * (0 + s) + 1 : Nat) (BitVec.ofInt 8 DEFAULT_COLOR)) d := by
    simp only [offsets]
    rfl
  rw [clear, filled]
  refine ⟨cell_setCursor _ 0, wrote.setCursor 0, fun n hn => ?_⟩
  rw [cellAt_setCursor, cells n hn, if_pos (by omega)]

end Stores

/-! ### One character -/

section PrintChar

variable {d : Vga} {ch : Byte} {color : Int}

/-- The screen and the cell with which `printChar` goes on: a full screen is moved first. -/
def settle (d : Vga) : Vga × Nat :=
  if cell d < 2000 then ({ d with index := VGA_OFFSET_LOW }, cell d)
  else (shiftUp { d with index := VGA_OFFSET_LOW }, cell d - 80)

theorem printChar_eq (d : Vga) (ch : Byte) (color : Int) : printChar d ch color =
    let (d, c) := settle d
    if ch = newline then setCursor d (2 * ((c / 80 + 1) * 80 : Nat))
    else if ch = backspace then setCursor (setChar d 0x20 (2 * (c - 1)) color) (2 * (c - 1))
    else setCursor (setChar d ch (2 * c : Nat) color) (2 * (c + 1)) := by
  have full : ((2 * cell d : Nat) : Int) ≥ (MAX_ROWS : Int) * MAX_COLS * 2 ↔ ¬ cell d < 2000 := by
    simp only [MAX_ROWS, MAX_COLS]
    omega
  have row (c : Nat) : ((2 * c : Nat) : Int) + MAX_COLS * 2 -
      (((2 * c : Nat) : Int) + MAX_COLS * 2).tmod (2 * MAX_COLS) =
        2 * ((c / 80 + 1) * 80 : Nat) := by
    rw [Int.tmod_eq_emod_of_nonneg (by omega)]
    simp only [MAX_COLS]
    omega
  have back (c : Nat) : ((2 * c : Nat) : Int) - 2 = 2 * ((c : Int) - 1) := by omega
  have next (c : Nat) : ((2 * c : Nat) : Int) + 2 = 2 * ((c : Int) + 1) := by omega
  have moved : ¬ cell d < 2000 →
      ((2 * cell d : Nat) : Int) - 2 * MAX_COLS = (2 * (cell d - 80) : Nat) := by
    intro h
    simp only [MAX_COLS]
    omega
  simp only [printChar, getCursor_eq, full, settle]
  by_cases room : cell d < 2000
  · simp only [room, not_true_eq_false, if_false, if_true, row, back, next]
  · simp only [room, not_false_eq_true, if_false, if_true, moved room, row, back, next]

/-- The cell is on the screen, unless the cursor was far behind it. -/
theorem settle_spec (inside : cell d ≤ 2000) :
    (settle d).2 < 2000 ∧ (settle d).2 = (if cell d < 2000 then cell d else cell d - 80) ∧
      Wrote d (settle d).1 := by
  rw [settle]
  split_ifs with room
  · exact ⟨room, rfl, .refl d⟩
  · obtain ⟨_, wrote, _⟩ := shiftUp_spec { d with index := VGA_OFFSET_LOW }
    exact ⟨by simp only; omega, rfl, wrote⟩

/-- Where the cursor goes from a cell. -/
def nextCell (c : Nat) (ch : Byte) : Nat :=
  let c := if c < 2000 then c else c - 80
  if ch = newline then (c / 80 + 1) * 80 else if ch = backspace then c - 1 else c + 1

theorem nextCell_le {c : Nat} (inside : c ≤ 2000) (ch : Byte) : nextCell c ch ≤ 2000 := by
  simp only [nextCell]
  split_ifs <;> omega

/-- A character that is no backspace on the first cell stays on the screen. -/
theorem printChar_next (color : Int) (inside : cell d ≤ 2000)
    (stays : ch = backspace → cell d ≠ 0) :
    cell (printChar d ch color) = nextCell (cell d) ch ∧ Wrote d (printChar d ch color) := by
  obtain ⟨room, place, wrote⟩ := settle_spec inside
  have first : (settle d).2 = 0 → cell d = 0 := by
    intro h
    split_ifs at place <;> omega
  rw [printChar_eq, nextCell, ← place]
  generalize settle d = s at *
  by_cases hnl : ch = newline
  · simp only [if_pos hnl]
    refine ⟨?_, wrote.setCursor _⟩
    rw [cell_setCursor]
    omega
  · by_cases hbs : ch = backspace
    · have back : (2 * ((s.2 : Int) - 1)) = 2 * ((s.2 - 1 : Nat) : Int) := by
        have zero := mt first (stays hbs)
        omega
      simp only [if_neg hnl, if_pos hbs, back]
      refine ⟨?_, ?_⟩
      · rw [cell_setCursor]
        omega
      · rw [show 2 * ((s.2 - 1 : Nat) : Int) = (2 * (s.2 - 1) : Nat) by omega, setChar_cell]
        exact ((wrote.poke (by omega) _).poke (by omega) _).setCursor _
    · simp only [if_neg hnl, if_neg hbs]
      refine ⟨?_, ?_⟩
      · rw [cell_setCursor]
        omega
      · rw [setChar_cell]
        exact ((wrote.poke (by omega) _).poke (by omega) _).setCursor _

end PrintChar

end HiveRK.Display
