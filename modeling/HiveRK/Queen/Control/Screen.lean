import HiveRK.Canvas.Basic
import HiveRK.Machine.Blocks
import HiveRK.Queen.Control.Commands
import HiveRK.Queen.Control.Decimal

/-!
# The screen of the core

`queen/main.c` writes to the video memory without the display module: 25 rows of 80 cells, each
a character and its color. `SYSprint` begins a new row at a `\n` and knows no end of a row or of
the screen. Strings are read from memory while they are printed.
-/

namespace HiveRK.Control

open Machine Util Canvas Numeral
open Display (TextAt)

/-- `0xb8000`. -/
def vidmem : Nat := 0xb8000

def sysClear (m : Mem) : Mem := fillBytes vidmem 0 m 4000

/-- The color with its digits exchanged. -/
def swapped (color : Byte) : Byte := (color >>> 4 &&& 0xF) ||| (color <<< 4 &&& 0xF0)

/-- The loop of `SYSprint`. -/
def printLoop (str : Mem → Nat → Byte) (x y : Nat) (color : Byte) :
    Nat → Nat → Nat → Nat → Mem → Exec Mem
  | 0, _, _, _, _ => .error .fuel
  | fuel + 1, i, vp, nl, m =>
      if str m i = 0 then .ok m
      else if str m i = enter then
        printLoop str x y color fuel (i + 1) (160 * y + x * 2 + (nl + 1) * 160) (nl + 1) m
      else
        let m := Function.update m (u32 (vidmem + vp)) (str m i)
        let m := Function.update m (u32 (vidmem + (vp + 1))) color
        printLoop str x y color fuel (i + 1) (vp + 2) nl m

def sysPrint (fuel : Nat) (str : Mem → Nat → Byte) (x y : Nat) (color : Byte) (m : Mem) :
    Exec Mem :=
  printLoop str x y (swapped color) fuel 0 (160 * y + x * 2) 0 m

def sysShift (m : Mem) : Mem := copyBytes vidmem (vidmem + 160) m (4000 - 160)

def sysLine (y : Nat) (m : Mem) : Mem := fillBytes (vidmem + 160 * y) 0 m 160

/-- `SYScursor` at the time `t`, and its variable `last`. -/
def sysCursor (fuel : Nat) (cr : Byte) (x last t : Nat) (m : Mem) : Exec (Nat × Mem) := do
  if last < t then
    let last := if u32 (last + 1) < t then t else last
    let m ← sysPrint fuel (fun _ i => if i = 0 then cr else 0) x 24 0xF0 m
    .ok (last, m)
  else
    let m ← sysPrint fuel (fun _ i => if i = 0 then space else 0) x 24 0xF0 m
    .ok (last, m)

/-- `SYSprintI`. Its buffer is not initialised. -/
def sysPrintI (fuel : Nat) (num : Int) (buf : Buffer) (x y : Nat) (color : Byte) (m : Mem) :
    Exec Mem := do
  let buf ← intToString fuel num buf
  sysPrint fuel (fun _ => buf.chars) x y color m

/-! ### What is seen -/

/-- A character and its color. -/
abbrev Cell := Byte × Byte

def dark : Cell := (0, 0)

def cellAt (m : Mem) (r c : Nat) : Cell :=
  (m (vidmem + (160 * r + 2 * c)), m (vidmem + (160 * r + 2 * c + 1)))

/-- The canvas `g` is on the screen. -/
def Shows (m : Mem) (g : Nat → Nat → Cell) : Prop := ∀ r < 25, ∀ c < 80, cellAt m r c = g r c

def colored (color : Byte) (text : List Byte) : List Cell := text.map fun ch => (ch, color)

/-- The text that `SYSprint` shows as these lines. -/
def joined : List (List Byte) → List Byte
  | [] => []
  | [line] => line
  | line :: lines => line ++ enter :: joined lines

section Blocks

variable {m : Mem} {g : Nat → Nat → Cell}

theorem u32_vidmem {k : Nat} (inside : k < 4002) : u32 (vidmem + k) = vidmem + k :=
  u32_of_lt (by rw [vidmem]; omega)

theorem cells_vidmem {a n k : Nat} (fits : a + n ≤ 4000) :
    Cells (vidmem + a) n (vidmem + k) ↔ a ≤ k ∧ k < a + n := by
  rw [cells_iff (by rw [vidmem]; omega)]
  omega

theorem fillBytes_within {a n : Nat} (b : Byte) (m : Mem) (fits : a + n ≤ 4000) :
    WritesWithin m (fillBytes (vidmem + a) b m n) vidmem 4000 := by
  intro x off
  rw [fillBytes_apply, if_neg]
  rw [cells_iff (by rw [vidmem]; omega)]
  omega

theorem sysClear_shows (m : Mem) :
    Shows (sysClear m) (fun _ _ => dark) ∧ WritesWithin m (sysClear m) vidmem 4000 := by
  refine ⟨fun r hr c hc => ?_, fillBytes_within (a := 0) 0 m (Nat.le_refl _)⟩
  have inside (k : Nat) (small : k < 4000) : Cells vidmem 4000 (vidmem + k) :=
    (cells_vidmem (a := 0) (Nat.le_refl _)).mpr ⟨Nat.zero_le k, by omega⟩
  rw [cellAt, sysClear, fillBytes_apply, fillBytes_apply, if_pos (inside _ (by omega)),
    if_pos (inside _ (by omega))]
  rfl

theorem sysLine_shows {y : Nat} (inside : y < 25) (shows : Shows m g) :
    Shows (sysLine y m) (Function.update g y fun _ => dark) ∧
      WritesWithin m (sysLine y m) vidmem 4000 := by
  refine ⟨fun r hr c hc => ?_, fillBytes_within 0 m (by omega)⟩
  rw [cellAt, sysLine, fillBytes_apply, fillBytes_apply]
  simp only [cells_vidmem (show 160 * y + 160 ≤ 4000 by omega)]
  by_cases same : r = y
  · rw [if_pos (by omega), if_pos (by omega), same, Function.update_self]
    rfl
  · rw [if_neg (by omega), if_neg (by omega), Function.update_of_ne same]
    exact shows r hr c hc

/-- Each byte is read before it is written: the copy goes downwards. -/
theorem sysShift_byte (m : Mem) {k : Nat} (inside : k < 4000) :
    sysShift m (vidmem + k) = m (vidmem + if k < 3840 then k + 160 else k) := by
  by_cases moved : k < 3840
  · have far : 3840 ≤ distance (vidmem + 160) vidmem := by decide
    have copied := (copyBytes_delivers_iff (by decide)).mpr (.inr far) m k moved
    rw [u32_vidmem (by omega), Nat.add_assoc, u32_vidmem (by omega), Nat.add_comm 160] at copied
    rw [if_pos moved]
    exact copied
  · rw [if_neg moved]
    refine copyBytes_off _ _ m fun written => moved ?_
    exact ((cells_vidmem (a := 0) (by decide)).mp written).2

theorem sysShift_shows (shows : Shows m g) :
    Shows (sysShift m) (shift 24 g) ∧ WritesWithin m (sysShift m) vidmem 4000 := by
  refine ⟨fun r hr c hc => ?_, fun x off => copyBytes_off _ _ m ?_⟩
  · rw [cellAt, sysShift_byte m (by omega), sysShift_byte m (by omega), shift]
    by_cases moved : r < 24
    · rw [if_pos moved, if_pos (by omega), if_pos (by omega), ← shows (r + 1) (by omega) c hc,
        cellAt, show 160 * (r + 1) + 2 * c = 160 * r + 2 * c + 160 by omega,
        show 160 * r + 2 * c + 160 + 1 = 160 * r + 2 * c + 1 + 160 by omega]
    · rw [if_neg moved, if_neg (by omega), if_neg (by omega)]
      exact shows r hr c hc
  · rw [cells_iff (by decide)]
    omega

end Blocks

/-! ### `SYSprint` -/

section Print

variable {m : Mem} {g : Nat → Nat → Cell} {str : Mem → Nat → Byte} {x y r c i nl : Nat}
variable {color : Byte}

/-- The two stores for a character. -/
theorem store_shows (color ch : Byte) (shows : Shows m g) (row : r < 25) (column : c < 80) :
    let m' := Function.update (Function.update m (u32 (vidmem + (160 * r + 2 * c))) ch)
      (u32 (vidmem + (160 * r + 2 * c + 1))) color
    Shows m' (write g r c [(ch, color)]) ∧ WritesWithin m m' vidmem 4000 := by
  rw [u32_vidmem (by omega), u32_vidmem (by omega)]
  refine ⟨fun r' hr c' hc => ?_, fun a off => ?_⟩
  · have seen := shows r' hr c' hc
    by_cases here : r' = r ∧ c' = c
    · obtain ⟨rfl, rfl⟩ := here
      rw [cellAt, Function.update_of_ne (by omega), Function.update_self, Function.update_self,
        write_self]
      exact (overlay_apply_at (show 0 < [(ch, color)].length from Nat.zero_lt_one)).symm
    · rw [cellAt, Function.update_of_ne (by omega), Function.update_of_ne (by omega),
        Function.update_of_ne (by omega), Function.update_of_ne (by omega)]
      refine seen.trans ?_
      by_cases same : r' = r
      · obtain rfl := same
        rw [write_self]
        obtain before | behind := Nat.lt_or_gt_of_ne (show c' ≠ c by omega)
        · exact (overlay_apply_before before).symm
        · exact (overlay_apply_behind (show c + [(ch, color)].length ≤ c' from behind)).symm
      · rw [write_of_ne same]
  · rw [Function.update_of_ne (by omega), Function.update_of_ne (by omega)]

/-- The loop over a line that ends before the row does. -/
theorem printLoop_line (x y nl : Nat) (color : Byte) {line rest : List Byte} (plain : enter ∉ line)
    (text : ∀ m', WritesWithin m m' vidmem 4000 → TextAt (str m') i (line ++ rest))
    (shows : Shows m g) (row : r < 25) (fits : c + line.length ≤ 80) :
    ∃ m', Shows m' (write g r c (colored color line)) ∧ WritesWithin m m' vidmem 4000 ∧
      ∀ fuel, printLoop str x y color (fuel + line.length) i (160 * r + 2 * c) nl m =
        printLoop str x y color fuel (i + line.length) (160 * r + 2 * (c + line.length)) nl m' := by
  induction line generalizing m g c i with
  | nil => exact ⟨m, (write_nil g r c).symm ▸ shows, .refl m _ _, fun _ => rfl⟩
  | cons ch line ih =>
      have other : enter ≠ ch := List.ne_of_not_mem_cons plain
      obtain ⟨here, some, -⟩ := text m (.refl m _ _)
      rw [List.length_cons] at fits
      obtain ⟨shown, within⟩ := store_shows color ch shows row (show c < 80 by omega)
      obtain ⟨m', shows', within', run⟩ := ih (List.not_mem_of_not_mem_cons plain)
        (fun m' off => (text m' (within.trans off)).2.2) shown (c := c + 1) (by omega)
      refine ⟨m', ?_, within.trans within', fun fuel => ?_⟩
      · rw [show colored color (ch :: line) = [(ch, color)] ++ colored color line from rfl,
          write_append]
        exact shows'
      · rw [List.length_cons, ← Nat.add_assoc, printLoop, here, if_neg some, if_neg (Ne.symm other)]
        show printLoop str x y color (fuel + line.length) (i + 1) (160 * r + 2 * c + 2) nl _ = _
        rw [show 160 * r + 2 * c + 2 = 160 * r + 2 * (c + 1) by omega, run,
          Nat.add_right_comm i, Nat.add_right_comm c, Nat.add_assoc i, Nat.add_assoc c]

/-- The loop from the beginning of a line on. -/
theorem printLoop_lines (nl : Nat) (color : Byte) {lines : List (List Byte)}
    (plain : ∀ line ∈ lines, enter ∉ line)
    (text : ∀ m', WritesWithin m m' vidmem 4000 → TextAt (str m') i (joined lines))
    (shows : Shows m g) (rows : y + nl + lines.length ≤ 25)
    (columns : ∀ line ∈ lines, x + line.length ≤ 80) :
    ∃ m', Shows m' (writeLines g (y + nl) x (lines.map (colored color))) ∧
      WritesWithin m m' vidmem 4000 ∧ ∀ fuel, (joined lines).length < fuel →
        printLoop str x y color fuel i (160 * y + x * 2 + nl * 160) nl m = .ok m' := by
  induction lines generalizing m g i nl with
  | nil =>
      refine ⟨m, shows, .refl m _ _, fun fuel enough => ?_⟩
      obtain ⟨fuel, rfl⟩ := Nat.exists_eq_succ_of_ne_zero (Nat.ne_of_gt enough)
      exact if_pos (text m (.refl m _ _))
  | cons line lines ih =>
      obtain ⟨here, plain⟩ := List.forall_mem_cons.mp plain
      obtain ⟨fits, columns⟩ := List.forall_mem_cons.mp columns
      rw [List.length_cons] at rows
      have start : 160 * y + x * 2 + nl * 160 = 160 * (y + nl) + 2 * x := by omega
      rw [start]
      cases lines with
      | nil =>
          have text' (m' : Mem) (off : WritesWithin m m' vidmem 4000) :
              TextAt (str m') i (line ++ []) := (List.append_nil line).symm ▸ text m' off
          obtain ⟨m', shows', within, run⟩ := printLoop_line x y nl color here text' shows
            (show y + nl < 25 by omega) fits
          refine ⟨m', shows', within, fun fuel (enough : line.length < fuel) => ?_⟩
          obtain ⟨fuel, rfl⟩ : ∃ k, fuel = k + 1 + line.length := ⟨fuel - line.length - 1, by omega⟩
          have nul : str m' (i + line.length) = 0 := textAt_append (text' m' within)
          rw [run (fuel + 1), printLoop, if_pos nul]
      | cons next lines =>
          obtain ⟨m₁, shown, within₁, run⟩ := printLoop_line x y nl color here text shows
            (show y + nl < 25 by omega) fits
          have behind (m' : Mem) (off : WritesWithin m₁ m' vidmem 4000) :
              TextAt (str m') (i + line.length) (enter :: joined (next :: lines)) :=
            textAt_append (text m' (within₁.trans off))
          obtain ⟨m', shows', within, rest⟩ := ih (nl + 1) plain
            (fun m' off => (behind m' off).2.2) shown (by omega) columns
          refine ⟨m', shows', within₁.trans within, fun fuel enough => ?_⟩
          have whole : joined (line :: next :: lines) = line ++ enter :: joined (next :: lines) :=
            rfl
          rw [whole, List.length_append, List.length_cons] at enough
          obtain ⟨fuel, rfl⟩ : ∃ k, fuel = k + 1 + line.length := ⟨fuel - line.length - 1, by omega⟩
          obtain ⟨feed, some, -⟩ := behind m₁ (.refl m₁ _ _)
          rw [run (fuel + 1), printLoop, feed, if_neg some, if_pos rfl]
          exact rest fuel (by omega)

theorem sysPrint_lines (color : Byte) {lines : List (List Byte)}
    (plain : ∀ line ∈ lines, enter ∉ line)
    (text : ∀ m', WritesWithin m m' vidmem 4000 → TextAt (str m') 0 (joined lines))
    (shows : Shows m g) (rows : y + lines.length ≤ 25)
    (columns : ∀ line ∈ lines, x + line.length ≤ 80) :
    ∃ m', Shows m' (writeLines g y x (lines.map (colored (swapped color)))) ∧
      WritesWithin m m' vidmem 4000 ∧ Returns (fun fuel => sysPrint fuel str x y color m) m' := by
  obtain ⟨m', shows', within, run⟩ :=
    printLoop_lines 0 (swapped color) plain text shows rows columns
  exact ⟨m', shows', within, _, fun fuel enough => run fuel enough⟩

/-- One line. -/
theorem sysPrint_shows (color : Byte) {line : List Byte} (plain : enter ∉ line)
    (text : ∀ m', WritesWithin m m' vidmem 4000 → TextAt (str m') 0 line)
    (shows : Shows m g) (row : y < 25) (fits : x + line.length ≤ 80) :
    ∃ m', Shows m' (write g y x (colored (swapped color) line)) ∧
      WritesWithin m m' vidmem 4000 ∧ Returns (fun fuel => sysPrint fuel str x y color m) m' :=
  sysPrint_lines color (List.forall_mem_singleton.mpr plain) text shows row
    (List.forall_mem_singleton.mpr fits)

/-- A string that does not change while it is printed. -/
theorem sysPrint_fixed {chars : Nat → Byte} (color : Byte) {line : List Byte}
    (text : TextAt chars 0 line) (plain : enter ∉ line) (shows : Shows m g) (row : y < 25)
    (fits : x + line.length ≤ 80) :
    ∃ m', Shows m' (write g y x (colored (swapped color) line)) ∧
      WritesWithin m m' vidmem 4000 ∧
      Returns (fun fuel => sysPrint fuel (fun _ => chars) x y color m) m' :=
  sysPrint_shows color plain (fun _ _ => text) shows row fits

/-- What stands behind the line: the cursor, or a space. -/
def CursorChar (cr ch : Byte) : Prop := ch = cr ∨ ch = space

theorem sysCursor_shows {cr : Byte} (some : cr ≠ 0) (other : cr ≠ enter) (last t : Nat)
    (shows : Shows m g) (fits : x < 80) :
    ∃ last' m' ch, CursorChar cr ch ∧ Shows m' (write g 24 x (colored 0x0F [ch])) ∧
      WritesWithin m m' vidmem 4000 ∧
      Returns (fun fuel => sysCursor fuel cr x last t m) (last', m') := by
  have one (ch : Byte) (some : ch ≠ 0) : TextAt (fun i => if i = 0 then ch else 0) 0 [ch] :=
    ⟨rfl, some, rfl⟩
  have shown (ch : Byte) (some : ch ≠ 0) (other : ch ≠ enter) :=
    sysPrint_fixed 0xF0 (one ch some) (by simpa using Ne.symm other) shows (show 24 < 25 by decide)
      (show x + 1 ≤ 80 from fits)
  simp only [sysCursor]
  by_cases visible : last < t
  · obtain ⟨m', shows', within, run⟩ := shown cr some other
    simp only [visible, if_true]
    exact ⟨_, m', cr, .inl rfl, shows', within, run.bind (.ok _)⟩
  · obtain ⟨m', shows', within, run⟩ := shown space (by decide) (by decide)
    simp only [visible, if_false]
    exact ⟨_, m', space, .inr rfl, shows', within, run.bind (.ok _)⟩

/-- A character that is no digit. -/
theorem notMem_string {ch : Byte} (digit : ∀ d < 10, decimal.char d ≠ ch) (w n : Nat) :
    ch ∉ decimal.string w n := by
  intro member
  obtain ⟨d, hd, same⟩ := List.mem_map.mp member
  exact digit d (digit_lt (by decide) d hd) same

/-- A character that is neither a digit nor the sign. -/
theorem notMem_intString {ch : Byte} (sign : ch ≠ minus) (digit : ∀ d < 10, decimal.char d ≠ ch)
    (v : Int) : ch ∉ decimal.intString minus v := by
  have digits := notMem_string digit 1 v.natAbs
  rw [Alphabet.intString]
  split_ifs
  · exact fun member => (List.mem_cons.mp member).elim sign digits
  · exact digits

/-- `SYSprintI` shows the numeral. -/
theorem sysPrintI_shows {num : Int} (low : -2147483648 < num) (high : num < 2147483648)
    (buf : Buffer) (color : Byte) (shows : Shows m g) (row : y < 25)
    (fits : x + (decimal.intString minus num).length ≤ 80) :
    ∃ m', Shows m' (write g y x (colored (swapped color) (decimal.intString minus num))) ∧
      WritesWithin m m' vidmem 4000 ∧
      Returns (fun fuel => sysPrintI fuel num buf x y color m) m' := by
  obtain ⟨buf', wrote, run⟩ := intToString_prints low high buf
  have text := wrote_text wrote (notMem_intString (by decide) (by decide) num)
  obtain ⟨m', shows', within, shown⟩ := sysPrint_fixed color text
    (notMem_intString (by decide) (by decide) num) shows row fits
  have converted : Returns (fun fuel => intToString fuel num buf) buf' := ⟨33, run⟩
  exact ⟨m', shows', within, converted.bind shown⟩

end Print

end HiveRK.Control
