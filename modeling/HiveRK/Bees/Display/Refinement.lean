import HiveRK.Bees.Display.Screen
import Mathlib.Data.List.GetD

/-!
# The display is a terminal

Behind `clear`, text without backspaces is shown as on a page that never ends: the screen
is the window on its last rows. A character that finds the cursor behind the last cell
moves the window down first, a newline as any other.
-/

namespace HiveRK.Display

open Machine Terminal

section PrintChar

variable {d : Vga} {ch : Byte} {color : Int}

/-- The screen as a window on a page. -/
def view (d : Vga) : Page (Byte × Byte) := ⟨cellAt d, cell d⟩

/-- What a character is for a page. -/
def input (c : Byte × Int) : Input (Byte × Byte) :=
  if c.1 = newline then .newline else .put (c.1, colorByte c.2)

/-- A screen that is full moves as a window does. -/
theorem settle_view (d : Vga) :
    (settle d).2 = (if cell d < 2000 then view d else scroll blank 80 25 (view d)).cursor ∧
      ∀ n < 2000, cellAt (settle d).1 n =
        (if cell d < 2000 then view d else scroll blank 80 25 (view d)).cells n := by
  rw [settle]
  split_ifs with room
  · exact ⟨rfl, fun _ _ => rfl⟩
  · obtain ⟨_, _, cells⟩ := shiftUp_spec { d with index := VGA_OFFSET_LOW }
    exact ⟨rfl, cells⟩

/-- `printChar` is an input to the window. -/
theorem printChar_view (color : Int) (inside : cell d ≤ 2000) (plain : ch ≠ backspace) :
    cell (printChar d ch color) = (windowInput blank 80 25 (view d) (input (ch, color))).cursor ∧
      ∀ n < 2000, cellAt (printChar d ch color) n =
        (windowInput blank 80 25 (view d) (input (ch, color))).cells n := by
  obtain ⟨room, _⟩ := settle_spec inside
  obtain ⟨cursor, cells⟩ := settle_view d
  have moved : windowInput blank 80 25 (view d) (input (ch, color)) =
      (if cell d < 2000 then view d else scroll blank 80 25 (view d)).input 80
        (input (ch, color)) :=
    rfl
  rw [printChar_eq, moved]
  generalize settle d = s at *
  generalize (if cell d < 2000 then view d else scroll blank 80 25 (view d)) = w at *
  by_cases hnl : ch = newline
  · simp only [input, if_pos hnl, Page.input]
    refine ⟨?_, cells⟩
    rw [cell_setCursor, ← cursor]
    omega
  · simp only [input, if_neg hnl, if_neg plain, Page.input]
    refine ⟨?_, fun n hn => ?_⟩
    · rw [cell_setCursor, ← cursor]
      omega
    · rw [cellAt_setCursor, setChar_cell, cellAt_poke room hn, ← cursor, Function.update_apply,
        cells n hn]

end PrintChar

/-! ### Text -/

section Text

variable {σ : Type} {printChar : σ → Byte → Int → σ}

/-- The loop of `printStr` prints what is left of the string. -/
theorem printStr_eq {cs : List Byte} (plain : ∀ c ∈ cs, c ≠ 0) {str : Nat → Byte} {color : Int}
    {fuel index : Nat} (chars : ∀ (i : Nat) (h : i < cs.length), str (index + i) = cs[i])
    (stop : str (index + cs.length) = 0) (hfuel : cs.length < fuel) (s : σ) :
    printStr printChar str color fuel index s =
      .ok (cs.foldl (fun s c => printChar s c color) s) := by
  induction cs generalizing fuel index s with
  | nil =>
      obtain ⟨fuel, rfl⟩ := Nat.exists_eq_succ_of_ne_zero (Nat.ne_of_gt hfuel)
      have done : str index = 0 := stop
      rw [printStr, if_pos done]
      rfl
  | cons c cs ih =>
      rw [List.length_cons] at hfuel stop
      obtain ⟨fuel, rfl⟩ : ∃ k, fuel = k + 1 := ⟨fuel - 1, by omega⟩
      have first : str index = c := chars 0 (Nat.zero_lt_succ _)
      rw [printStr, first, if_neg (plain c List.mem_cons_self)]
      refine ih (fun c hc => plain c (List.mem_cons_of_mem _ hc)) (fun i hi => ?_) ?_ (by omega) _
      · rw [Nat.add_right_comm]
        exact chars (i + 1) (Nat.succ_lt_succ hi)
      · rw [Nat.add_right_comm]
        exact stop

end Text

/-- A call that prints. -/
inductive Output where
  | printChar (ch : Byte) (color : Int)
  | printStr (str : List Byte) (color : Int)
  | putc (ch : Int)

/-- The characters of a call, with their colours. -/
def Output.chars : Output → List (Byte × Int)
  | .printChar ch color => [(ch, color)]
  | .printStr str color => str.map fun ch => (ch, color)
  | .putc ch => [(BitVec.ofInt 8 ch, DEFAULT_COLOR)]

def Output.run (fuel : Nat) (d : Vga) : Output → Exec Vga
  | .printChar ch color => .ok (Display.printChar d ch color)
  | .printStr str color => Display.printStr Display.printChar (fun i => str.getD i 0) color fuel 0 d
  | .putc ch => .ok (Display.putc d ch)

/-- Characters one after the other. -/
def printAll (d : Vga) (cs : List (Byte × Int)) : Vga := cs.foldl (fun d c => printChar d c.1 c.2) d

theorem printAll_append (d : Vga) (cs cs' : List (Byte × Int)) :
    printAll d (cs ++ cs') = printAll (printAll d cs) cs' := List.foldl_append

theorem Output.run_eq {fuel : Nat} (out : Output) (plain : ∀ c ∈ out.chars, c.1 ≠ 0)
    (hfuel : out.chars.length < fuel) (d : Vga) : out.run fuel d = .ok (printAll d out.chars) := by
  cases out with
  | printChar ch color => rfl
  | putc ch => rfl
  | printStr str color =>
      simp only [Output.chars, List.length_map, List.mem_map, forall_exists_index, and_imp,
        forall_apply_eq_imp_iff₂] at plain hfuel
      have chars (i : Nat) (h : i < str.length) : str.getD (0 + i) 0 = str[i] := by
        rw [Nat.zero_add, List.getD_eq_getElem _ _ h]
      have stop : str.getD (0 + str.length) 0 = 0 := by
        rw [Nat.zero_add, List.getD_eq_default _ _ (Nat.le_refl _)]
      rw [Output.run, printStr_eq plain chars stop hfuel, printAll, Output.chars, List.foldl_map]

theorem outputs_run {fuel : Nat} (outs : List Output)
    (plain : ∀ c ∈ outs.flatMap Output.chars, c.1 ≠ 0)
    (hfuel : ∀ out ∈ outs, out.chars.length < fuel) (d : Vga) :
    outs.foldlM (fun d out => out.run fuel d) d = .ok (printAll d (outs.flatMap Output.chars)) := by
  induction outs generalizing d with
  | nil => rfl
  | cons out outs ih =>
      rw [List.flatMap_cons, List.forall_mem_append] at plain
      have run := out.run_eq plain.1 (hfuel out List.mem_cons_self) d
      rw [List.foldlM_cons, run, List.flatMap_cons, printAll_append]
      exact ih plain.2 (fun out hout => hfuel out (List.mem_cons_of_mem _ hout)) _

/-! ### The refinement -/

/-- The ideal page after some characters. -/
def pageOf (cs : List (Byte × Int)) : Page (Byte × Byte) :=
  (Page.blank blank).inputs 80 (cs.map input)

/-- From an empty screen, printing is what the ideal page and its window do. -/
theorem printAll_shows {d : Vga} (home : cell d = 0) (cleared : ∀ n < 2000, cellAt d n = blank)
    {cs : List (Byte × Int)} (plain : ∀ c ∈ cs, c.1 ≠ backspace) {n : Nat} (hn : n ≤ cs.length) :
    Shows blank 80 25 (view (printAll d (cs.take n))) (pageOf (cs.take n))
      (topAfter (fun k => cell (printAll d (cs.take k)) = 2000) n) := by
  have initial : Shows blank 80 25 (view d) (Page.blank blank) 0 := shows_blank.congr cleared home
  refine shows_take (fun d c => printChar d c.1 c.2) (by decide) (by decide) initial ?_ hn
  intro d c hc inside
  obtain ⟨cursor, cells⟩ := printChar_view c.2 inside (plain c hc)
  exact ⟨cursor, cells⟩

/-- Printing from an on-screen cell writes to the screen only. -/
theorem printAll_wrote {d : Vga} (inside : cell d ≤ 2000) {cs : List (Byte × Int)}
    (plain : ∀ c ∈ cs, c.1 ≠ backspace) : Wrote d (printAll d cs) := by
  induction cs generalizing d with
  | nil => exact .refl d
  | cons c cs ih =>
      obtain ⟨first, rest⟩ := List.forall_mem_cons.mp plain
      obtain ⟨next, wrote⟩ := printChar_next c.2 inside (fun h => absurd h first)
      exact wrote.trans (ih (by rw [next]; exact nextCell_le inside c.1) rest)

/-- After every character the screen shows the rows `top` to `top + 24` of the ideal page, the
cursor stands at the ideal cell, and `top` grows by one when a character finds the cursor
behind the last cell. -/
theorem terminal_refines (d : Vga) (outs : List Output)
    (plain : ∀ c ∈ outs.flatMap Output.chars, c.1 ≠ 0 ∧ c.1 ≠ backspace) :
    let cs := outs.flatMap Output.chars
    let after := fun n => printAll (clear d) (cs.take n)
    (∀ fuel, (∀ out ∈ outs, out.chars.length < fuel) →
      outs.foldlM (fun d out => out.run fuel d) (clear d) = .ok (after cs.length)) ∧
    ∃ top : Nat → Nat, top 0 = 0 ∧
      (∀ n ≤ cs.length,
        (∀ row < 25, ∀ col < 80, cellAt (after n) (80 * row + col) =
          (pageOf (cs.take n)).cells (80 * (top n + row) + col)) ∧
        (pageOf (cs.take n)).cursor = 80 * top n + cell (after n) ∧ cell (after n) ≤ 2000 ∧
        Wrote (clear d) (after n)) ∧
      ∀ n < cs.length, top (n + 1) = if cell (after n) = 2000 then top n + 1 else top n := by
  intro cs after
  obtain ⟨home, _, cleared⟩ := clear_spec d
  have bounds (n : Nat) : ∀ c ∈ cs.take n, c.1 ≠ backspace :=
    fun c hc => (plain c (List.mem_of_mem_take hc)).2
  refine ⟨fun fuel hfuel => ?_, topAfter (fun k => cell (after k) = 2000), rfl, fun n hn => ?_,
    fun n _ => ?_⟩
  · simp only [after, List.take_length]
    exact outputs_run outs (fun c hc => (plain c hc).1) hfuel (clear d)
  · have shows := printAll_shows home cleared (fun c hc => (plain c hc).2) hn
    refine ⟨fun row hrow col hcol => ?_, ?_, shows.inside, ?_⟩
    · have place : topAfter (fun k => cell (after k) = 2000) n * 80 + (80 * row + col) =
          80 * (topAfter (fun k => cell (after k) = 2000) n + row) + col := by omega
      rw [← place]
      exact shows.cells (80 * row + col) (by omega)
    · rw [Nat.mul_comm 80]
      exact shows.cursor
    · exact printAll_wrote (by rw [home]; decide) (bounds n)
  · simp only [topAfter, decide_eq_true_eq]

/-- A display before anything was shown on it. -/
def darkScreen : Vga := ⟨fun _ => 0, 0, fun _ => 0, []⟩

/-- A character behind 25 line feeds. -/
def lastRow : List Output := List.replicate 25 (.putc 0x0A) ++ [.putc 0x41]

/-- The screen moves by one row, and the character stands in its last one. -/
theorem terminal_refines_lastRow :
    let cs := lastRow.flatMap Output.chars
    let d := printAll (clear darkScreen) cs
    cell d = 1921 ∧ ∀ row < 25, ∀ col < 80,
      cellAt d (80 * row + col) = (pageOf cs).cells (80 * (1 + row) + col) := by
  intro cs d
  obtain ⟨-, top, zero, shows, moves⟩ := terminal_refines darkScreen lastRow (by decide)
  have cursors : ∀ n ≤ 25, (pageOf (cs.take n)).cursor = 80 * n := by decide
  have place (n : Nat) (hn : n ≤ 25) : 80 * n = 80 * top n +
      cell (printAll (clear darkScreen) (cs.take n)) :=
    (cursors n hn).symm.trans (shows n (show n ≤ 26 by omega)).2.1
  have next (n : Nat) (hn : n ≤ 25) : top (n + 1) =
      if cell (printAll (clear darkScreen) (cs.take n)) = 2000 then top n + 1 else top n :=
    moves n (show n < 26 by omega)
  have still (n : Nat) (hn : n ≤ 25) : top n = 0 := by
    induction n with
    | zero => exact zero
    | succ n ih =>
        have before := ih (by omega)
        have cursor := place n (by omega)
        rw [next n (by omega), if_neg (by omega), before]
  have moved : top 26 = 1 := by
    have cursor := place 25 (by decide)
    have before := still 25 (by decide)
    rw [next 25 (by decide), if_pos (by omega), before]
  obtain ⟨cells, cursor, -⟩ := shows 26 (show 26 ≤ 26 from Nat.le_refl 26)
  have last : (pageOf cs).cursor = 2001 := by decide
  rw [moved] at cells cursor
  exact ⟨Nat.add_left_cancel (cursor.symm.trans last), cells⟩

end HiveRK.Display
