import Mathlib.Logic.Function.Basic
import Mathlib.Tactic.Common

/-!
# A page and the window on its end

A page has rows of `cols` cells and no last row. A window has `rows` rows; when a character
arrives while the cursor is behind the last cell, the window first moves one row down. So a
cursor behind the last cell is a state that lasts until the next character.

`Shows` says that the window has the rows of the page from `top` on. Every input keeps it,
and only a move increases `top`.
-/

namespace Terminal

variable {α : Type}

/-- A character, with all that its cell shows, or the beginning of a new row. -/
inductive Input (α : Type) where
  | put (a : α)
  | newline

/-- Cells in reading order, and the cell that the next character takes. -/
structure Page (α : Type) where
  cells : Nat → α
  cursor : Nat

def Page.blank (blank : α) : Page α := ⟨fun _ => blank, 0⟩

def Page.input (cols : Nat) (p : Page α) : Input α → Page α
  | .put a => ⟨Function.update p.cells p.cursor a, p.cursor + 1⟩
  | .newline => ⟨p.cells, (p.cursor / cols + 1) * cols⟩

def Page.inputs (cols : Nat) (p : Page α) (is : List (Input α)) : Page α :=
  is.foldl (Page.input cols) p

/-- The cells of a window move up by one row, and the last row becomes blank. -/
def scroll (blank : α) (cols rows : Nat) (w : Page α) : Page α :=
  ⟨fun n => if n < (rows - 1) * cols then w.cells (n + cols) else blank, w.cursor - cols⟩

/-- A window is a page of which only the first `rows` rows count. -/
def windowInput (blank : α) (cols rows : Nat) (w : Page α) (i : Input α) : Page α :=
  (if w.cursor < rows * cols then w else scroll blank cols rows w).input cols i

/-- The window has the rows of the page from `top` on, below which the page is blank. -/
structure Shows (blank : α) (cols rows : Nat) (w p : Page α) (top : Nat) : Prop where
  cells : ∀ n < rows * cols, w.cells n = p.cells (top * cols + n)
  cursor : p.cursor = top * cols + w.cursor
  inside : w.cursor ≤ rows * cols
  unwritten : ∀ n, p.cursor ≤ n → p.cells n = blank

section Refinement

variable {blank : α} {cols rows top : Nat} {w p : Page α}

theorem shows_blank : Shows blank cols rows (Page.blank blank) (Page.blank blank) 0 where
  cells _ _ := rfl
  cursor := (Nat.zero_mul cols).symm
  inside := Nat.zero_le _
  unwritten _ _ := rfl

/-- Only the cells that count, and the cursor, matter. -/
theorem Shows.congr (h : Shows blank cols rows w p top) {w' : Page α}
    (cells : ∀ n < rows * cols, w'.cells n = w.cells n) (cursor : w'.cursor = w.cursor) :
    Shows blank cols rows w' p top where
  cells n hn := (cells n hn).trans (h.cells n hn)
  cursor := by rw [cursor]; exact h.cursor
  inside := by rw [cursor]; exact h.inside
  unwritten := h.unwritten

/-- A window whose cursor is behind its last cell moves down by one row. -/
theorem Shows.scroll (h : Shows blank cols rows w p top) (hrows : 0 < rows)
    (full : w.cursor = rows * cols) :
    Shows blank cols rows (scroll blank cols rows w) p (top + 1) := by
  obtain ⟨k, rfl⟩ : ∃ k, rows = k + 1 := ⟨rows - 1, by omega⟩
  have cursor := h.cursor
  have total : (k + 1) * cols = k * cols + cols := Nat.succ_mul k cols
  have next : (top + 1) * cols = top * cols + cols := Nat.succ_mul top cols
  constructor
  · intro n hn
    show (if n < (k + 1 - 1) * cols then w.cells (n + cols) else blank) = _
    rw [Nat.add_sub_cancel, next]
    split_ifs with low
    · rw [h.cells (n + cols) (by omega)]
      congr 1
      omega
    · -- The row that comes into view is behind the cursor.
      exact (h.unwritten _ (by omega)).symm
  · show p.cursor = (top + 1) * cols + (w.cursor - cols)
    omega
  · show w.cursor - cols ≤ (k + 1) * cols
    omega
  · exact h.unwritten

/-- A character on a cell of the window, or a new row from it. -/
theorem Shows.input (h : Shows blank cols rows w p top) (hcols : 0 < cols)
    (room : w.cursor < rows * cols) (i : Input α) :
    Shows blank cols rows (w.input cols i) (p.input cols i) top := by
  have cursor := h.cursor
  cases i with
  | put a =>
      constructor
      · intro n hn
        show Function.update w.cells w.cursor a n =
          Function.update p.cells p.cursor a (top * cols + n)
        by_cases same : n = w.cursor
        · rw [same, cursor, Function.update_self, Function.update_self]
        · rw [Function.update_of_ne same, Function.update_of_ne (by omega)]
          exact h.cells n hn
      · show p.cursor + 1 = top * cols + (w.cursor + 1)
        omega
      · exact room
      · intro n hn
        have behind : p.cursor < n := hn
        exact (Function.update_of_ne (Nat.ne_of_gt behind) _ _).trans
          (h.unwritten n (Nat.le_of_lt behind))
  | newline =>
      have row : w.cursor / cols < rows := (Nat.div_lt_iff_lt_mul hcols).mpr room
      have place : (p.cursor / cols + 1) * cols = top * cols + (w.cursor / cols + 1) * cols := by
        rw [cursor, Nat.add_comm (top * cols), Nat.add_mul_div_right _ _ hcols]
        simp only [Nat.add_mul]
        omega
      constructor
      · exact h.cells
      · exact place
      · exact Nat.mul_le_mul_right cols row
      · intro n hn
        apply h.unwritten n
        have below : p.cursor < (p.cursor / cols + 1) * cols :=
          Nat.lt_mul_of_div_lt (Nat.lt_succ_self _) hcols
        exact Nat.le_trans (Nat.le_of_lt below) hn

/-- Every input keeps the relation. The window moves if and only if its cursor was behind
the last cell. -/
theorem Shows.windowInput (h : Shows blank cols rows w p top) (hcols : 0 < cols) (hrows : 0 < rows)
    (i : Input α) :
    Shows blank cols rows (windowInput blank cols rows w i) (p.input cols i)
      (if w.cursor = rows * cols then top + 1 else top) := by
  have inside := h.inside
  by_cases full : w.cursor = rows * cols
  · have moved := h.scroll hrows full
    have room : (Terminal.scroll blank cols rows w).cursor < rows * cols := by
      have one : cols ≤ rows * cols := Nat.le_mul_of_pos_left cols hrows
      show w.cursor - cols < rows * cols
      omega
    rw [Terminal.windowInput, if_neg (by omega), if_pos full]
    exact moved.input hcols room i
  · rw [Terminal.windowInput, if_pos (by omega), if_neg full]
    exact h.input hcols (by omega) i

end Refinement

/-- The first row in the window after the first `n` inputs, where `full` says when an input
finds the cursor behind the last cell. -/
def topAfter (full : Nat → Bool) : Nat → Nat
  | 0 => 0
  | n + 1 => if full n then topAfter full n + 1 else topAfter full n

section Simulation

variable {σ ι : Type} {blank : α} {cols rows : Nat} {view : σ → Page α} {step : σ → ι → σ}
  {input : ι → Input α}

/-- A system whose state is viewed as a window, and whose steps are inputs to that window,
shows the page after every prefix of its inputs. -/
theorem shows_take (step : σ → ι → σ) (hcols : 0 < cols) (hrows : 0 < rows) {start : σ}
    {is : List ι}
    (initial : Shows blank cols rows (view start) (Page.blank blank) 0)
    (steps : ∀ s, ∀ i ∈ is, (view s).cursor ≤ rows * cols →
      (view (step s i)).cursor = (windowInput blank cols rows (view s) (input i)).cursor ∧
      ∀ n < rows * cols,
        (view (step s i)).cells n = (windowInput blank cols rows (view s) (input i)).cells n)
    {n : Nat} (hn : n ≤ is.length) :
    Shows blank cols rows (view ((is.take n).foldl step start))
      ((Page.blank blank).inputs cols ((is.take n).map input))
      (topAfter (fun k => (view ((is.take k).foldl step start)).cursor = rows * cols) n) := by
  induction n with
  | zero => exact initial
  | succ n ih =>
      have shows := ih (Nat.le_of_succ_le hn)
      obtain ⟨cursor, cells⟩ := steps _ is[n] (List.getElem_mem hn) shows.inside
      have next := shows.windowInput hcols hrows (input is[n])
      rw [List.take_succ_eq_append_getElem hn]
      simp only [List.map_append, List.map_cons, List.map_nil, List.foldl_append, List.foldl_cons,
        List.foldl_nil, Page.inputs, topAfter, decide_eq_true_eq]
      exact next.congr cells cursor

end Simulation

end Terminal
