import Mathlib.Data.List.GetD
import Mathlib.Logic.Function.Basic
import Mathlib.Tactic.Common

/-!
# A canvas

A canvas has rows of cells. Text is written over a row, or one line below the other over several
rows, and the rows above a last one move up. Of the canvas only some rows and columns may be seen.
-/

namespace Canvas

variable {α : Type}

/-- The row with `text` over it from column `x` on. -/
def overlay (row : Nat → α) (x : Nat) (text : List α) : Nat → α := fun c =>
  if x ≤ c then (text[c - x]?).getD (row c) else row c

def write (g : Nat → Nat → α) (y x : Nat) (text : List α) : Nat → Nat → α :=
  Function.update g y (overlay (g y) x text)

/-- Lines one below the other, from row `y` on. -/
def writeLines (g : Nat → Nat → α) (y x : Nat) : List (List α) → Nat → Nat → α
  | [] => g
  | line :: lines => writeLines (write g y x line) (y + 1) x lines

/-- All rows above the row `last` are replaced by the next one. -/
def shift (last : Nat) (g : Nat → Nat → α) : Nat → Nat → α := fun r =>
  if r < last then g (r + 1) else g r

/-- The canvas after these rows came in above the row `last`, one after the other. -/
def scrolled (last : Nat) (g : Nat → Nat → α) (rows : List (Nat → α)) : Nat → Nat → α := fun r =>
  if r < last then ((List.range last).map g ++ rows).getD (r + rows.length) (g r) else g r

section Rows

variable {row : Nat → α} {x : Nat} {text : List α}

theorem overlay_nil (row : Nat → α) (x : Nat) : overlay row x [] = row := by
  funext c
  simp [overlay]

theorem overlay_apply_before {c : Nat} (before : c < x) : overlay row x text c = row c :=
  if_neg (Nat.not_le_of_lt before)

theorem overlay_apply_at {i : Nat} (inside : i < text.length) :
    overlay row x text (x + i) = text[i] := by
  rw [overlay, if_pos (Nat.le_add_right x i), Nat.add_sub_cancel_left,
    List.getElem?_eq_getElem inside, Option.getD_some]

theorem overlay_apply_behind {c : Nat} (behind : x + text.length ≤ c) :
    overlay row x text c = row c := by
  rw [overlay, List.getElem?_eq_none (by omega), Option.getD_none, ite_self]

/-- A row is given by what stands before a text, in it and behind it. -/
theorem eq_overlay_iff {row' : Nat → α} : row' = overlay row x text ↔
    (∀ c < x, row' c = row c) ∧ (∀ (i : Nat) (h : i < text.length), row' (x + i) = text[i]) ∧
      ∀ c, x + text.length ≤ c → row' c = row c := by
  constructor
  · rintro rfl
    exact ⟨fun _ => overlay_apply_before, fun _ => overlay_apply_at, fun _ => overlay_apply_behind⟩
  · rintro ⟨before, inside, behind⟩
    funext c
    by_cases first : c < x
    · rw [before c first, overlay_apply_before first]
    · obtain ⟨i, rfl⟩ := Nat.exists_eq_add_of_le (Nat.le_of_not_lt first)
      by_cases last : i < text.length
      · rw [inside i last, overlay_apply_at last]
      · rw [behind _ (by omega), overlay_apply_behind (by omega)]

theorem overlay_cons (row : Nat → α) (x : Nat) (a : α) (text : List α) :
    overlay row x (a :: text) = overlay (Function.update row x a) (x + 1) text := by
  symm
  refine eq_overlay_iff.mpr ⟨fun c before => ?_, fun i inside => ?_, fun c behind => ?_⟩
  · rw [overlay_apply_before (by omega), Function.update_of_ne (Nat.ne_of_lt before)]
  · cases i with
    | zero =>
        rw [overlay_apply_before (by omega)]
        exact Function.update_self ..
    | succ i =>
        rw [← Nat.add_assoc, Nat.add_right_comm,
          overlay_apply_at (Nat.lt_of_succ_lt_succ inside)]
        rfl
  · rw [List.length_cons] at behind
    rw [overlay_apply_behind (by omega), Function.update_of_ne (by omega)]

/-- A text is written piece by piece. -/
theorem overlay_append (row : Nat → α) (x : Nat) (text more : List α) :
    overlay row x (text ++ more) = overlay (overlay row x text) (x + text.length) more := by
  induction text generalizing row x with
  | nil => rw [overlay_nil]; rfl
  | cons a text ih =>
      rw [List.cons_append, overlay_cons, ih, ← overlay_cons, List.length_cons, Nat.add_right_comm,
        Nat.add_assoc]

/-- A text that is not shorter hides the one below it. -/
theorem overlay_overlay {text' : List α} (long : text.length ≤ text'.length) :
    overlay (overlay row x text) x text' = overlay row x text' := by
  refine eq_overlay_iff.mpr ⟨fun c before => ?_, fun _ => overlay_apply_at, fun c behind => ?_⟩
  · rw [overlay_apply_before before, overlay_apply_before before]
  · rw [overlay_apply_behind behind, overlay_apply_behind (by omega)]

end Rows

section Grids

variable {g : Nat → Nat → α} {x y : Nat} {text : List α}

theorem write_self : write g y x text y = overlay (g y) x text := Function.update_self ..

theorem write_of_ne {r : Nat} (other : r ≠ y) : write g y x text r = g r :=
  Function.update_of_ne other ..

theorem write_nil (g : Nat → Nat → α) (y x : Nat) : write g y x [] = g := by
  rw [write, overlay_nil, Function.update_eq_self]

theorem write_append (g : Nat → Nat → α) (y x : Nat) (text more : List α) :
    write g y x (text ++ more) = write (write g y x text) y (x + text.length) more := by
  rw [write, overlay_append, write, write_self, write, Function.update_idem]

theorem write_write {text' : List α} (long : text.length ≤ text'.length) :
    write (write g y x text) y x text' = write g y x text' := by
  rw [write, write_self, overlay_overlay long, write, Function.update_idem, ← write]

theorem scrolled_nil (last : Nat) (g : Nat → Nat → α) : scrolled last g [] = g := by
  funext r
  rw [scrolled]
  split_ifs with above
  · rw [List.append_nil, List.getD_eq_getElem _ _ (by simpa using above)]
    simp
  · rfl

/-- One more row comes in. -/
theorem scrolled_concat {last : Nat} (g : Nat → Nat → α) (rows : List (Nat → α))
    (row : Nat → α) :
    scrolled (last + 1) g (rows ++ [row]) =
      Function.update (shift (last + 1) (scrolled (last + 1) g rows)) last row := by
  have whole : ((List.range (last + 1)).map g ++ rows).length = last + 1 + rows.length := by simp
  funext r
  obtain before | rfl | behind := Nat.lt_trichotomy r last
  · have next : r + (rows ++ [row]).length = r + 1 + rows.length := by simp; omega
    rw [Function.update_of_ne (Nat.ne_of_lt before), shift, if_pos (by omega), scrolled,
      if_pos (by omega), scrolled, if_pos (by omega), next, ← List.append_assoc,
      List.getD_append _ _ _ _ (by omega), List.getD_eq_getElem _ _ (by omega),
      List.getD_eq_getElem _ _ (by omega)]
  · have next : r + (rows ++ [row]).length = r + 1 + rows.length := by simp; omega
    rw [Function.update_self, scrolled, if_pos (Nat.lt_succ_self r), next, ← List.append_assoc,
      ← whole, List.getD_eq_getElem _ _ (by simp), List.getElem_concat_length rfl]
  · rw [Function.update_of_ne (Nat.ne_of_gt behind), shift, if_neg (by omega), scrolled,
      if_neg (by omega), scrolled, if_neg (by omega)]

/-- The new row is made of the row `last`. -/
theorem write_shift {last : Nat} (g : Nat → Nat → α) (rows : List (Nat → α)) (x : Nat)
    (text : List α) :
    write (shift (last + 1) (scrolled (last + 1) g rows)) last x text =
      scrolled (last + 1) g (rows ++ [overlay (g (last + 1)) x text]) := by
  have bottom : shift (last + 1) (scrolled (last + 1) g rows) last = g (last + 1) := by
    rw [shift, if_pos (Nat.lt_succ_self last), scrolled, if_neg (Nat.lt_irrefl _)]
  rw [scrolled_concat, write, bottom]

/-- Text over the row that came in last. -/
theorem write_scrolled {last : Nat} (g : Nat → Nat → α) (rows : List (Nat → α)) (row : Nat → α)
    (x : Nat) (text : List α) :
    write (scrolled (last + 1) g (rows ++ [row])) last x text =
      scrolled (last + 1) g (rows ++ [overlay row x text]) := by
  rw [scrolled_concat, scrolled_concat, write, Function.update_self, Function.update_idem]

end Grids

end Canvas
