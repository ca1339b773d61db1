import HiveRK.LineEditor.Basic
import HiveRK.Queen.Control.Arguments

/-!
# The line of the console

The buffer of `ControlComb` holds the line of an editor for 60 characters. The NUL behind the
line is there as soon as a character was typed; before that the buffer is not initialised, and
an empty line is never read.
-/

namespace HiveRK.Control

open Machine Util LineEditor
open Display (TextAt ascii textAt_of_getD)

/-- What a scancode means to an editor. Break codes and keys without a character mean nothing. -/
def keyOf (sc : Byte) : Key Byte :=
  if sc &&& 0x80 ≠ 0 then .ignore
  else
    match scancodeToAscii.lookup sc.toNat with
    | none => .ignore
    | some ch =>
        if ascii ch = backspace then .erase
        else if ascii ch = enter then .submit
        else .insert (ascii ch)

/-- The strings that were passed are the lines that were submitted, and the buffer is not
written behind its end. -/
structure Agrees (c : Console) (e : Editor Byte) : Prop where
  passed : List.Forall₂ (fun chars s => TextAt chars 0 s) c.passed e.submitted
  inside : ∀ i ∈ c.buf.written, i ≤ 60

/-- The buffer holds the line. -/
structure Edits (c : Console) (e : Editor Byte) : Prop extends Agrees c e where
  index : c.index = e.line.length
  cells : ∀ (i : Nat) (h : i < e.line.length), c.buf.chars i = e.line[i]
  nul : 0 < c.index → c.buf.chars c.index = 0
  plain : 0 ∉ e.line
  fits : Fits 60 e

section Keys

variable {sc ch : Byte}

theorem char_ne_zero : ∀ e ∈ scancodeToAscii, ascii e.2 ≠ 0 := by decide

theorem ascii_ne_zero {n : Nat} {ch : Char} (found : scancodeToAscii.lookup n = some ch) :
    ascii ch ≠ 0 := by
  obtain ⟨before, behind, split, -⟩ := List.lookup_eq_some_iff.mp found
  refine char_ne_zero (n, ch) ?_
  rw [split]
  exact List.mem_append_right before List.mem_cons_self

/-- A key acts by its character. -/
theorem keyOf_eq (sc : Byte) : keyOf sc =
    if scancodeToChar sc = 0 then .ignore
    else if scancodeToChar sc = backspace then .erase
    else if scancodeToChar sc = enter then .submit
    else .insert (scancodeToChar sc) := by
  rw [keyOf, scancodeToChar]
  by_cases released : sc &&& 0x80 ≠ 0
  · rw [if_pos released, if_pos released, if_pos rfl]
  · rw [if_neg released, if_neg released]
    cases found : scancodeToAscii.lookup sc.toNat with
    | none => rfl
    | some ch =>
        have some := ascii_ne_zero found
        exact (if_neg some).symm

theorem insert_ne_zero (key : keyOf sc = .insert ch) : ch ≠ 0 := by
  rw [keyOf_eq] at key
  split_ifs at key with some
  exact Key.insert.inj key ▸ some

end Keys

section Steps

variable {c : Console} {e : Editor Byte} {ch : Byte}

/-- `ControlComb` by what the scancode means. -/
def Console.press (handleCMD : (Nat → Byte) → Bool) (c : Console) : Key Byte → Console × Bool
  | .insert ch =>
      if c.index < 60 then
        ({ c with buf := (c.buf.set c.index ch).set (c.index + 1) 0, index := c.index + 1 }, false)
      else (c, false)
  | .erase =>
      if c.index = 0 then (c, false)
      else ({ c with index := c.index - 1, buf := c.buf.set (c.index - 1) 0 }, false)
  | .submit =>
      if c.index > 0 then
        let c := { c with passed := c.passed ++ [c.buf.chars] }
        if handleCMD c.buf.chars then (c, true)
        else ({ c with buf := c.buf.set 0 0, index := 0 }, false)
      else (c, false)
  | .ignore => (c, false)

theorem read_eq (handleCMD : (Nat → Byte) → Bool) (c : Console) (sc : Byte) :
    c.read handleCMD sc = c.press handleCMD (keyOf sc) := by
  rw [keyOf_eq, Console.read]
  by_cases none : scancodeToChar sc = 0
  · rw [if_pos none, if_pos none]
    rfl
  · rw [if_neg none, if_neg none]
    by_cases back : scancodeToChar sc = backspace
    · rw [if_pos back, if_pos back]
      rfl
    · rw [if_neg back, if_neg back]
      by_cases line : scancodeToChar sc = enter
      · rw [if_pos line, if_pos line]
        rfl
      · rw [if_neg line, if_neg line]
        rfl

theorem Edits.line_nil_iff (edits : Edits c e) : c.index = 0 ↔ e.line = [] := by
  rw [edits.index, List.length_eq_zero_iff]

/-- The buffer as `handleCMD` reads it. -/
theorem Edits.text (edits : Edits c e) (some : e.line ≠ []) : TextAt c.buf.chars 0 e.line := by
  refine textAt_of_getD edits.plain fun i hi => ?_
  rw [Nat.zero_add]
  obtain inside | last := Nat.lt_or_eq_of_le hi
  · rw [edits.cells i inside, List.getD_eq_getElem _ _ inside]
  · have nul := edits.nul (Nat.pos_of_ne_zero fun none => some (edits.line_nil_iff.mp none))
    rw [edits.index] at nul
    rw [last, nul, List.getD_eq_default _ _ (Nat.le_refl _)]

theorem Edits.insert (edits : Edits c e) (room : c.index < 60) (some : ch ≠ 0) :
    Edits { c with buf := (c.buf.set c.index ch).set (c.index + 1) 0, index := c.index + 1 }
      { e with line := e.line ++ [ch] } where
  index := by
    rw [List.length_append, List.length_singleton, ← edits.index]
  cells i hi := by
    rw [List.length_append, List.length_singleton, ← edits.index] at hi
    rw [Buffer.set_chars_of_ne _ (Nat.ne_of_lt hi)]
    by_cases last : i = c.index
    · simp only [last, Buffer.set_chars_self, edits.index, List.getElem_concat_length]
    · have inside : i < e.line.length := by
        rw [← edits.index]
        omega
      rw [Buffer.set_chars_of_ne _ last, edits.cells i inside, List.getElem_append_left inside]
  nul _ := Buffer.set_chars_self ..
  plain nul := by
    obtain before | last := List.mem_append.mp nul
    · exact edits.plain before
    · exact some (List.mem_singleton.mp last).symm
  fits := by
    refine ⟨?_, edits.fits.submitted⟩
    rw [List.length_append, List.length_singleton, ← edits.index]
    exact room
  passed := edits.passed
  inside i hi := by
    rw [Buffer.mem_set_written, Buffer.mem_set_written] at hi
    obtain nul | last | before := hi
    · omega
    · omega
    · exact edits.inside i before

theorem Edits.erase (edits : Edits c e) :
    Edits { c with index := c.index - 1, buf := c.buf.set (c.index - 1) 0 }
      { e with line := e.line.dropLast } where
  index := by
    rw [List.length_dropLast, ← edits.index]
  cells i hi := by
    have shorter := hi
    rw [List.length_dropLast, ← edits.index] at shorter
    have inside : i < e.line.length := by
      rw [← edits.index]
      omega
    rw [Buffer.set_chars_of_ne _ (Nat.ne_of_lt shorter), edits.cells i inside,
      List.getElem_dropLast]
  nul _ := Buffer.set_chars_self ..
  plain nul := edits.plain (List.mem_of_mem_dropLast nul)
  fits := edits.fits.press .erase
  passed := edits.passed
  inside i hi := by
    have short := edits.fits.line
    rw [← edits.index] at short
    obtain nul | before := Buffer.mem_set_written.mp hi
    · omega
    · exact edits.inside i before

theorem Edits.submitted (edits : Edits c e) (some : e.line ≠ []) :
    List.Forall₂ (fun chars s => TextAt chars 0 s) (c.passed ++ [c.buf.chars])
      (e.submitted ++ [e.line]) :=
  List.rel_append edits.passed (.cons (edits.text some) .nil)

theorem Edits.submit (edits : Edits c e) (some : e.line ≠ []) :
    Edits ⟨c.buf.set 0 0, 0, c.passed ++ [c.buf.chars]⟩ ⟨[], e.submitted ++ [e.line]⟩ where
  passed := edits.submitted some
  inside i hi := by
    obtain nul | before := Buffer.mem_set_written.mp hi
    · omega
    · exact edits.inside i before
  index := rfl
  cells i none := absurd none (Nat.not_lt_zero i)
  nul more := absurd more (Nat.lt_irrefl 0)
  plain := List.not_mem_nil
  fits := by
    have fits := edits.fits.press .submit
    rwa [LineEditor.press, if_neg some] at fits

/-- A key changes the console and the editor alike, and nothing but a line that `handleCMD`
answers ends the console. -/
theorem Edits.press (edits : Edits c e) (handleCMD : (Nat → Byte) → Bool) (key : Key Byte)
    (plain : key ≠ .insert 0) :
    (∃ c', c.press handleCMD key = (c', false) ∧ Edits c' (press 60 e key)) ∨
      ∃ c', c.press handleCMD key = (c', true) ∧ Agrees c' (press 60 e key) ∧
        ∃ chars, c'.passed.getLast? = some chars ∧ handleCMD chars = true := by
  cases key with
  | ignore => exact .inl ⟨c, rfl, edits⟩
  | insert ch =>
      refine .inl ?_
      rw [Console.press, LineEditor.press, ← edits.index]
      split_ifs with room
      · exact ⟨_, rfl, edits.insert room fun none => plain (none ▸ rfl)⟩
      · exact ⟨c, rfl, edits⟩
  | erase =>
      refine .inl ?_
      rw [Console.press]
      split_ifs with empty
      · -- On an empty line the editor has nothing to drop.
        refine ⟨c, rfl, ?_⟩
        obtain ⟨line, submitted⟩ := e
        obtain rfl : line = [] := edits.line_nil_iff.mp empty
        exact edits
      · exact ⟨_, rfl, edits.erase⟩
  | submit =>
      rw [Console.press, LineEditor.press]
      by_cases empty : e.line = []
      · have none := edits.line_nil_iff.mpr empty
        rw [if_pos empty, if_neg (by omega)]
        exact .inl ⟨c, rfl, edits⟩
      · have some : c.index > 0 := Nat.pos_of_ne_zero (mt edits.line_nil_iff.mp empty)
        rw [if_neg empty, if_pos some]
        by_cases exit : handleCMD c.buf.chars = true
        · refine .inr ⟨_, if_pos exit, ⟨edits.submitted empty, edits.inside⟩, c.buf.chars, ?_, exit⟩
          exact List.getLast?_concat
        · exact .inl ⟨_, if_neg exit, edits.submit empty⟩

end Steps

section Runs

variable {handleCMD : (Nat → Byte) → Bool} {c : Console} {e : Editor Byte}

theorem keyOf_ne_nul (sc : Byte) : keyOf sc ≠ .insert 0 := fun key => insert_ne_zero key rfl

/-- The scancodes are read one after the other until `handleCMD` ends the console. -/
theorem Edits.run (edits : Edits c e) (scs : List Byte) :
    ∃ used rest c', used ++ rest = scs ∧ controlComb handleCMD c scs = (c', rest) ∧
      (rest ≠ [] → ∃ chars, c'.passed.getLast? = some chars ∧ handleCMD chars = true) ∧
      Agrees c' (edit 60 e (used.map keyOf)) := by
  induction scs generalizing c e with
  | nil => exact ⟨[], [], c, rfl, rfl, fun more => absurd rfl more, edits.toAgrees⟩
  | cons sc scs ih =>
      have read := read_eq handleCMD c sc
      obtain ⟨c', step, next⟩ | ⟨c', step, agrees, last⟩ :=
        edits.press handleCMD (keyOf sc) (keyOf_ne_nul sc)
      · obtain ⟨used, rest, c'', split, run, exit, agrees⟩ := ih next
        refine ⟨sc :: used, rest, c'', congrArg (sc :: ·) split, ?_, exit, agrees⟩
        rw [controlComb, read, step]
        exact run
      · refine ⟨[sc], scs, c', rfl, ?_, fun _ => last, agrees⟩
        rw [controlComb, read, step]

theorem edits_start (chars : Nat → Byte) : Edits (.start chars) LineEditor.start where
  passed := .nil
  inside _ none := absurd none List.not_mem_nil
  index := rfl
  cells i none := absurd none (Nat.not_lt_zero i)
  nul more := absurd more (Nat.lt_irrefl 0)
  plain := List.not_mem_nil
  fits := fits_start 60

/-- A submitted line is one that `parseArgs` takes. -/
theorem Agrees.lines (agrees : Agrees c e) (fits : Fits 60 e) {chars : Nat → Byte}
    (passed : chars ∈ c.passed) : ∃ line : Line, line.chars = chars ∧ line.text ≠ [] := by
  obtain ⟨i, hi, rfl⟩ := List.getElem_of_mem passed
  have hi' : i < e.submitted.length := agrees.passed.length_eq ▸ hi
  have text : TextAt c.passed[i] 0 e.submitted[i] := agrees.passed.get hi hi'
  obtain ⟨some, short⟩ := fits.submitted _ (List.getElem_mem hi')
  exact ⟨⟨⟨_, _, text⟩, short⟩, rfl, some⟩

end Runs

/-- Whatever scancodes come, `ControlComb` reads all of them or those up to a line for which
`handleCMD` answers that the console ends. The strings that it passed are the lines that an
editor submits, and no index behind the buffer was written. -/
theorem controlComb_edits (handleCMD : (Nat → Byte) → Bool) (chars : Nat → Byte)
    (scs : List Byte) :
    ∃ used rest c, used ++ rest = scs ∧ controlComb handleCMD (.start chars) scs = (c, rest) ∧
      (rest ≠ [] → ∃ line, c.passed.getLast? = some line ∧ handleCMD line = true) ∧
      List.Forall₂ (fun line s => TextAt line 0 s) c.passed
        (edit 60 LineEditor.start (used.map keyOf)).submitted ∧
      ∀ i ∈ c.buf.written, i ≤ 60 := by
  obtain ⟨used, rest, c, split, run, exit, agrees⟩ := (edits_start chars).run scs
  exact ⟨used, rest, c, split, run, exit, agrees.passed, agrees.inside⟩

/-- Everything that `ControlComb` passes is a line for `parseArgs`, and not an empty one. -/
theorem controlComb_lines (handleCMD : (Nat → Byte) → Bool) (chars : Nat → Byte)
    (scs : List Byte) :
    ∀ passed ∈ (controlComb handleCMD (.start chars) scs).1.passed,
      ∃ line : Line, line.chars = passed ∧ line.text ≠ [] := by
  obtain ⟨used, rest, c, -, run, -, agrees⟩ := (edits_start chars).run scs
  intro passed member
  rw [run] at member
  exact agrees.lines ((fits_start 60).edit _) member

end HiveRK.Control
