import HiveRK.Queen.Control.Editor

/-!
# The commands of the console

`handleCMD` compares the first word of a line with the names of the commands, one after the
other, and answers 1 for `exit` alone. What the commands do is shown on the screen or ends the
machine; here it matters which of them is run.
-/

namespace HiveRK.Control

open Machine Util Words LineEditor
open Display (TextAt ascii)

inductive Command where
  | clear
  | tea
  | gun
  | reboot
  | listBees
  | exit
  | fox
deriving DecidableEq, Repr

/-- The loop of `cmpStr`, with the last `i`. -/
def cmpLoop (s1 s2 : Nat → Byte) : Nat → Nat → Exec Nat
  | 0, _ => .error .fuel
  | fuel + 1, i =>
      if s1 i ≠ 0 ∧ s2 i ≠ 0 then
        if s1 i ≠ s2 i then .ok i else cmpLoop s1 s2 fuel (i + 1)
      else .ok i

def cmpStr (fuel : Nat) (s1 s2 : Nat → Byte) : Exec Bool := do
  let i ← cmpLoop s1 s2 fuel 0
  .ok (s1 i = s2 i)

/-- The names in the order in which they are compared. -/
def commands : List (List Char × Command) :=
  [(['c', 'l', 'e', 'a', 'r'], .clear), (['t', 'e', 'a'], .tea), (['g', 'u', 'n'], .gun),
    (['r', 'e', 'b', 'o', 'o', 't'], .reboot),
    (['l', 'i', 's', 't', '-', 'b', 'e', 'e', 's'], .listBees), (['l', 'b'], .listBees),
    (['e', 'x', 'i', 't'], .exit), (['f', 'o', 'x'], .fox)]

/-- A string constant. -/
def literal (name : List Char) (i : Nat) : Byte := (name.map ascii).getD i 0

/-- The chain of comparisons. -/
def select (fuel : Nat) (cmd : Nat → Byte) : List (List Char × Command) → Exec (Option Command)
  | [] => .ok none
  | (name, command) :: rest => do
      if ← cmpStr fuel cmd (literal name) then .ok (some command) else select fuel cmd rest

/-- `handleCMD` up to the command that it runs. Its arrays are not initialised. -/
def handleCMD (fuel : Nat) (buf : Nat → Byte) (arrays : Fin 5 → Nat → Byte) :
    Exec (Option Command) := do
  let args ← parseArgs fuel buf (.fresh arrays)
  select fuel args.s1.chars commands

/-- What `ControlComb` sees of `handleCMD`. -/
def returnsOne (arrays : Fin 5 → Nat → Byte) (buf : Nat → Byte) : Bool :=
  match handleCMD 61 buf arrays with
  | .ok (some .exit) => true
  | _ => false

/-- The command of a line: that of its first word, and none if the line begins with a space. -/
def commandOf (text : List Byte) : Option Command :=
  (commands.map fun entry => (entry.1.map ascii, entry.2)).lookup ((taken text).getD 0 [])

section Compare

variable {s1 s2 : Nat → Byte} {u v : List Byte} {fuel i : Nat}

/-- The loop stops at the first difference. -/
theorem cmpLoop_eq (at_u : TextAt s1 i u) (at_v : TextAt s2 i v) (enough : u.length < fuel) :
    ∃ j, cmpLoop s1 s2 fuel i = .ok j ∧ (s1 j = s2 j ↔ u = v) := by
  induction u generalizing i v fuel with
  | nil =>
      obtain ⟨fuel, rfl⟩ := Nat.exists_eq_succ_of_ne_zero (Nat.ne_of_gt enough)
      have nul : s1 i = 0 := at_u
      refine ⟨i, if_neg fun more => more.1 nul, ?_⟩
      rw [nul, eq_comm, nul_iff at_v, eq_comm]
  | cons ch u ih =>
      obtain ⟨fuel, rfl⟩ := Nat.exists_eq_succ_of_ne_zero (Nat.ne_of_gt (Nat.zero_lt_of_lt enough))
      obtain ⟨here, some, rest⟩ := at_u
      cases v with
      | nil =>
          have nul : s2 i = 0 := at_v
          refine ⟨i, if_neg fun more => more.2 nul, ?_⟩
          rw [here, nul]
          exact iff_of_false some (List.cons_ne_nil ch u)
      | cons ch' v =>
          obtain ⟨here', some', rest'⟩ := at_v
          by_cases same : ch = ch'
          · obtain ⟨j, found, equal⟩ := ih rest rest' (Nat.lt_of_succ_lt_succ enough)
            refine ⟨j, ?_, ?_⟩
            · rw [cmpLoop, here, here', if_pos ⟨some, some'⟩, if_neg (not_not.mpr same), found]
            · rw [equal, same, List.cons.injEq, and_iff_right rfl]
          · refine ⟨i, ?_, ?_⟩
            · rw [cmpLoop, here, here', if_pos ⟨some, some'⟩, if_pos same]
            · rw [here, here', List.cons.injEq]
              exact iff_of_false same fun both => same both.1

/-- `cmpStr` answers whether the strings are equal. -/
theorem cmpStr_eq (at_u : TextAt s1 0 u) (at_v : TextAt s2 0 v) (enough : u.length < fuel) :
    cmpStr fuel s1 s2 = .ok (decide (u = v)) := by
  obtain ⟨j, found, equal⟩ := cmpLoop_eq at_u at_v enough
  rw [cmpStr, found]
  exact congrArg Except.ok (decide_eq_decide.mpr equal)

end Compare

section Lines

variable {fuel : Nat} {cmd : Nat → Byte} {w : List Byte}

theorem names_plain : ∀ entry ∈ commands, 0 ∉ entry.1.map ascii := by decide

theorem select_eq (at_w : TextAt cmd 0 w) (enough : w.length < fuel)
    {table : List (List Char × Command)} (plain : ∀ entry ∈ table, 0 ∉ entry.1.map ascii) :
    select fuel cmd table =
      .ok ((table.map fun entry => (entry.1.map ascii, entry.2)).lookup w) := by
  induction table with
  | nil => rfl
  | cons entry rest ih =>
      obtain ⟨name, command⟩ := entry
      obtain ⟨first, later⟩ := List.forall_mem_cons.mp plain
      have compared : cmpStr fuel cmd (literal name) = .ok (decide (w = name.map ascii)) :=
        cmpStr_eq at_w (Display.CString.ofList (name.map ascii) first).holds enough
      rw [select, compared, List.map_cons, List.lookup_cons]
      by_cases same : w = name.map ascii
      · rw [decide_eq_true same, beq_iff_eq.mpr same]
        rfl
      · rw [decide_eq_false same, beq_eq_false_iff_ne.mpr same]
        exact ih later

theorem wrote_text {b x : Buffer} (wrote : Wrote b w x) (plain : 0 ∉ w) : TextAt x.chars 0 w := by
  refine Display.textAt_of_getD plain fun j hj => ?_
  rw [Nat.zero_add, wrote.chars, if_pos hj]

/-- `handleCMD` runs the command of the line. -/
theorem handleCMD_eq (line : Line) (arrays : Fin 5 → Nat → Byte) (more : fuel > 60) :
    handleCMD fuel line.chars arrays = .ok (commandOf line.text) := by
  obtain ⟨s, run, takes⟩ := parseArgs_takes line (.fresh arrays)
  have part := taken_sublist line.text 0
  have plain : 0 ∉ (taken line.text).getD 0 [] := fun nul =>
    zero_notMem_text line.holds (part.subset nul)
  have short := Nat.lt_of_le_of_lt (Nat.le_trans part.length_le line.short) more
  rw [handleCMD, run fuel more]
  exact select_eq (wrote_text takes.s1 plain) short names_plain

theorem returnsOne_iff (line : Line) (arrays : Fin 5 → Nat → Byte) :
    returnsOne arrays line.chars = true ↔ commandOf line.text = some .exit := by
  rw [returnsOne, handleCMD_eq line arrays (by decide)]
  cases commandOf line.text with
  | none => simp
  | some command =>
      cases command with
      | exit => simp
      | _ => simp

end Lines

section Runs

variable {c c' : Console} {e : Editor Byte} {ends : Bool}

/-- The line that ends the console. -/
def Exits (text : List Byte) : Prop := commandOf text = some .exit

instance : DecidablePred Exits := fun _ => inferInstanceAs (Decidable (_ = _))

theorem Edits.answer (edits : Edits c e) (some : e.line ≠ []) (arrays : Fin 5 → Nat → Byte) :
    returnsOne arrays c.buf.chars = true ↔ Exits e.line :=
  returnsOne_iff ⟨⟨_, _, edits.text some⟩, edits.fits.line⟩ arrays

/-- A key submits no line, or one that ends the console if it is `exit`. -/
theorem Edits.press_submits (edits : Edits c e) {arrays : Fin 5 → Nat → Byte} {key : Key Byte}
    (step : c.press (returnsOne arrays) key = (c', ends)) :
    (LineEditor.press 60 e key).submitted = e.submitted ∧ ends = false ∨
      ∃ line, (LineEditor.press 60 e key).submitted = e.submitted ++ [line] ∧
        (ends = true ↔ Exits line) := by
  cases key with
  | insert ch =>
      refine .inl ?_
      rw [Console.press] at step
      rw [LineEditor.press]
      split_ifs at step ⊢
      all_goals exact ⟨rfl, (congrArg Prod.snd step).symm⟩
  | erase =>
      refine .inl ⟨rfl, ?_⟩
      rw [Console.press] at step
      split_ifs at step
      all_goals exact (congrArg Prod.snd step).symm
  | submit =>
      rw [Console.press] at step
      rw [LineEditor.press]
      by_cases empty : e.line = []
      · have none := edits.line_nil_iff.mpr empty
        rw [if_neg (by omega)] at step
        rw [if_pos empty]
        exact .inl ⟨rfl, (congrArg Prod.snd step).symm⟩
      · have some : c.index > 0 := Nat.pos_of_ne_zero (mt edits.line_nil_iff.mp empty)
        rw [if_pos some] at step
        rw [if_neg empty]
        refine .inr ⟨e.line, rfl, ?_⟩
        rw [← edits.answer empty arrays]
        by_cases exit : returnsOne arrays c.buf.chars = true
        · rw [if_pos exit] at step
          exact iff_of_true (congrArg Prod.snd step).symm exit
        · rw [if_neg exit] at step
          exact iff_of_false (fun ends => Bool.false_ne_true ((congrArg Prod.snd step).trans ends))
            exit
  | ignore => exact .inl ⟨rfl, (congrArg Prod.snd step).symm⟩

/-- The console reads on until a line is `exit`. -/
theorem Edits.reads (edits : Edits c e) (none : ∀ line ∈ e.submitted, ¬ Exits line)
    (arrays : Fin 5 → Nat → Byte) (scs : List Byte) :
    ∃ used rest c', used ++ rest = scs ∧
      controlComb (returnsOne arrays) c scs = (c', rest) ∧
      Agrees c' (edit 60 e (used.map keyOf)) ∧
      (edit 60 e (used.map keyOf)).submitted =
        through Exits (edit 60 e (scs.map keyOf)).submitted ∧
      ((∀ line ∈ (edit 60 e (scs.map keyOf)).submitted, ¬ Exits line) → rest = []) := by
  induction scs generalizing c e with
  | nil => exact ⟨[], [], c, rfl, rfl, edits.toAgrees, (through_of_not none).symm, fun _ => rfl⟩
  | cons sc scs ih =>
      have read := read_eq (returnsOne arrays) c sc
      obtain ⟨c', step, next⟩ | ⟨c', step, agrees, -⟩ :=
        edits.press (returnsOne arrays) (keyOf sc) (keyOf_ne_nul sc)
      · have none' : ∀ line ∈ (LineEditor.press 60 e (keyOf sc)).submitted, ¬ Exits line := by
          obtain ⟨same, -⟩ | ⟨line, more, answer⟩ := edits.press_submits step
          · rwa [same]
          · rw [more]
            intro other member
            obtain before | last := List.mem_append.mp member
            · exact none other before
            · rw [List.mem_singleton.mp last]
              exact fun exit => Bool.false_ne_true (answer.mpr exit)
        obtain ⟨used, rest, c'', split, run, agrees, lines, all⟩ := ih next none'
        refine ⟨sc :: used, rest, c'', congrArg (sc :: ·) split, ?_, agrees, lines, all⟩
        rw [controlComb, read, step]
        exact run
      · obtain ⟨-, exit⟩ | ⟨line, more, answer⟩ := edits.press_submits step
        · exact absurd exit.symm Bool.false_ne_true
        · have exit := answer.mp rfl
          obtain ⟨later, whole⟩ :=
            edit_submitted 60 (LineEditor.press 60 e (keyOf sc)) (scs.map keyOf)
          have lines : (edit 60 e ((sc :: scs).map keyOf)).submitted =
              e.submitted ++ (line :: later) := by
            rw [List.append_cons, ← more]
            exact whole
          refine ⟨[sc], scs, c', rfl, ?_, agrees, ?_, fun all => ?_⟩
          · rw [controlComb, read, step]
          · rw [lines, through_append none, through, if_pos exit]
            exact more
          · rw [lines] at all
            exact absurd exit (all line (List.mem_append_right _ List.mem_cons_self))

end Runs

/-- Whatever scancodes come and whatever the arrays held: the commands that the console runs are
those of the lines that an editor submits, in their order, up to the first one whose first word
is `exit`. If there is none, all scancodes are read. -/
theorem console_runs_commands (chars : Nat → Byte) (arrays : Fin 5 → Nat → Byte)
    (scs : List Byte) :
    ∃ used rest c, used ++ rest = scs ∧
      controlComb (returnsOne arrays) (.start chars) scs = (c, rest) ∧
      (edit 60 LineEditor.start (used.map keyOf)).submitted =
        through Exits (edit 60 LineEditor.start (scs.map keyOf)).submitted ∧
      List.Forall₂ (fun buf line => handleCMD 61 buf arrays = .ok (commandOf line)) c.passed
        (through Exits (edit 60 LineEditor.start (scs.map keyOf)).submitted) ∧
      ((∀ line ∈ (edit 60 LineEditor.start (scs.map keyOf)).submitted, ¬ Exits line) →
        rest = []) := by
  obtain ⟨used, rest, c, split, run, agrees, lines, all⟩ :=
    (edits_start chars).reads (fun _ none => absurd none List.not_mem_nil) arrays scs
  refine ⟨used, rest, c, split, run, lines, ?_, all⟩
  have fits : Fits 60 (edit 60 LineEditor.start (used.map keyOf)) := (fits_start 60).edit _
  rw [← lines]
  refine List.forall₂_iff_get.mpr ⟨agrees.passed.length_eq, fun i hi hi' => ?_⟩
  have text := agrees.passed.get hi hi'
  have short := (fits.submitted _ (List.getElem_mem hi')).2
  exact handleCMD_eq ⟨⟨_, _, text⟩, short⟩ arrays (by decide)

end HiveRK.Control
