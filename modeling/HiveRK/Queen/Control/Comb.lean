import HiveRK.Queen.Control.Listing
import HiveRK.Queen.Control.Pictures

/-!
# The console on the screen

`ControlComb` with all that it shows. In each pass of its loop it reads a scancode if there is
one, and unless that means nothing it shows the prompt, the line and the cursor in row 24. On
Enter the rows move up by one, and the command writes to the rows above or moves them again.

`Scene` says what is to be seen, in terms of an editor's line and of rows.
-/

namespace HiveRK.Control

open Machine Util Words LineEditor Canvas Queen
open Display (TextAt ascii)

/-- What the console has besides its own variables: the first names page, and the arrays of
`handleCMD` and `SYSprintI`, which are not initialised. -/
structure Surroundings where
  bees : Nat
  arrays : Fin 5 → Nat → Byte
  buf : Buffer

/-- What `handleCMD` does for a command. `reboot` resets the machine. -/
def runCommand (env : Surroundings) (fuel : Nat) (m : Mem) : Command → Exec Mem
  | .clear => .ok (sysClear m)
  | .tea => sysPrint fuel (fun _ => tea.chars) 0 0 0x20 m
  | .gun => sysPrint fuel (fun _ => gun.chars) 0 0 0x20 m
  | .reboot => .error .trap
  | .listBees => listBees fuel env.bees env.buf m
  | .exit => .ok m
  | .fox => sysPrint fuel (fun _ => fox.chars) 0 0 0x20 m

/-- `handleCMD` as a whole, and whether it returns 1. -/
def handleLine (env : Surroundings) (fuel : Nat) (buf : Nat → Byte) (m : Mem) :
    Exec (Mem × Bool) := do
  match ← handleCMD fuel buf env.arrays with
  | none => .ok (m, false)
  | some command =>
      let m ← runCommand env fuel m command
      .ok (m, command = .exit)

/-- The console, the variable `last` of `SYScursor` and the memory. -/
structure Comb where
  console : Console
  last : Nat
  mem : Mem

/-- The end of a pass, at the time `t`. -/
def Comb.draw (fuel t : Nat) (s : Comb) : Exec Comb := do
  let m ← sysPrint fuel (fun _ => literal ['>', '>', ' ']) 0 24 0xF0 s.mem
  let m ← sysPrint fuel (fun _ => s.console.buf.chars) 3 24 0xF0 m
  let (last, m) ← sysCursor fuel 2 (s.console.index + 3) s.last t m
  .ok ⟨s.console, last, m⟩

/-- A pass that is not cut short, and does not end the loop. -/
def Comb.go (fuel t : Nat) (s : Comb) : Exec (Comb × Bool) := do
  let s ← s.draw fuel t
  .ok (s, false)

/-- A pass with a scancode, and whether the function returns. -/
def Comb.read (env : Surroundings) (fuel t : Nat) (s : Comb) (sc : Byte) : Exec (Comb × Bool) :=
  let c := s.console
  let key := scancodeToChar sc
  if key = 0 then .ok (s, false)
  else if key = backspace then
    if c.index = 0 then .ok (s, false)
    else
      let c := { c with index := c.index - 1, buf := c.buf.set (c.index - 1) 0 }
      Comb.go fuel t ⟨c, s.last, sysLine 24 s.mem⟩
  else if key = enter then do
    let m ← sysPrint fuel (fun _ => literal [' ']) (c.index + 3) 24 0xF0 s.mem
    let m := sysLine 24 (sysShift m)
    if c.index > 0 then
      let c := { c with passed := c.passed ++ [c.buf.chars] }
      let (m, exit) ← handleLine env fuel c.buf.chars m
      if exit then .ok (⟨c, s.last, m⟩, true)
      else Comb.go fuel t ⟨{ c with buf := c.buf.set 0 0, index := 0 }, s.last, m⟩
    else .ok (⟨c, s.last, m⟩, false)
  else if c.index < 60 then
    let c := { c with buf := (c.buf.set c.index key).set (c.index + 1) 0, index := c.index + 1 }
    Comb.go fuel t ⟨c, s.last, s.mem⟩
  else Comb.go fuel t s

/-- A pass: the scancode if there is one, and the time. -/
structure Pass where
  sc : Option Byte
  t : Nat

def Comb.pass (env : Surroundings) (fuel : Nat) (s : Comb) (p : Pass) : Exec (Comb × Bool) :=
  match p.sc with
  | some sc => s.read env fuel p.t sc
  | none => s.go fuel p.t

/-- The passes up to the return, and those behind it. -/
def Comb.run (env : Surroundings) (fuel : Nat) : Comb → List Pass → Exec (Comb × List Pass)
  | s, [] => .ok (s, [])
  | s, p :: ps => do
      let (s, returns) ← s.pass env fuel p
      if returns then .ok (s, ps) else Comb.run env fuel s ps

/-- `ControlComb` with these arrays and on this screen. -/
def Comb.start (chars : Nat → Byte) (m : Mem) : Comb := ⟨.start chars, 1, m⟩

/-! ### What is to be seen -/

/-- The line that is edited, the rows of the screen as they are without it, and whether it is
shown over row 24. -/
structure Scene where
  editor : Editor Byte
  rows : Nat → Nat → Cell
  shown : Bool

def prompt : List Byte := ['>', '>', ' '].map ascii

def bright (text : List Byte) : List Cell := colored 0x0F text

/-- What one sees, with `ch` behind the line. -/
def Scene.view (a : Scene) (ch : Byte) : Nat → Nat → Cell :=
  if a.shown then write a.rows 24 0 (bright (prompt ++ a.editor.line ++ [ch])) else a.rows

/-- The rows after a command. -/
def rowsAfter (names : List (List Byte)) (g : Nat → Nat → Cell) :
    Option Command → Nat → Nat → Cell
  | some .clear => fun _ _ => dark
  | some .tea => writeLines g 0 0 tea.cells
  | some .gun => writeLines g 0 0 gun.cells
  | some .listBees => scrolled 24 g (listing names)
  | some .fox => writeLines g 0 0 fox.cells
  | some .reboot | some .exit | none => g

/-- The line goes up to row 23, without a cursor, and row 24 becomes empty. -/
def Scene.entered (a : Scene) : Nat → Nat → Cell :=
  let g := if a.shown then a.view space else write a.rows 24 3 (bright [space])
  Function.update (shift 24 g) 24 fun _ => dark

/-- What a key makes of a scene. -/
def Scene.press (names : List (List Byte)) (a : Scene) : Key Byte → Scene
  | .ignore => a
  | .insert ch => ⟨LineEditor.press 60 a.editor (.insert ch), a.rows, true⟩
  | .erase =>
      if a.editor.line = [] then a
      else ⟨LineEditor.press 60 a.editor .erase, Function.update a.rows 24 fun _ => dark, true⟩
  | .submit =>
      if a.editor.line = [] then ⟨a.editor, a.entered, false⟩
      else
        let command := commandOf a.editor.line
        ⟨LineEditor.press 60 a.editor .submit, rowsAfter names a.entered command,
          command ≠ some .exit⟩

def Scene.pass (names : List (List Byte)) (a : Scene) (p : Pass) : Scene :=
  match p.sc with
  | some sc => a.press names (keyOf sc)
  | none => { a with shown := true }

section Drawing

variable {m : Mem} {g : Nat → Nat → Cell} {s : Comb} {e : Editor Byte} {a : Scene} {ch : Byte}

theorem bright_append (text more : List Byte) :
    bright (text ++ more) = bright text ++ bright more := List.map_append

theorem length_bright (text : List Byte) : (bright text).length = text.length := List.length_map _

/-- The end of a pass writes prompt, line and cursor over row 24. -/
theorem draw_returns (t : Nat) (edits : Edits s.console e)
    (text : TextAt s.console.buf.chars 0 e.line) (plain : enter ∉ e.line) (shows : Shows s.mem g) :
    ∃ last m' ch, CursorChar 2 ch ∧
      Shows m' (write g 24 0 (bright (prompt ++ e.line ++ [ch]))) ∧
      WritesWithin s.mem m' vidmem 4000 ∧
      Returns (fun fuel => s.draw fuel t) ⟨s.console, last, m'⟩ := by
  have short := edits.fits.line
  obtain ⟨m₁, shows₁, within₁, run₁⟩ := sysPrint_fixed 0xF0
    (Display.CString.ofList prompt (by decide)).holds (by decide) shows (show 24 < 25 by decide)
    (show 0 + 3 ≤ 80 by decide)
  obtain ⟨m₂, shows₂, within₂, run₂⟩ := sysPrint_fixed 0xF0 text plain shows₁
    (show 24 < 25 by decide) (show 3 + e.line.length ≤ 80 by omega)
  obtain ⟨last, m₃, ch, cursor, shows₃, within₃, run₃⟩ := sysCursor_shows
    (show (2 : Byte) ≠ 0 by decide) (by decide) s.last t shows₂
    (show 3 + e.line.length < 80 by omega)
  refine ⟨last, m₃, ch, cursor, ?_, (within₁.trans within₂).trans within₃, ?_⟩
  · rw [bright_append, write_append, bright_append, write_append, Nat.zero_add, Nat.zero_add,
      List.length_append, length_bright, length_bright]
    exact shows₃
  · rw [Nat.add_comm 3, ← edits.index] at run₃
    exact run₁.bind (run₂.bind (run₃.bind (.ok _)))

/-- A text that is long enough hides the line. -/
theorem Scene.view_write {text : List Cell} (long : a.editor.line.length + 4 ≤ text.length) :
    write (a.view ch) 24 0 text = write a.rows 24 0 text := by
  rw [Scene.view]
  split_ifs
  · have whole : (bright (prompt ++ a.editor.line ++ [ch])).length = a.editor.line.length + 4 := by
      simp [length_bright, prompt]
    exact write_write (whole ▸ long)
  · rfl

/-- Row 24 is all that the line hides. -/
theorem Scene.view_clear (row : Nat → Cell) :
    Function.update (a.view ch) 24 row = Function.update a.rows 24 row := by
  rw [Scene.view]
  split_ifs
  · exact Function.update_idem _ _ _
  · rfl

/-- A space hides the cursor. -/
theorem Scene.view_space (ch : Byte) (idle : a.shown = false → a.editor.line = []) :
    write (a.view ch) 24 (a.editor.line.length + 3) (bright [space]) =
      if a.shown then a.view space else write a.rows 24 3 (bright [space]) := by
  have split (c : Byte) : write a.rows 24 0 (bright (prompt ++ a.editor.line ++ [c])) =
      write (write a.rows 24 0 (bright (prompt ++ a.editor.line))) 24 (a.editor.line.length + 3)
        (bright [c]) := by
    rw [bright_append, write_append, Nat.zero_add, length_bright, List.length_append,
      Nat.add_comm a.editor.line.length]
    rfl
  cases shown : a.shown with
  | true =>
      simp only [Scene.view, shown, if_true, split]
      exact write_write (Nat.le_refl _)
  | false =>
      simp only [Scene.view, shown, Bool.false_eq_true, if_false, idle shown, List.length_nil,
        Nat.zero_add]

end Drawing

/-! ### A pass -/

/-- The surroundings in which the console runs: what the loader registered in `c` is not on the
screen, and has names that can be shown. -/
structure Surroundings.Sound (env : Surroundings) (c : Core) (bees : List Bee) : Prop where
  registered : Registered env.bees bees c
  off : c.memory ≤ vidmem ∨ vidmem + 4000 ≤ env.bees
  titled : ∀ b ∈ namedPrefix bees, Titled b

def names (bees : List Bee) : List (List Byte) := (namedPrefix bees).map title

/-- The scene is on the screen, and nothing else was written. -/
structure Visible (c : Core) (s : Comb) (a : Scene) : Prop where
  kept : WritesWithin c.mem s.mem vidmem 4000
  seen : ∃ ch, CursorChar 2 ch ∧ Shows s.mem (a.view ch)

/-- The console goes on from this scene. -/
structure Goes (c : Core) (s : Comb) (a : Scene) : Prop extends Visible c s a where
  edits : Edits s.console a.editor
  nul : s.console.buf.chars s.console.index = 0
  plain : enter ∉ a.editor.line
  idle : a.shown = false → a.editor.line = []

/-- `Comb.read` by what the scancode means. -/
def Comb.press (env : Surroundings) (fuel t : Nat) (s : Comb) : Key Byte → Exec (Comb × Bool)
  | .ignore => .ok (s, false)
  | .insert ch =>
      let c := s.console
      if c.index < 60 then
        let c := { c with buf := (c.buf.set c.index ch).set (c.index + 1) 0, index := c.index + 1 }
        Comb.go fuel t ⟨c, s.last, s.mem⟩
      else s.go fuel t
  | .erase =>
      let c := s.console
      if c.index = 0 then .ok (s, false)
      else
        let c := { c with index := c.index - 1, buf := c.buf.set (c.index - 1) 0 }
        Comb.go fuel t ⟨c, s.last, sysLine 24 s.mem⟩
  | .submit => do
      let c := s.console
      let m ← sysPrint fuel (fun _ => literal [' ']) (c.index + 3) 24 0xF0 s.mem
      let m := sysLine 24 (sysShift m)
      if c.index > 0 then
        let c := { c with passed := c.passed ++ [c.buf.chars] }
        let (m, exit) ← handleLine env fuel c.buf.chars m
        if exit then .ok (⟨c, s.last, m⟩, true)
        else Comb.go fuel t ⟨{ c with buf := c.buf.set 0 0, index := 0 }, s.last, m⟩
      else .ok (⟨c, s.last, m⟩, false)

/-- A key that ends the console. -/
def Ends (e : Editor Byte) (key : Key Byte) : Prop :=
  key = .submit ∧ e.line ≠ [] ∧ Exits e.line

instance (e : Editor Byte) (key : Key Byte) : Decidable (Ends e key) :=
  inferInstanceAs (Decidable (_ ∧ _ ∧ _))

section Passes

variable {env : Surroundings} {c : Core} {bees : List Bee} {m : Mem} {g : Nat → Nat → Cell}
variable {s : Comb} {a : Scene} {sc : Byte} {p : Pass}

theorem Edits.text_nul {c : Console} {e : Editor Byte} (edits : Edits c e)
    (nul : c.buf.chars c.index = 0) : TextAt c.buf.chars 0 e.line := by
  by_cases empty : e.line = []
  · rw [edits.line_nil_iff.mpr empty] at nul
    rw [empty]
    exact nul
  · exact edits.text empty

theorem insert_ne_enter {ch : Byte} (key : keyOf sc = .insert ch) : ch ≠ enter := by
  rw [keyOf_eq] at key
  split_ifs at key with none back line
  exact Key.insert.inj key ▸ line

theorem runCommand_returns (sound : env.Sound c bees) (kept : WritesWithin c.mem m vidmem 4000)
    (shows : Shows m g) (empty : g 24 = fun _ => dark) {command : Command}
    (stays : command ≠ .reboot) :
    ∃ m', Shows m' (rowsAfter (names bees) g (some command)) ∧
      WritesWithin m m' vidmem 4000 ∧ Returns (fun fuel => runCommand env fuel m command) m' := by
  cases command with
  | clear =>
      obtain ⟨shows', within⟩ := sysClear_shows m
      exact ⟨_, shows', within, .ok _⟩
  | tea =>
      simp only [rowsAfter, runCommand]
      exact sysPrint_picture tea shows
  | gun =>
      simp only [rowsAfter, runCommand]
      exact sysPrint_picture gun shows
  | reboot => exact absurd rfl stays
  | listBees =>
      obtain ⟨more, lists, few⟩ := registered_lists sound.registered sound.off sound.titled
      exact listBees_returns empty (lists.agree kept) few env.buf shows
  | exit => exact ⟨m, shows, .refl m _ _, .ok m⟩
  | fox =>
      simp only [rowsAfter, runCommand]
      exact sysPrint_picture fox shows

theorem handleLine_returns (sound : env.Sound c bees) (kept : WritesWithin c.mem m vidmem 4000)
    (shows : Shows m g) (empty : g 24 = fun _ => dark) (line : Line)
    (stays : commandOf line.text ≠ some .reboot) :
    ∃ m', Shows m' (rowsAfter (names bees) g (commandOf line.text)) ∧
      WritesWithin m m' vidmem 4000 ∧ Returns (fun fuel => handleLine env fuel line.chars m)
        (m', decide (commandOf line.text = some .exit)) := by
  have selected : Returns (fun fuel => handleCMD fuel line.chars env.arrays)
      (commandOf line.text) := ⟨61, fun fuel more => handleCMD_eq line env.arrays more⟩
  cases found : commandOf line.text with
  | none =>
      rw [found] at selected
      exact ⟨m, shows, .refl m _ _, selected.bind (.ok _)⟩
  | some command =>
      rw [found] at selected stays
      obtain ⟨m', shows', within, run⟩ := runCommand_returns sound kept shows empty
        (fun same => stays (congrArg some same))
      refine ⟨m', shows', within, ?_⟩
      have answer : decide (some command = some Command.exit) = decide (command = .exit) := by simp
      rw [answer]
      exact selected.bind (run.bind (.ok _))

/-- A pass that goes to its end shows the scene. -/
theorem go_returns (t : Nat) (edits : Edits s.console a.editor)
    (nul : s.console.buf.chars s.console.index = 0) (plain : enter ∉ a.editor.line)
    (kept : WritesWithin c.mem s.mem vidmem 4000) (shows : Shows s.mem g)
    (hidden : ∀ text : List Cell, text.length = a.editor.line.length + 4 →
      write g 24 0 text = write a.rows 24 0 text) :
    ∃ s', Returns (fun fuel => s.go fuel t) (s', false) ∧ Goes c s' { a with shown := true } := by
  obtain ⟨last, m', ch, cursor, shows', within, run⟩ :=
    draw_returns t edits (edits.text_nul nul) plain shows
  refine ⟨⟨s.console, last, m'⟩, run.bind (.ok _), ⟨⟨kept.trans within, ch, cursor, ?_⟩, edits, nul,
    plain, fun none => Bool.noConfusion none⟩⟩
  rw [hidden _ (by simp [length_bright, prompt])] at shows'
  exact shows'

/-- What a pass comes to: the scene is on the screen, and the console goes on from it if it does
not return. -/
def Leads (c : Core) (call : Nat → Exec (Comb × Bool)) (a : Scene) (exit : Bool) : Prop :=
  ∃ s, Returns call (s, exit) ∧ Visible c s a ∧ (exit = false → Goes c s a)

theorem Goes.leads {call : Nat → Exec (Comb × Bool)} (goes : Goes c s a)
    (run : Returns call (s, false)) : Leads c call a false :=
  ⟨s, run, goes.toVisible, fun _ => goes⟩

theorem Goes.draws (goes : Goes c s a) (t : Nat) :
    Leads c (fun fuel => s.go fuel t) { a with shown := true } false := by
  obtain ⟨ch, -, shows⟩ := goes.seen
  obtain ⟨s', run, goes'⟩ := go_returns t goes.edits goes.nul goes.plain goes.kept shows
    fun text length => Scene.view_write (Nat.le_of_eq length.symm)
  exact goes'.leads run

theorem Goes.insert (goes : Goes c s a) (t : Nat) {key : Byte} (some : key ≠ 0)
    (other : key ≠ enter) :
    Leads c (fun fuel => s.press env fuel t (.insert key)) (a.press (names bees) (.insert key))
      false := by
  by_cases room : s.console.index < 60
  · have inside : a.editor.line.length < 60 := goes.edits.index ▸ room
    have edited : LineEditor.press 60 a.editor (.insert key) =
        { a.editor with line := a.editor.line ++ [key] } := if_pos inside
    obtain ⟨ch, -, shows⟩ := goes.seen
    have plain : enter ∉ a.editor.line ++ [key] := by
      simp [goes.plain, Ne.symm other]
    obtain ⟨s', run, goes'⟩ := go_returns (s := ⟨_, s.last, s.mem⟩)
      (a := ⟨{ a.editor with line := a.editor.line ++ [key] }, a.rows, true⟩) t
      (goes.edits.insert room some) (Buffer.set_chars_self ..) plain goes.kept shows
      fun text length => Scene.view_write (by
        rw [length, List.length_append]
        omega)
    simp only [Comb.press, Scene.press, edited, room, if_true]
    exact goes'.leads run
  · have full : ¬ a.editor.line.length < 60 := goes.edits.index ▸ room
    simp only [Comb.press, Scene.press, LineEditor.press, full, room, if_false]
    exact goes.draws t

theorem Goes.erase (goes : Goes c s a) (t : Nat) :
    Leads c (fun fuel => s.press env fuel t .erase) (a.press (names bees) .erase) false := by
  by_cases empty : a.editor.line = []
  · simp only [Comb.press, Scene.press, empty, goes.edits.line_nil_iff.mpr empty, if_true]
    exact goes.leads (.ok _)
  · obtain ⟨ch, -, shows⟩ := goes.seen
    obtain ⟨cleared, within⟩ := sysLine_shows (y := 24) (by decide) shows
    rw [Scene.view_clear] at cleared
    obtain ⟨s', run, goes'⟩ := go_returns (s := ⟨_, s.last, sysLine 24 s.mem⟩)
      (a := ⟨LineEditor.press 60 a.editor .erase, Function.update a.rows 24 fun _ => dark, true⟩)
      t goes.edits.erase (Buffer.set_chars_self ..)
      (fun member => goes.plain (List.mem_of_mem_dropLast member)) (goes.kept.trans within)
      cleared fun text length => rfl
    simp only [Comb.press, Scene.press, empty, mt goes.edits.line_nil_iff.mp empty, if_false]
    exact goes'.leads run

/-- On Enter the line goes up. -/
theorem Goes.entered (goes : Goes c s a) :
    ∃ m, Shows (sysLine 24 (sysShift m)) a.entered ∧
      WritesWithin c.mem (sysLine 24 (sysShift m)) vidmem 4000 ∧
      Returns (fun fuel => sysPrint fuel (fun _ => literal [' ']) (s.console.index + 3) 24 0xF0
        s.mem) m := by
  obtain ⟨ch, -, shows⟩ := goes.seen
  have short := goes.edits.fits.line
  obtain ⟨m, shows₁, within₁, run⟩ := sysPrint_fixed 0xF0
    (Display.CString.ofList [space] (by decide)).holds (by decide) shows (show 24 < 25 by decide)
    (show a.editor.line.length + 3 + 1 ≤ 80 by omega)
  rw [← goes.edits.index] at run
  obtain ⟨shows₂, within₂⟩ := sysShift_shows shows₁
  obtain ⟨shows₃, within₃⟩ := sysLine_shows (y := 24) (by decide) shows₂
  refine ⟨m, ?_, ((goes.kept.trans within₁).trans within₂).trans within₃, run⟩
  have row := Scene.view_space ch goes.idle
  rw [Scene.entered, ← row]
  exact shows₃

theorem Scene.entered_last (a : Scene) : a.entered 24 = fun _ => dark := by
  rw [Scene.entered, Function.update_self]

theorem Goes.submit (goes : Goes c s a) (sound : env.Sound c bees) (t : Nat)
    (stays : a.editor.line ≠ [] → commandOf a.editor.line ≠ some .reboot) :
    Leads c (fun fuel => s.press env fuel t .submit) (a.press (names bees) .submit)
      (decide (a.editor.line ≠ [] ∧ Exits a.editor.line)) := by
  obtain ⟨m, entered, kept, printed⟩ := goes.entered
  by_cases empty : a.editor.line = []
  · have none : ¬ s.console.index > 0 := by
      rw [goes.edits.index, empty]
      exact Nat.lt_irrefl 0
    have next : Goes c ⟨s.console, s.last, sysLine 24 (sysShift m)⟩ ⟨a.editor, a.entered, false⟩ :=
      ⟨⟨kept, space, .inr rfl, entered⟩, goes.edits, goes.nul, goes.plain, fun _ => empty⟩
    simp only [Comb.press, Scene.press, empty, none, if_true, if_false, ne_eq, not_true, false_and,
      decide_false]
    exact next.leads (printed.bind (.ok _))
  · have typed : s.console.index > 0 :=
      Nat.pos_of_ne_zero (mt goes.edits.line_nil_iff.mp empty)
    let line : Line := ⟨⟨_, _, goes.edits.text empty⟩, goes.edits.fits.line⟩
    obtain ⟨m', shows, within, handled⟩ :=
      handleLine_returns sound kept entered a.entered_last line (stays empty)
    have submitted : LineEditor.press 60 a.editor .submit =
        ⟨[], a.editor.submitted ++ [a.editor.line]⟩ := if_neg empty
    simp only [Comb.press, Scene.press, submitted, empty, typed, if_true, if_false, ne_eq,
      not_false_eq_true, true_and, decide_not, Exits]
    cases exit : decide (commandOf a.editor.line = some .exit) with
    | true =>
        rw [show decide (commandOf line.text = some .exit) = true from exit] at handled
        exact ⟨_, printed.bind (handled.bind (.ok _)), ⟨kept.trans within, space, .inr rfl, shows⟩,
          fun goes => Bool.noConfusion goes⟩
    | false =>
        rw [show decide (commandOf line.text = some .exit) = false from exit] at handled
        obtain ⟨s', run, goes'⟩ := go_returns (s := ⟨_, s.last, m'⟩)
          (a := ⟨⟨[], a.editor.submitted ++ [a.editor.line]⟩, _, false⟩) t
          (goes.edits.submit empty) (Buffer.set_chars_self ..) List.not_mem_nil
          (kept.trans within) shows fun text length => rfl
        exact goes'.leads (printed.bind (handled.bind run))

/-- A key does to the screen what it does to the scene. -/
theorem Goes.press (goes : Goes c s a) (sound : env.Sound c bees) (t : Nat) {key : Key Byte}
    (plain : ∀ ch, key = .insert ch → ch ≠ 0 ∧ ch ≠ enter)
    (stays : key = .submit → a.editor.line ≠ [] → commandOf a.editor.line ≠ some .reboot) :
    Leads c (fun fuel => s.press env fuel t key) (a.press (names bees) key)
      (decide (Ends a.editor key)) := by
  cases key with
  | ignore => exact goes.leads (.ok _)
  | insert ch => exact goes.insert t (plain ch rfl).1 (plain ch rfl).2
  | erase => exact goes.erase t
  | submit =>
      simp only [Ends, true_and]
      exact goes.submit sound t (stays rfl)

theorem Comb.read_eq (env : Surroundings) (fuel t : Nat) (s : Comb) (sc : Byte) :
    s.read env fuel t sc = s.press env fuel t (keyOf sc) := by
  rw [keyOf_eq]
  by_cases none : scancodeToChar sc = 0
  · simp only [Comb.read, Comb.press, none, if_true]
  by_cases back : scancodeToChar sc = backspace
  · have other : backspace ≠ 0 := by decide
    simp only [Comb.read, Comb.press, back, other, if_true, if_false]
  by_cases line : scancodeToChar sc = enter
  · have other : enter ≠ 0 ∧ enter ≠ backspace := by decide
    simp only [Comb.read, Comb.press, line, other, if_true, if_false]
  · simp only [Comb.read, Comb.press, none, back, line, if_false]

/-- What a pass means to the editor. -/
def Pass.key (p : Pass) : Key Byte := (p.sc.map keyOf).getD .ignore

theorem Goes.pass (goes : Goes c s a) (sound : env.Sound c bees) (p : Pass)
    (stays : p.key = .submit → a.editor.line ≠ [] → commandOf a.editor.line ≠ some .reboot) :
    Leads c (fun fuel => s.pass env fuel p) (a.pass (names bees) p)
      (decide (Ends a.editor p.key)) := by
  obtain ⟨sc, t⟩ := p
  cases sc with
  | none => exact goes.draws t
  | some sc =>
      simp only [Comb.pass, Comb.read_eq]
      exact goes.press sound t (fun ch key => ⟨insert_ne_zero key, insert_ne_enter key⟩) stays

theorem Scene.pass_editor (names : List (List Byte)) (a : Scene) (p : Pass) :
    (a.pass names p).editor = LineEditor.press 60 a.editor p.key := by
  obtain ⟨sc, t⟩ := p
  cases sc with
  | none => rfl
  | some sc =>
      show (a.press names (keyOf sc)).editor = LineEditor.press 60 a.editor (keyOf sc)
      cases keyOf sc with
      | ignore => rfl
      | insert ch => rfl
      | erase =>
          rw [Scene.press]
          split_ifs with empty
          · obtain ⟨⟨line, submitted⟩, rows, shown⟩ := a
            obtain rfl : line = [] := empty
            rfl
          · rfl
      | submit =>
          rw [Scene.press]
          split_ifs with empty
          · exact (if_pos empty).symm
          · rfl

/-- A line is submitted by Enter alone. -/
theorem press_submitted (e : Editor Byte) (key : Key Byte) :
    key = .submit ∧ e.line ≠ [] ∧
        (LineEditor.press 60 e key).submitted = e.submitted ++ [e.line] ∨
      ¬ (key = .submit ∧ e.line ≠ []) ∧ (LineEditor.press 60 e key).submitted = e.submitted := by
  cases key with
  | ignore => simp [LineEditor.press]
  | insert ch =>
      rw [LineEditor.press]
      split_ifs <;> simp
  | erase => simp [LineEditor.press]
  | submit =>
      by_cases empty : e.line = []
      · simp [LineEditor.press, empty]
      · simp [LineEditor.press, empty]

/-- What is submitted while no line ended the console. -/
theorem press_stays {e : Editor Byte} {key : Key Byte} (stays : ¬ Ends e key)
    (none : ∀ line ∈ e.submitted, ¬ Exits line) :
    ∀ line ∈ (LineEditor.press 60 e key).submitted, ¬ Exits line := by
  obtain ⟨enter, some, more⟩ | ⟨-, same⟩ := press_submitted e key
  · rw [more]
    intro line member
    obtain before | last := List.mem_append.mp member
    · exact none line before
    · rw [List.mem_singleton.mp last]
      exact fun exit => stays ⟨enter, some, exit⟩
  · rwa [same]

/-- The lines that the passes submit, up to the one that ends the console. -/
def submissions (e : Editor Byte) (ps : List Pass) : List (List Byte) :=
  through Exits (edit 60 e (ps.map Pass.key)).submitted

/-- What Enter submits stays behind what was submitted before. -/
theorem edit_enter {e : Editor Byte} (enter : p.key = .submit) (some : e.line ≠ [])
    (ps : List Pass) : ∃ later,
      (edit 60 e ((p :: ps).map Pass.key)).submitted = e.submitted ++ (e.line :: later) := by
  obtain ⟨-, -, more⟩ | ⟨other, -⟩ := press_submitted e p.key
  · obtain ⟨later, whole⟩ := edit_submitted 60 (LineEditor.press 60 e p.key) (ps.map Pass.key)
    refine ⟨later, ?_⟩
    rw [List.append_cons, ← more]
    exact whole
  · exact absurd ⟨enter, some⟩ other

theorem mem_submissions {e : Editor Byte} (none : ∀ line ∈ e.submitted, ¬ Exits line)
    (enter : p.key = .submit) (some : e.line ≠ []) (ps : List Pass) :
    e.line ∈ submissions e (p :: ps) := by
  obtain ⟨later, lines⟩ := edit_enter enter some ps
  rw [submissions, lines, through_append none, through]
  split_ifs <;> simp

/-- The passes are made one after the other until a line ends the console. -/
theorem Goes.run (goes : Goes c s a) (sound : env.Sound c bees)
    (none : ∀ line ∈ a.editor.submitted, ¬ Exits line) (ps : List Pass)
    (stays : ∀ line ∈ submissions a.editor ps, commandOf line ≠ some .reboot) :
    ∃ used rest s', used ++ rest = ps ∧ Returns (fun fuel => Comb.run env fuel s ps) (s', rest) ∧
      Visible c s' (used.foldl (Scene.pass (names bees)) a) ∧
      (used.foldl (Scene.pass (names bees)) a).editor.submitted = submissions a.editor ps ∧
      ((∀ line ∈ (edit 60 a.editor (ps.map Pass.key)).submitted, ¬ Exits line) → rest = []) := by
  induction ps generalizing s a with
  | nil => exact ⟨[], [], s, rfl, .ok _, goes.toVisible, (through_of_not none).symm, fun _ => rfl⟩
  | cons p ps ih =>
      have here (enter : p.key = .submit) (some : a.editor.line ≠ []) :=
        stays _ (mem_submissions none enter some ps)
      obtain ⟨s₁, run₁, visible, next⟩ := goes.pass sound p here
      have editor := Scene.pass_editor (names bees) a p
      by_cases ends : Ends a.editor p.key
      · obtain ⟨enter, some, exit⟩ := ends
        obtain ⟨later, lines⟩ := edit_enter enter some ps
        rw [decide_eq_true (show Ends a.editor p.key from ⟨enter, some, exit⟩)] at run₁
        refine ⟨[p], ps, s₁, rfl, run₁.bind (.ok _), visible, ?_, fun all => ?_⟩
        · rw [List.foldl_cons, List.foldl_nil, editor, submissions, lines, through_append none,
            through, if_pos exit, enter]
          exact congrArg Editor.submitted (if_neg some)
        · rw [lines] at all
          exact absurd exit (all _ (List.mem_append_right _ List.mem_cons_self))
      · have goes₁ := next (decide_eq_false ends)
        rw [decide_eq_false ends] at run₁
        have later : submissions a.editor (p :: ps) =
            submissions (a.pass (names bees) p).editor ps := by
          rw [editor]
          rfl
        rw [later] at stays ⊢
        obtain ⟨used, rest, s', split, run, visible', lines, all⟩ :=
          ih goes₁ (editor ▸ press_stays ends none) stays
        refine ⟨p :: used, rest, s', congrArg (p :: ·) split, run₁.bind run, visible', lines, ?_⟩
        rw [editor] at all
        exact all

theorem goes_start {chars : Nat → Byte} (fresh : chars 0 = 0)
    (kept : WritesWithin c.mem m vidmem 4000) :
    Goes c (.start chars m) ⟨LineEditor.start, cellAt m, false⟩ where
  kept := kept
  seen := ⟨space, .inr rfl, fun _ _ _ _ => rfl⟩
  edits := edits_start chars
  nul := fresh
  plain := List.not_mem_nil
  idle _ := rfl

end Passes

/-- Whatever passes `ControlComb` makes: what is on the screen is the scene that these keys make of
the screen it found, with the cursor or a space behind the line, and nothing else in memory was
written. The lines that were entered are those of an editor, up to the first `exit`; without one
the console is still there behind the last pass. `buf`, which is not initialised, has to begin
with a NUL, and no line may be `reboot`. -/
theorem console_screen {env : Surroundings} {c : Core} {bees : List Bee} {chars : Nat → Byte}
    {m : Mem} (sound : env.Sound c bees) (kept : WritesWithin c.mem m vidmem 4000)
    (fresh : chars 0 = 0) (ps : List Pass)
    (stays : ∀ line ∈ submissions LineEditor.start ps, commandOf line ≠ some .reboot) :
    ∃ used rest s ch, used ++ rest = ps ∧
      Returns (fun fuel => Comb.run env fuel (.start chars m) ps) (s, rest) ∧
      let a := used.foldl (Scene.pass (names bees)) ⟨LineEditor.start, cellAt m, false⟩
      CursorChar 2 ch ∧ Shows s.mem (a.view ch) ∧ WritesWithin c.mem s.mem vidmem 4000 ∧
        a.editor.submitted = submissions LineEditor.start ps ∧
        ((∀ line ∈ (edit 60 LineEditor.start (ps.map Pass.key)).submitted, ¬ Exits line) →
          rest = []) := by
  obtain ⟨used, rest, s, split, run, ⟨kept', ch, cursor, shows⟩, lines, all⟩ :=
    (goes_start fresh kept).run sound (fun _ none => absurd none List.not_mem_nil) ps stays
  exact ⟨used, rest, s, ch, split, run, cursor, shows, kept', lines, all⟩

def threeFive : Surroundings where
  bees := 0x4000
  arrays _ _ := 0
  buf := ⟨fun _ => 0, []⟩

theorem threeFive_sound : threeFive.Sound coreThreeFive [beeThree, beeFive] :=
  ⟨registered_three_five, .inl (by decide), by decide⟩

/-- `lb`, `fox` and `exit`, typed between passes without a key. -/
def typedCommands : List Pass :=
  [⟨none, 0⟩, ⟨some 0x26, 1⟩, ⟨some 0xA6, 1⟩, ⟨some 0x30, 2⟩, ⟨none, 2⟩, ⟨some 0x1C, 3⟩,
    ⟨some 0x21, 4⟩, ⟨some 0x18, 4⟩, ⟨none, 5⟩, ⟨some 0x2D, 6⟩, ⟨some 0x1C, 7⟩, ⟨some 0x12, 8⟩,
    ⟨some 0x2D, 8⟩, ⟨some 0x17, 9⟩, ⟨some 0x14, 9⟩, ⟨some 0x1C, 9⟩]

theorem console_screen_typedCommands : ∃ used rest s ch, used ++ rest = typedCommands ∧
    Returns (fun fuel =>
      Comb.run threeFive fuel (.start (fun _ => 0) coreThreeFive.mem) typedCommands) (s, rest) ∧
    let a := used.foldl (Scene.pass (names [beeThree, beeFive]))
      ⟨LineEditor.start, cellAt coreThreeFive.mem, false⟩
    CursorChar 2 ch ∧ Shows s.mem (a.view ch) ∧
      WritesWithin coreThreeFive.mem s.mem vidmem 4000 ∧
      a.editor.submitted = submissions LineEditor.start typedCommands ∧
      ((∀ line ∈ (edit 60 LineEditor.start (typedCommands.map Pass.key)).submitted,
        ¬ Exits line) → rest = []) :=
  console_screen threeFive_sound (.refl coreThreeFive.mem _ _) rfl typedCommands (by decide)

end HiveRK.Control
