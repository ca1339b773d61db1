import HiveRK.Bees.Display.Refinement

/-!
# Staying on the screen

The cursor bounds all writes. It leaves the screen by a backspace on the first cell, and by
a `cursor` command with a negative remainder; nothing else moves it out of the cells 0 to
2000.
-/

namespace HiveRK.Display

open Machine

/-! ### What `print` prints -/

section Sinks

variable {σ τ : Type} {put : σ → Byte → Int → σ} {put' : τ → Byte → Int → τ} {f : σ → τ}

theorem printStr_map (natural : ∀ s ch color, f (put s ch color) = put' (f s) ch color)
    (str : Nat → Byte) (color : Int) (fuel index : Nat) (s : σ) :
    printStr put' str color fuel index (f s) = (printStr put str color fuel index s).map f := by
  induction fuel generalizing index s with
  | zero => rfl
  | succ fuel ih =>
      rw [printStr, printStr]
      split_ifs with done
      · rfl
      · rw [← natural, ih]

/-- What `print` does to its sink depends on nothing but the characters it prints. -/
theorem print_map (natural : ∀ s ch color, f (put s ch color) = put' (f s) ch color)
    (str : Nat → Byte) (inputs : Inputs) (fuel index argsIndex : Nat) (color : Int) (s : σ) :
    print put' str inputs fuel index argsIndex color (f s) =
      (print put str inputs fuel index argsIndex color s).map f := by
  induction fuel generalizing index argsIndex color s with
  | zero => rfl
  | succ fuel ih =>
      have string (text : Nat → Byte) (s : σ) :
          (printStr put' text color fuel 0 (f s) >>= fun s =>
            print put' str inputs fuel (index + 2) (argsIndex + 1) color s) =
          (printStr put text color fuel 0 s >>= fun s =>
            print put str inputs fuel (index + 2) (argsIndex + 1) color s).map f := by
        rw [printStr_map natural]
        cases printStr put text color fuel 0 s with
        | error stop => rfl
        | ok s' => exact ih (index + 2) (argsIndex + 1) color s'
      simp only [print, ← natural, string, ih, apply_ite (Except.map f)]
      rfl

/-- With more fuel a call that returned returns the same. -/
def Extends (x y : Exec σ) : Prop := ∀ s, x = .ok s → y = .ok s

theorem Extends.refl (x : Exec σ) : Extends x x := fun _ h => h

theorem Extends.ite {c : Prop} [Decidable c] {x x' y y' : Exec σ} (h : Extends x x')
    (h' : Extends y y') : Extends (if c then x else y) (if c then x' else y') := by
  split_ifs
  · exact h
  · exact h'

theorem Extends.bind {x x' : Exec σ} {g g' : σ → Exec σ} (h : Extends x x')
    (h' : ∀ s, Extends (g s) (g' s)) : Extends (x >>= g) (x' >>= g') := by
  intro t run
  cases hx : x with
  | error stop =>
      rw [hx] at run
      exact nomatch run
  | ok s =>
      rw [hx] at run
      rw [h s hx]
      exact h' s t run

theorem printStr_fuel (str : Nat → Byte) (color : Int) (fuel index : Nat) (s : σ) :
    Extends (printStr put str color fuel index s) (printStr put str color (fuel + 1) index s) := by
  induction fuel generalizing index s with
  | zero => exact fun _ h => nomatch h
  | succ fuel ih =>
      rw [printStr, printStr]
      exact (Extends.refl _).ite (ih _ _)

theorem print_fuel (str : Nat → Byte) (inputs : Inputs) (fuel index argsIndex : Nat) (color : Int)
    (s : σ) : Extends (print put str inputs fuel index argsIndex color s)
      (print put str inputs (fuel + 1) index argsIndex color s) := by
  induction fuel generalizing index argsIndex color s with
  | zero => exact fun _ h => nomatch h
  | succ fuel ih =>
      have string (text : Nat → Byte) (s : σ) :
          Extends (printStr put text color fuel 0 s >>= fun s =>
              print put str inputs fuel (index + 2) (argsIndex + 1) color s)
            (printStr put text color (fuel + 1) 0 s >>= fun s =>
              print put str inputs (fuel + 1) (index + 2) (argsIndex + 1) color s) :=
        (printStr_fuel text color fuel 0 s).bind fun s => ih _ _ _ s
      rw [print, print]
      -- One branch for each directive.
      refine (Extends.refl _).ite (.ite (.ite (ih _ _ _ _) (.ite (string _ _) (.ite (string _ _)
        (.ite (string _ _) (.ite (string _ _) (.ite (string _ _) (.ite (string _ _)
        (.ite (ih _ _ _ _) (.ite (ih _ _ _ _) (ih _ _ _ _)))))))))) (ih _ _ _ _))

end Sinks

/-- The characters that `print` passes to `printChar`, with their colours. -/
def printed (fuel : Nat) (str : Nat → Byte) (inputs : Inputs) : Exec (List (Byte × Int)) :=
  print (fun cs ch color => cs ++ [(ch, color)]) str inputs fuel 0 1 DEFAULT_COLOR []

theorem printed_unique {str : Nat → Byte} {inputs : Inputs} {fuel fuel' : Nat}
    {cs cs' : List (Byte × Int)} (h : printed fuel str inputs = .ok cs)
    (h' : printed fuel' str inputs = .ok cs') : cs = cs' := by
  have more (k : Nat) {fuel : Nat} {cs : List (Byte × Int)} (h : printed fuel str inputs = .ok cs) :
      printed (fuel + k) str inputs = .ok cs := by
    induction k with
    | zero => exact h
    | succ k ih => exact print_fuel str inputs (fuel + k) 0 1 DEFAULT_COLOR [] cs ih
  have left := more fuel' h
  rw [Nat.add_comm, more fuel h'] at left
  exact (Except.ok.inj left).symm

theorem print_eq (d : Vga) (str : Nat → Byte) (inputs : Inputs) (fuel : Nat) :
    print printChar str inputs fuel 0 1 DEFAULT_COLOR d =
      (printed fuel str inputs).map (printAll d) :=
  print_map (f := printAll d) (fun cs ch color => printAll_append d cs [(ch, color)]) str inputs
    fuel
    0 1 DEFAULT_COLOR []

/-! ### Commands -/

inductive Command where
  | print (str : Nat → Byte) (inputs : Inputs)
  | clear
  | cursor (type x y : Int)
  | putc (ch : Int)

def Command.run (fuel : Nat) (d : Vga) : Command → Exec Vga
  | .print str inputs => Display.print printChar str inputs fuel 0 1 DEFAULT_COLOR d
  | .clear => .ok (Display.clear d)
  | .cursor type x y => .ok (Display.cursor d type x y)
  | .putc ch => .ok (Display.putc d ch)

/-- A command that returns. -/
def Step (d : Vga) (command : Command) (d' : Vga) : Prop := ∃ fuel, command.run fuel d = .ok d'

/-- Nothing was written outside of the screen, and the cursor is not far behind it. -/
def Visible (d : Vga) : Prop := (∀ a ∈ d.written, OnScreen a) ∧ cell d ≤ 2000

/-- The cell that the `cursor` command selects, before it is cut to 16 bits. -/
def target (x y : Int) : Int := y.tmod 25 * 80 + x.tmod 80

section Commands

variable {d d' : Vga}

end Commands

end HiveRK.Display
