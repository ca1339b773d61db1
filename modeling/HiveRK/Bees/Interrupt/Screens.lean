import HiveRK.Bees.Interrupt.Frame
import HiveRK.Queen.Control.Screen

/-!
# What an interrupt leaves on the screen

An interrupt without a handler, and each of the five exceptions with a handler in
`basicInterrupts.h`, clears the screen, shows a text in its first row and stops the machine. The
texts are put together on the stack, where the text of the invalid opcode has no NUL behind it:
what is printed next is what the stack holds there. `basicInterrupts.h` has a copy of `SYSprint`.
-/

namespace HiveRK.Interrupt

open Machine Util Control Canvas
open Display (TextAt ascii)

/-! ### The texts -/

def unhandledStart : List Byte :=
  ['!', ' ', 'U', 'n', 'h', 'a', 'n', 'd', 'l', 'e', 'd', ' ', 'I', 'n', 't', 'e', 'r', 'r', 'u',
    'p', 't', ':', ' '].map ascii

/-- The array of `UNHANDLED_INTERRUPT` up to its NUL. -/
def unhandledText (i : Nat) : List Byte :=
  unhandledStart ++
  (if i = 0 then [ascii '0']
    else if i < 10 then [digitChar i]
    else if i < 100 then [digitChar (i / 10 % 10), digitChar (i % 10)]
    else [digitChar (i / 100 % 10), digitChar (i / 10 % 10), digitChar (i % 10)]) ++
  [' ', '!'].map ascii

/-- `UNHANDLED_INTERRUPT` up to `hlt`. -/
def unhandledInterrupt (fuel i : Nat) (m : Mem) : Exec Mem :=
  sysPrint fuel (fun _ k => (unhandledText i).getD k 0) 0 0 0x40 (sysClear m)

inductive Exception where
  | DIVbyZERO
  | Breakpoint
  | InvalidOpcode
  | DoubleFault
  | GeneralProtectionFault
deriving DecidableEq, Repr

def Exception.vector : Exception → Nat
  | .DIVbyZERO => 0
  | .Breakpoint => 3
  | .InvalidOpcode => 6
  | .DoubleFault => 8
  | .GeneralProtectionFault => 13

def Exception.text : Exception → List Byte
  | .DIVbyZERO => ['!', ' ', 'D', 'i', 'v', 'i', 's', 'i', 'o', 'n', ' ', 'B', 'y', ' ', 'Z', 'e',
      'r', 'o', ' ', '!'].map ascii
  | .Breakpoint => ['!', ' ', 'B', 'r', 'e', 'a', 'k', 'p', 'o', 'i', 'n', 't', ' ', '!'].map ascii
  | .InvalidOpcode => ['!', ' ', 'I', 'n', 'v', 'a', 'l', 'i', 'd', ' ', 'O', 'p', 'c', 'o', 'd',
      'e', ' ', '!'].map ascii
  | .DoubleFault => ['!', ' ', 'D', 'o', 'u', 'b', 'l', 'e', ' ', 'F', 'a', 'u', 'l', 't', ' ',
      '!'].map ascii
  | .GeneralProtectionFault => ['!', ' ', 'G', 'e', 'n', 'e', 'r', 'a', 'l', ' ', 'P', 'r', 'o',
      't', 'e', 'c', 't', 'i', 'o', 'n', ' ', 'F', 'a', 'u', 'l', 't', ' ', '!'].map ascii

/-- The array: a NUL behind the text, or a `\n`. -/
def Exception.array (e : Exception) : List Byte :=
  e.text ++ [if e = .InvalidOpcode then enter else 0]

/-- The handler up to `hlt`. On the stack the bytes of `stack` are behind the array. -/
def Exception.handle (e : Exception) (stack : Nat → Byte) (fuel : Nat) (m : Mem) : Exec Mem :=
  let b (k : Nat) : Byte := (e.array[k]?).getD (stack (k - e.array.length))
  sysPrint fuel (fun _ => b) 0 0 0x40 (sysClear m)

/-! ### What is seen -/

/-- The screen with nothing but these lines from its first row on. -/
def lines (texts : List (List Byte)) : Nat → Nat → Cell :=
  writeLines (fun _ _ => dark) 0 0 (texts.map (colored 0x04))

/-- What the stack holds behind the array for the invalid opcode: lines that fit on the screen. -/
structure Leftover (stack : Nat → Byte) (texts : List (List Byte)) : Prop where
  some : texts ≠ []
  text : TextAt stack 0 (joined texts)
  plain : ∀ text ∈ texts, enter ∉ text
  rows : texts.length < 25
  columns : ∀ text ∈ texts, text.length ≤ 80

section Texts

variable {m : Mem} {i : Nat} {stack : Nat → Byte} {texts : List (List Byte)}

/-- The number is shown in decimal. -/
theorem unhandledText_eq (small : i < 1000) :
    unhandledText i = unhandledStart ++ decimal.string 1 i ++ [' ', '!'].map ascii := by
  rw [unhandledText, Numeral.Alphabet.string]
  congr 2
  by_cases zero : i = 0
  · rw [if_pos zero, zero, Numeral.numeral_zero]
    rfl
  rw [if_neg zero]
  by_cases one : i < 10
  · rw [if_pos one, Numeral.numeral_digit one]
    rfl
  rw [if_neg one, Numeral.numeral_div (by decide) (Nat.le_of_not_lt one)]
  by_cases two : i < 100
  · rw [if_pos two, Numeral.numeral_digit (show i / 10 < 10 by omega),
      Nat.mod_eq_of_lt (show i / 10 < 10 by omega)]
    rfl
  · rw [if_neg two, Numeral.numeral_div (by decide) (show 10 ≤ i / 10 by omega),
      Numeral.numeral_digit (show i / 10 / 10 < 10 by omega), Nat.div_div_eq_div_mul,
      Nat.mod_eq_of_lt (show i / 100 < 10 by omega)]
    rfl

/-- A text is shown on an empty screen. -/
theorem cleared_shows {str : Nat → Byte} (m : Mem)
    (text : TextAt str 0 (joined texts)) (plain : ∀ line ∈ texts, enter ∉ line)
    (rows : texts.length ≤ 25) (columns : ∀ line ∈ texts, line.length ≤ 80) :
    ∃ m', Shows m' (lines texts) ∧ WritesWithin m m' vidmem 4000 ∧
      Returns (fun fuel => sysPrint fuel (fun _ => str) 0 0 0x40 (sysClear m)) m' := by
  obtain ⟨clear, within⟩ := sysClear_shows m
  obtain ⟨m', shows, within', run⟩ := sysPrint_lines 0x40 (x := 0) (y := 0) plain
    (fun _ _ => text) clear (by omega) fun line member => by
      rw [Nat.zero_add]
      exact columns line member
  exact ⟨m', shows, within.trans within', run⟩

theorem notMem_unhandledText {ch : Byte} (small : i < 1000)
    (digit : ∀ d < 10, decimal.char d ≠ ch) (start : ch ∉ unhandledStart)
    (stop : ch ∉ [' ', '!'].map ascii) : ch ∉ unhandledText i := by
  rw [unhandledText_eq small, List.append_assoc, List.mem_append, List.mem_append]
  rintro (front | digits | back)
  · exact start front
  · exact notMem_string digit 1 i digits
  · exact stop back

theorem length_unhandledText (i : Nat) : (unhandledText i).length ≤ 80 := by
  have start : unhandledStart.length = 23 := rfl
  simp only [unhandledText, List.length_append, start, List.length_map]
  split_ifs <;> simp

theorem unhandled_shows (m : Mem) (small : i < 1000) :
    ∃ m', Shows m' (lines [unhandledText i]) ∧ WritesWithin m m' vidmem 4000 ∧
      Returns (fun fuel => unhandledInterrupt fuel i m) m' := by
  have some : 0 ∉ unhandledText i :=
    notMem_unhandledText small (by decide) (by decide) (by decide)
  have plain : enter ∉ unhandledText i :=
    notMem_unhandledText small (by decide) (by decide) (by decide)
  have text : TextAt _ 0 (joined [unhandledText i]) := (Display.CString.ofList _ some).holds
  exact cleared_shows m text (List.forall_mem_singleton.mpr plain)
    (Nat.succ_le_succ (Nat.zero_le 24)) (List.forall_mem_singleton.mpr (length_unhandledText i))

theorem textAt_shift {str str' : Nat → Byte} {i j : Nat} {s : List Byte}
    (same : ∀ k, str' (j + k) = str (i + k)) (text : TextAt str i s) : TextAt str' j s := by
  induction s generalizing i j with
  | nil => exact (same 0).trans text
  | cons ch s ih =>
      refine ⟨(same 0).trans text.1, text.2.1, ih (fun k => ?_) text.2.2⟩
      rw [Nat.add_assoc, Nat.add_assoc]
      exact same (1 + k)

/-- A text that goes on behind an array. -/
theorem textAt_behind {front rest : List Byte} {j : Nat} (some : 0 ∉ front)
    (behind : TextAt stack (j + front.length) rest)
    (chars : ∀ (k : Nat) (h : k < front.length), stack (j + k) = front[k]) :
    TextAt stack j (front ++ rest) := by
  induction front generalizing j with
  | nil => exact behind
  | cons ch front ih =>
      obtain ⟨first, others⟩ := List.ne_and_not_mem_of_not_mem_cons some
      refine ⟨chars 0 (Nat.zero_lt_succ _), Ne.symm first, ih others ?_ fun k hk => ?_⟩
      · rw [List.length_cons] at behind
        rwa [Nat.add_assoc, Nat.add_comm 1]
      · rw [Nat.add_assoc, Nat.add_comm 1]
        exact chars (k + 1) (Nat.succ_lt_succ hk)

/-- What the handlers print: four texts up to the NUL of the array, and the text of the invalid
opcode with what the stack holds behind it. -/
theorem exception_text (e : Exception) (behind : e = .InvalidOpcode → Leftover stack texts) :
    TextAt (fun k => (e.array[k]?).getD (stack (k - e.array.length))) 0
      (joined (e.text :: if e = .InvalidOpcode then texts else [])) := by
  have inside (k : Nat) (h : k < e.array.length) :
      (e.array[k]?).getD (stack (k - e.array.length)) = e.array[k] := by
    rw [List.getElem?_eq_getElem h, Option.getD_some]
  by_cases opcode : e = .InvalidOpcode
  · obtain rfl := opcode
    have left := behind rfl
    obtain ⟨line, more, rfl⟩ := List.exists_cons_of_ne_nil left.some
    show TextAt _ 0 (Exception.InvalidOpcode.array ++ joined (line :: more))
    refine textAt_behind (by decide) (textAt_shift (fun k => ?_) left.text) fun k hk => ?_
    · rw [Nat.zero_add, List.getElem?_eq_none (by omega), Option.getD_none,
        Nat.add_sub_cancel_left, Nat.zero_add]
    · rw [Nat.zero_add]
      exact inside k hk
  · have nul : e.array = e.text ++ [0] := by rw [Exception.array, if_neg opcode]
    have some : 0 ∉ e.text := by
      cases e with
      | _ => decide
    have whole : e.array.length = e.text.length + 1 := by
      rw [nul, List.length_append, List.length_singleton]
    rw [if_neg opcode]
    show TextAt _ 0 e.text
    rw [← List.append_nil e.text]
    refine textAt_behind some ?_ fun k hk => ?_
    · show (e.array[0 + e.text.length]?).getD _ = 0
      rw [inside _ (by omega)]
      simp [nul]
    · rw [inside _ (by omega)]
      simp [nul, hk]

/-- An exception shows its text, and the invalid opcode what the stack holds besides. -/
theorem exception_shows (e : Exception) (m : Mem)
    (behind : e = .InvalidOpcode → Leftover stack texts) :
    ∃ m', Shows m' (lines (e.text :: if e = .InvalidOpcode then texts else [])) ∧
      WritesWithin m m' vidmem 4000 ∧ Returns (fun fuel => e.handle stack fuel m) m' := by
  have own : enter ∉ e.text ∧ e.text.length ≤ 80 := by
    cases e with
    | _ => decide
  have text := exception_text e behind
  by_cases opcode : e = .InvalidOpcode
  · have left := behind opcode
    rw [if_pos opcode] at text ⊢
    exact cleared_shows m text (List.forall_mem_cons.mpr ⟨own.1, left.plain⟩) left.rows
      (List.forall_mem_cons.mpr ⟨own.2, left.columns⟩)
  · rw [if_neg opcode] at text ⊢
    exact cleared_shows m text (List.forall_mem_singleton.mpr own.1)
      (Nat.succ_le_succ (Nat.zero_le 24)) (List.forall_mem_singleton.mpr own.2)

end Texts

/-! ### Which of them -/

def exceptions : List Exception :=
  [.DIVbyZERO, .Breakpoint, .InvalidOpcode, .DoubleFault, .GeneralProtectionFault]

/-- `registerBASIC`, with the offsets at which the handlers were linked. -/
def registerBASIC (offset : Exception → Nat) (baseAdr : Nat) : List Op :=
  exceptions.map fun e => .register e.vector systemFlags (u32 (baseAdr + offset e))

/-- What is done to the screen. `handler` says whose code is at an address. -/
def Event.screen (handler : Nat → Option Exception) (stack : Nat → Byte) (fuel : Nat) (m : Mem) :
    Event → Exec Mem
  | .unhandled i => unhandledInterrupt fuel i m
  | .call address _ =>
      match handler address with
      | some e => e.handle stack fuel m
      | none => .ok m
  | .outb _ _ => .ok m

def exceptionAt (v : Nat) : Option Exception := exceptions.find? fun e => e.vector = v

/-- The text for a vector. -/
def shown (v : Nat) (texts : List (List Byte)) : List (List Byte) :=
  match exceptionAt v with
  | some e => e.text :: if e = .InvalidOpcode then texts else []
  | none => [unhandledStart ++ decimal.string 1 v ++ [' ', '!'].map ascii]

section Vectors

variable {symbol : Label → Nat} {offset : Exception → Nat} {base core global v : Nat}
variable {m m' : Mem} {ops later : List Op} {stack : Nat → Byte} {texts : List (List Byte)}

/-- Whatever else happens in between, the handlers are those of `registerBASIC`. -/
theorem lastRegistration_basic
    (calls : ops.filter (· ≠ .elsewhere) = registerBASIC offset base ++ later)
    (others : ∀ op ∈ later, op.registers v = none) :
    (lastRegistration ops v).2 = ((exceptionAt v).map fun e => u32 (base + offset e)).getD 0 := by
  have last : lastRegistration ops v = lastRegistration (registerBASIC offset base) v := by
    have quiet (op : Op) : (if op ≠ .elsewhere then op.registers v else none) = op.registers v := by
      cases op with
      | elsewhere => rfl
      | register id flags handler => exact if_pos Op.noConfusion
    have none := List.filterMap_eq_nil_iff.mpr others
    have same := congrArg (List.filterMap (Op.registers v)) calls
    simp only [List.filterMap_filter, decide_eq_true_eq, quiet, List.filterMap_append, none,
      List.append_nil] at same
    rw [lastRegistration, same, lastRegistration]
  rw [last]
  by_cases listed : v ∈ exceptions.map Exception.vector
  · obtain ⟨e, -, rfl⟩ := List.mem_map.mp listed
    cases e with
    | _ => rfl
  · have other : ∀ e ∈ exceptions, e.vector ≠ v := fun e he same =>
      listed (List.mem_map.mpr ⟨e, he, same⟩)
    have nowhere : exceptionAt v = none :=
      List.find?_eq_none.mpr fun e he => by simpa using other e he
    have none : (registerBASIC offset base).filterMap (Op.registers v) = [] := by
      refine List.filterMap_eq_nil_iff.mpr fun op member => ?_
      obtain ⟨e, he, rfl⟩ := List.mem_map.mp member
      exact if_neg (other e he)
    rw [lastRegistration, none, nowhere]
    rfl

theorem exceptionAt_vector {e : Exception} (found : exceptionAt v = some e) : e.vector = v := by
  simpa using List.find?_some found

/-- Whatever vector the CPU takes and whatever was registered besides: as long as nothing else was
registered for it, the screen is cleared and names the exception, or has the number of the vector
in decimal. -/
theorem interrupts_shown (fits : global + 3080 ≤ 2 ^ 32)
    (run : Runs (Step core global) (idtInit symbol base global m) ops m')
    (calls : ops.filter (· ≠ .elsewhere) = registerBASIC offset base ++ later)
    (vector : v < 256) (others : ∀ op ∈ later, op.registers v = none)
    {image : Nat → Option Stub} {handler : Nat → Option Exception}
    (linked : ∀ stub ∈ stubs, image (u32 (base + symbol stub.label)) = some stub)
    (known : ∀ e, handler (u32 (base + offset e)) = some e)
    (nonzero : ∀ e, u32 (base + offset e) ≠ 0) (behind : v = 6 → Leftover stack texts)
    (code : Nat → Registers → Mem → Registers × Mem) (cpu : Cpu) (above : List Nat)
    (error : Option Nat) :
    ∃ r m₁ first rest m₂,
      deliver image code m' global v cpu above error = some (r, m₁, first :: rest) ∧
      Returns (fun fuel => first.screen handler stack fuel m') m₂ ∧
      Shows m₂ (lines (shown v texts)) ∧ WritesWithin m' m₂ vidmem 4000 := by
  have tables := Tables.run fits run
  have last := tables.handler v vector
  rw [lastRegistration_basic calls others] at last
  obtain ⟨stub, member, rfl⟩ := exists_stub vector
  have number : (saved stub cpu above error).int_no = stub.vector :=
    (saved_spec member cpu above error).int_no
  rw [deliver, (tables.gate stub member).decodes, linked stub member, Option.map_some, isrHandler,
    number, last]
  cases found : exceptionAt stub.vector with
  | none =>
      obtain ⟨m₂, shows, within, screen⟩ := unhandled_shows m' (show stub.vector < 1000 by omega)
      refine ⟨_, _, .unhandled stub.vector, _, m₂, rfl, screen, ?_, within⟩
      rwa [shown, found, ← unhandledText_eq (by omega)]
  | some e =>
      have six (opcode : e = .InvalidOpcode) : stub.vector = 6 := by
        rw [← exceptionAt_vector found, opcode]
        rfl
      obtain ⟨m₂, shows, within, screen⟩ :=
        exception_shows e m' fun opcode => behind (six opcode)
      simp only [Option.map_some, Option.getD_some, nonzero e, if_false, List.nil_append]
      refine ⟨_, _, _, _, m₂, rfl, ?_, ?_, within⟩
      · simp only [Event.screen, known]
        exact screen
      · rwa [shown, found]

end Vectors

/-- Any registration can be made once its arguments are in memory. -/
theorem exists_register (m : Mem) {id flags handler : Nat} (small : id < 256)
    (byte : flags < 2 ^ 32) (word : handler < 2 ^ 32) :
    ∃ m₁ m₂, Step 0x5000 0x1000 m .elsewhere m₁ ∧
      Step 0x5000 0x1000 m₁ (.register id flags handler) m₂ := by
  let m₁ := store32 (store32 (store32 (store32 m 0x500C 0x6100) 0x6100 id) 0x6104 flags) 0x6108
    handler
  have args : argsPtr m₁ 0x5000 = 0x6100 := by
    simp (disch := omega) only [m₁, argsPtr, load_store_of_disjoint, load_store_self]
  have written : WritesWithin m m₁ 0x500C 0x1100 :=
    (((WritesWithin.store (by decide) (by decide) (by decide)).andStore (by decide) (by decide)
      (by decide)).andStore (by decide) (by decide) (by decide)).andStore (by decide) (by decide)
      (by decide)
  refine ⟨m₁, registerInterrupt m₁ 0x5000 0x1000, written.agreeOn (.inl (by decide)), small, ?_, ?_,
    ?_, rfl⟩
  · rw [args]
    simp (disch := omega) only [m₁, load_store_of_disjoint, load_store_self]
  · rw [args]
    simp (disch := omega) only [m₁, load_store_of_disjoint, load_store_self]
  · rw [args]
    simp (disch := omega) only [m₁, load_store_self]

theorem exists_registered (start : Mem) (offset : Exception → Nat) (base : Nat)
    (es : List Exception) : ∃ ops m, Runs (Step 0x5000 0x1000) start ops m ∧
      ops.filter (· ≠ .elsewhere) =
        es.map fun e => .register e.vector systemFlags (u32 (base + offset e)) := by
  induction es using List.reverseRecOn with
  | nil => exact ⟨[], start, .nil, rfl⟩
  | append_singleton es e ih =>
      obtain ⟨ops, m, run, calls⟩ := ih
      have small : e.vector < 256 := by
        cases e with
        | _ => decide
      obtain ⟨m₁, m₂, first, second⟩ :=
        exists_register m small (by decide : systemFlags < 2 ^ 32) (u32_lt (base + offset e))
      refine ⟨_, m₂, .snoc (.snoc run first) second, ?_⟩
      rw [List.filter_append, List.filter_append, calls, List.map_append, List.append_assoc]
      rfl

/-- Handlers one behind the other. -/
def sampleOffset (e : Exception) : Nat := 0x2000 + 0x100 * e.vector

def sampleHandler (address : Nat) : Option Exception :=
  exceptions.find? fun e => u32 (0x8000 + sampleOffset e) = address

theorem interrupts_shown_opcode : ∃ m' r m₁ first rest m₂,
    deliver sampleImage leave m' 0x1000 6 sampleCpu [] none =
      some (r, m₁, first :: rest) ∧
    Returns (fun fuel => first.screen sampleHandler (fun _ => 0) fuel m') m₂ ∧
    Shows m₂ (lines (shown 6 [[]])) ∧ WritesWithin m' m₂ vidmem 4000 := by
  obtain ⟨ops, m', run, calls⟩ := exists_registered (idtInit sampleSymbol 0x8000 0x1000 sampleArgs)
    sampleOffset 0x8000 exceptions
  have known (e : Exception) : sampleHandler (u32 (0x8000 + sampleOffset e)) = some e := by
    cases e with
    | _ => decide
  have nonzero (e : Exception) : u32 (0x8000 + sampleOffset e) ≠ 0 := by
    cases e with
    | _ => decide
  have linked : ∀ stub ∈ stubs, sampleImage (u32 (0x8000 + sampleSymbol stub.label)) = some stub :=
    by decide +kernel
  have all : ops.filter (· ≠ .elsewhere) = registerBASIC sampleOffset 0x8000 ++ [] := by
    rw [calls, List.append_nil]
    rfl
  have left : Leftover (fun _ => 0) [[]] := ⟨by decide, rfl, by decide, by decide, by decide⟩
  obtain ⟨r, m₁, first, rest, m₂, delivered, screen, shows, within⟩ :=
    interrupts_shown (by decide) run all (show 6 < 256 by decide)
      (fun _ none => absurd none List.not_mem_nil) linked known nonzero (fun _ => left)
      leave sampleCpu [] none
  exact ⟨m', r, m₁, first, rest, m₂, delivered, screen, shows, within⟩

end HiveRK.Interrupt
