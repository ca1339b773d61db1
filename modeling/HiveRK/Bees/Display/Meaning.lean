import HiveRK.Bees.Display.Conversions

/-!
# What `print` makes of a format

Every format that ends with a NUL is read to its NUL and no further, and its directives take
the arguments one after the other. What is printed is what the format means, except that the
`$` of a `%#$` is printed.
-/

namespace HiveRK.Display

open Machine

/-- A string with its NUL, and whatever is behind it. -/
structure CString where
  chars : Nat → Byte
  text : List Byte
  holds : TextAt chars 0 text

theorem textAt_of_getD {str : Nat → Byte} {i : Nat} {s : List Byte} (some : 0 ∉ s)
    (chars : ∀ j ≤ s.length, str (i + j) = s.getD j 0) : TextAt str i s := by
  induction s generalizing i with
  | nil => exact chars 0 (Nat.le_refl 0)
  | cons ch s ih =>
      refine ⟨chars 0 (Nat.zero_le _), fun nul => some (nul ▸ List.mem_cons_self), ?_⟩
      refine ih (fun h => some (List.mem_cons_of_mem ch h)) fun j hj => ?_
      rw [Nat.add_assoc, Nat.add_comm 1 j]
      exact chars (j + 1) (Nat.succ_le_succ hj)

/-- A string in memory that is all zeros behind it. -/
def CString.ofList (s : List Byte) (some : 0 ∉ s) : CString where
  chars i := s.getD i 0
  text := s
  holds := textAt_of_getD some fun j _ => by rw [Nat.zero_add]

/-- The arguments behind a format. The pointers among them are to strings. `buf` and `bitness`
are what the buffer and the variable of `num_to_bin` hold before they are written. -/
structure Arguments where
  args : Nat → Int
  strings : Int → CString
  buf : Nat → Byte
  bitness : Nat

namespace Arguments

variable (a : Arguments)

/-- The buffer as the utility module leaves it. -/
def util (CMD type : Nat) (num : Int) : Nat → Byte :=
  match Util.command 33 a.bitness CMD type num ⟨a.buf, []⟩ with
  | .ok buf => buf.chars
  | .error _ => a.buf

def inputs : Inputs where
  args := a.args
  str p := (a.strings p).chars
  util := a.util

/-- The text that stands for a directive. -/
def texts : Texts
  | .char, argsIndex => [BitVec.ofInt 8 (a.args argsIndex)]
  | .string, argsIndex => (a.strings (a.args argsIndex)).text
  | .pointer, argsIndex =>
      ascii '0' :: ascii 'x' :: Directive.pointer.numberText (a.args argsIndex)
  | d, argsIndex => d.numberText (a.args argsIndex)

end Arguments

section Strings

/-- The digits of an alphabet without a NUL. -/
theorem zero_notMem_string {b : Nat} {A : Numeral.Alphabet Byte b} (base : 1 < b)
    (printable : ∀ d < b, A.char d ≠ 0) (w n : Nat) : 0 ∉ A.string w n := by
  intro nul
  obtain ⟨d, hd, same⟩ := List.mem_map.mp nul
  exact printable d (Numeral.digit_lt base d hd) same

theorem zero_notMem_numberText (d : Directive) (n : Int) : 0 ∉ d.numberText n := by
  have decimal (v : Int) : 0 ∉ Util.decimal.intString Util.minus v := by
    have digits : 0 ∉ Util.decimal.string 1 v.natAbs :=
      zero_notMem_string (by decide) (by decide) 1 v.natAbs
    rw [Numeral.Alphabet.intString]
    split_ifs
    · exact fun nul => (List.mem_cons.mp nul).elim (by decide) digits
    · exact digits
  cases d with
  | char | string => exact List.not_mem_nil
  | decimal | integer => exact decimal (Util.ValueType.I32.convert n)
  | unsigned => exact decimal (Util.ValueType.U32.convert n)
  | hex | pointer =>
      rw [Directive.numberText]
      split_ifs
      · decide
      · exact zero_notMem_string (by decide) (by decide) 8 _
  | binary => exact zero_notMem_string (by decide) (by decide) 32 _

/-- The buffer holds the string of the number. -/
theorem util_text (a : Arguments) {d : Directive} {CMD type : Nat}
    (call : d.conversion = some (CMD, type)) (n : Int) :
    TextAt (a.util CMD type n) 0 (d.numberText n) := by
  obtain ⟨buf, wrote, run⟩ := conversion_prints call a.bitness n ⟨a.buf, []⟩
  have left : a.util CMD type n = buf.chars := by
    rw [Arguments.util, show Util.command 33 a.bitness CMD type n _ = _ from run 33 (by decide)]
  rw [left]
  refine textAt_of_getD (zero_notMem_numberText d n) fun j hj => ?_
  rw [Nat.zero_add, wrote.chars, if_pos hj]

end Strings

/-- The sink of `printed`. -/
abbrev record (cs : List (Byte × Int)) (ch : Byte) (color : Int) : List (Byte × Int) :=
  cs ++ [(ch, color)]

/-- Every directive prints its text. -/
def Renders (inputs : Inputs) (texts : Texts) : Prop :=
  ∀ d argsIndex color cs, ∃ enough, ∀ fuel > enough,
    (Action.argument d).print record inputs fuel argsIndex color cs =
      .ok (cs ++ (texts d argsIndex).map (·, color))

section Printing

variable {str : Nat → Byte} {inputs : Inputs} {texts : Texts} {i fuel : Nat} {color : Int}

theorem printStr_text {s : List Byte} (at_i : TextAt str i s) (enough : fuel > s.length)
    (color : Int) (cs : List (Byte × Int)) :
    printStr record str color fuel i cs = .ok (cs ++ s.map (·, color)) := by
  induction s generalizing i fuel cs with
  | nil =>
      obtain ⟨fuel, rfl⟩ := Nat.exists_eq_add_of_lt enough
      have nul : str i = 0 := at_i
      rw [printStr, if_pos nul, List.map_nil, List.append_nil]
  | cons ch s ih =>
      obtain ⟨fuel, rfl⟩ := Nat.exists_eq_add_of_lt enough
      obtain ⟨here, some, behind⟩ := at_i
      have rest : s.length + 1 + fuel > s.length := by omega
      rw [List.length_cons, printStr, here, if_neg some, ih behind rest, List.append_assoc]
      rfl

/-- `print` puts `0x` in front of a pointer. -/
theorem Arguments.texts_number (a : Arguments) {d : Directive} {call : Nat × Nat}
    (number : d.conversion = some call) (argsIndex : Nat) :
    a.texts d argsIndex = (if d = .pointer then [ascii '0', ascii 'x'] else []) ++
      d.numberText (a.args argsIndex) := by
  cases d with
  | char | string => exact nomatch number
  | decimal | integer | unsigned | hex | binary | pointer => rfl

theorem Arguments.renders (a : Arguments) : Renders a.inputs a.texts := by
  intro d argsIndex color cs
  refine ⟨(a.texts d argsIndex).length, fun fuel enough => ?_⟩
  cases number : d.conversion with
  | some call =>
      have text := util_text a number (a.args argsIndex)
      have digits : fuel > (d.numberText (a.args argsIndex)).length := by
        rw [a.texts_number number, List.length_append] at enough
        omega
      rw [a.texts_number number]
      simp only [Action.print, number]
      refine (printStr_text text digits color _).trans ?_
      split_ifs
      · simp only [record, List.map_cons, List.append_assoc, List.cons_append, List.nil_append]
      · rfl
  | none =>
      cases d with
      | char => rfl
      | string => exact printStr_text (a.strings (a.args argsIndex)).holds enough color cs
      | decimal | integer | unsigned | hex | binary | pointer => exact nomatch number

/-- A pass that prints something keeps the colour. -/
theorem pass_keeps (str : Nat → Byte) (i : Nat) (color : Int) :
    (pass str i color).action = .nothing ∨ (pass str i color).color = color := by
  rw [pass]
  by_cases percent : str i = ascii '%'
  · rw [if_pos percent]
    cases Directive.ofLetter (str (i + 1)) with
    | some d => exact .inr rfl
    | none =>
        by_cases hash : str (i + 1) = ascii '#'
        · exact .inl (by simp only [if_pos hash])
        · simp only [if_neg hash]
          split_ifs
          · exact .inr rfl
          · exact .inr rfl
  · rw [if_neg percent]
    exact .inr rfl

theorem Renders.pass (renders : Renders inputs texts) (p : Pass)
    (keeps : p.action = .nothing ∨ p.color = color) (argsIndex : Nat) (cs : List (Byte × Int)) :
    ∃ enough, ∀ fuel > enough,
      p.action.print record inputs fuel argsIndex color cs =
        .ok (cs ++ p.shows texts argsIndex) := by
  obtain ⟨reads, action, next, color'⟩ := p
  cases action with
  | nothing =>
      refine ⟨0, fun _ _ => ?_⟩
      show Except.ok cs = .ok (cs ++ [])
      rw [List.append_nil]
  | char ch =>
      obtain keeps | rfl := keeps
      · exact nomatch keeps
      · exact ⟨0, fun _ _ => rfl⟩
  | argument d =>
      obtain keeps | rfl := keeps
      · exact nomatch keeps
      · exact renders d argsIndex color' cs

/-- `print` prints what its passes show. -/
theorem Renders.print {index last : Nat} {ps : List Pass} (renders : Renders inputs texts)
    (run : passes str fuel index color = .ok (ps, last)) (argsIndex : Nat)
    (cs : List (Byte × Int)) : ∃ enough, ∀ fuel > enough,
      print record str inputs fuel index argsIndex color cs =
        .ok (cs ++ shown texts ps argsIndex) := by
  induction fuel generalizing index argsIndex color cs ps with
  | zero => exact nomatch run
  | succ fuel ih =>
      by_cases done : str index = 0
      · rw [passes_nul done] at run
        obtain ⟨rfl, rfl⟩ := Prod.mk.inj (Except.ok.inj run)
        refine ⟨0, fun fuel enough => ?_⟩
        obtain ⟨fuel, rfl⟩ := Nat.exists_eq_add_of_lt enough
        rw [print_succ, if_pos done, shown, List.append_nil]
      · rw [passes_some done] at run
        cases rest : passes str fuel (Display.pass str index color).next
            (Display.pass str index color).color with
        | error stop =>
            rw [rest] at run
            exact nomatch run
        | ok result =>
            rw [rest] at run
            obtain ⟨rfl, rfl⟩ := Prod.mk.inj (Except.ok.inj run)
            obtain ⟨first, here⟩ := renders.pass _ (pass_keeps str index color) argsIndex cs
            obtain ⟨later, behind⟩ := ih rest
              (argsIndex + (Display.pass str index color).action.takes)
              (cs ++ (Display.pass str index color).shows texts argsIndex)
            refine ⟨max first later + 1, fun fuel enough => ?_⟩
            obtain ⟨fuel, rfl⟩ : ∃ k, fuel = k + 1 := ⟨fuel - 1, by omega⟩
            rw [print_succ, if_neg done, here fuel (by omega)]
            show Display.print record str inputs fuel _ _ _ _ = _
            rw [behind fuel (by omega), List.append_assoc]
            rfl

end Printing

section Results

variable (fmt : CString)

theorem printed_result {str : Nat → Byte} {inputs : Inputs} {cs cs' : List (Byte × Int)}
    (h : ∃ enough, ∀ fuel > enough, printed fuel str inputs = .ok cs)
    (h' : ∃ enough, ∀ fuel > enough, printed fuel str inputs = .ok cs') : cs = cs' := by
  obtain ⟨enough, run⟩ := h
  obtain ⟨enough', run'⟩ := h'
  exact printed_unique (run _ (Nat.lt_succ_self _)) (run' _ (Nat.lt_succ_self _))

/-- The passes of `print` over a format. -/
theorem passes_covers : ∃ ps,
    (∀ fuel > fmt.text.length,
      passes fmt.chars fuel 0 DEFAULT_COLOR = .ok (ps, fmt.text.length)) ∧
      Covers fmt.chars 0 fmt.text DEFAULT_COLOR ps := by
  obtain ⟨ps, run, covers⟩ : Reads fmt.chars 0 fmt.text DEFAULT_COLOR := reads_text fmt.holds
  rw [Nat.zero_add] at run
  exact ⟨ps, run, covers⟩

/-- What `print` passes to `printChar`. -/
theorem printed_withDollar (a : Arguments) : ∃ enough, ∀ fuel > enough,
    printed fuel fmt.chars a.inputs =
      .ok (meaning a.texts (withDollar (pieces fmt.text)) 1 DEFAULT_COLOR) := by
  obtain ⟨ps, run, covers⟩ := passes_covers fmt
  obtain ⟨enough, result⟩ := a.renders.print (run _ (Nat.lt_succ_self _)) 1 []
  rw [covers.shows, List.nil_append] at result
  exact ⟨enough, result⟩

/-- The loop of `print` reads every format to its NUL and no further. It takes one argument for
each directive of the format that has one, in their order, and it returns. So does the loop
for every string that is the same up to the NUL. -/
theorem print_reads :
    ∃ ps, (∀ p ∈ ps, ∀ read ∈ p.reads, read ≤ fmt.text.length) ∧
      served ps = arguments (pieces fmt.text) ∧
      taken 1 ps = List.range' 1 (arguments (pieces fmt.text)).length ∧
      ∀ str, (∀ i ≤ fmt.text.length, str i = fmt.chars i) →
        (∀ fuel > fmt.text.length,
          passes str fuel 0 DEFAULT_COLOR = .ok (ps, fmt.text.length)) ∧
        ∀ (a : Arguments) (d : Vga), ∃ enough, ∀ fuel > enough,
          print printChar str a.inputs fuel 0 1 DEFAULT_COLOR d =
            .ok (printAll d (shown a.texts ps 1)) := by
  obtain ⟨ps, run, covers⟩ := passes_covers fmt
  have inside := covers.inside
  rw [Nat.zero_add] at inside
  refine ⟨ps, inside, covers.serves, ?_, fun str same => ?_⟩
  · rw [taken_eq, covers.serves]
  · have run' : ∀ fuel > fmt.text.length,
        passes str fuel 0 DEFAULT_COLOR = .ok (ps, fmt.text.length) := by
      intro fuel enough
      refine passes_local (run fuel enough) ?_ (same _ (Nat.le_refl _))
      exact fun p hp read hr => same read (inside p hp read hr)
    refine ⟨run', fun a d => ?_⟩
    obtain ⟨enough, result⟩ := a.renders.print (run' _ (Nat.lt_succ_self _)) 1 []
    refine ⟨enough, fun fuel more => ?_⟩
    rw [print_eq, printed, result fuel more]
    rfl

/-- `print` passes to `printChar` what a format means, if and only if there is no `%#$` in it. -/
theorem print_meaning_iff (a : Arguments) :
    (∃ enough, ∀ fuel > enough, printed fuel fmt.chars a.inputs =
        .ok (meaning a.texts (pieces fmt.text) 1 DEFAULT_COLOR)) ↔
      .defaultColor ∉ pieces fmt.text := by
  have result := printed_withDollar fmt a
  rw [← meaning_withDollar_iff a.texts (pieces fmt.text) 1 DEFAULT_COLOR]
  constructor
  · exact fun result' => printed_result result result'
  · intro same
    rw [same] at result
    exact result

end Results

/-- Nothing is printed for `%#$`, as it should be, but `print` prints the `$`. -/
theorem print_meaning_fails :
    let fmt : CString := .ofList [ascii '%', ascii '#', ascii '$'] (by decide)
    let a : Arguments := ⟨fun _ => 0, fun _ => .ofList [] (by decide), fun _ => 0, 0⟩
    meaning a.texts (pieces fmt.text) 1 DEFAULT_COLOR = [] ∧
      (∃ enough, ∀ fuel > enough,
        printed fuel fmt.chars a.inputs = .ok [(ascii '$', DEFAULT_COLOR)]) ∧
      ¬ ∃ enough, ∀ fuel > enough, printed fuel fmt.chars a.inputs =
        .ok (meaning a.texts (pieces fmt.text) 1 DEFAULT_COLOR) := by
  intro fmt a
  have switch : pieces fmt.text = [.defaultColor] := pieces_dollar []
  have result := printed_withDollar fmt a
  rw [switch] at result ⊢
  refine ⟨rfl, result, fun result' => ?_⟩
  exact nomatch printed_result result result'

end HiveRK.Display
