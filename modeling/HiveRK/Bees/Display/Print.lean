import HiveRK.Bees.Display.Format
import HiveRK.Bees.Display.OnScreen

/-!
# The loop of `print`

`pass` is one pass of the loop: the indices of the format that it reads, what it prints, and
where it leaves the index. `print_succ` says that `print` is nothing but these passes, and
`reads_text` what all of them together make of a format.
-/

namespace HiveRK.Display

open Machine

/-- What a pass prints. -/
inductive Action where
  | nothing
  | char (ch : Byte)
  | argument (d : Directive)

/-- The number of entries of `args` that an action takes. -/
def Action.takes : Action → Nat
  | .argument _ => 1
  | .nothing | .char _ => 0

structure Pass where
  reads : List Nat
  action : Action
  next : Nat
  color : Int

/-- The indices that are read behind `%#`. -/
def colorReads (str : Nat → Byte) (index : Nat) : List Nat :=
  if str index = ascii '$' then [index]
  else if isHexDigit (str index) then
    if isHexDigit (str (index + 1)) then [index, index, index, index + 1, index + 1]
    else [index, index, index, index + 1]
  else [index, index]

/-- A pass of the loop, with the read of its guard. -/
def pass (str : Nat → Byte) (index : Nat) (color : Int) : Pass :=
  if str index = ascii '%' then
    match Directive.ofLetter (str (index + 1)) with
    | some d => ⟨[index, index, index + 1], .argument d, index + 2, color⟩
    | none =>
        if str (index + 1) = ascii '#' then
          let next := hexColor str (index + 2) color
          ⟨[index, index, index + 1] ++ colorReads str (index + 2), .nothing, next.2, next.1⟩
        else if str (index + 1) = ascii '%' then
          ⟨[index, index, index + 1], .char (ascii '%'), index + 2, color⟩
        else ⟨[index, index, index + 1], .char (ascii '%'), index + 1, color⟩
  else ⟨[index, index, index], .char (str index), index + 1, color⟩

/-- The command of the utility module that converts the argument, and the type it is given. -/
def Directive.conversion : Directive → Option (Nat × Nat)
  | decimal | integer => some (1, I32)
  | unsigned => some (1, U32)
  | hex | pointer => some (3, U32)
  | binary => some (4, U32)
  | char | string => none

section Print

variable {σ : Type} (put : σ → Byte → Int → σ)

/-- What `print` does for an action. -/
def Action.print (inputs : Inputs) (fuel argsIndex : Nat) (color : Int) (s : σ) :
    Action → Exec σ
  | .nothing => .ok s
  | .char ch => .ok (put s ch color)
  | .argument d =>
      let arg := inputs.args argsIndex
      let s := if d = .pointer then put (put s (ascii '0') color) (ascii 'x') color else s
      match d.conversion with
      | some (CMD, type) => printStr put (inputs.util CMD type arg) color fuel 0 s
      | none =>
          if d = .char then .ok (put s (BitVec.ofInt 8 arg) color)
          else printStr put (inputs.str arg) color fuel 0 s

theorem letter_of_some {ch : Byte} {d : Directive} (h : Directive.ofLetter ch = some d) :
    ch = d.letter := by
  rw [Directive.ofLetter] at h
  have found := List.find?_some h
  exact (of_decide_eq_true found).symm

theorem letter_of_none {ch : Byte} (h : Directive.ofLetter ch = none) (d : Directive) :
    ch ≠ d.letter := by
  intro same
  have none := List.find?_eq_none.mp h d (by cases d <;> decide)
  exact none (decide_eq_true same.symm)

/-- `print` is its passes. -/
theorem print_succ (str : Nat → Byte) (inputs : Inputs) (fuel index argsIndex : Nat)
    (color : Int) (s : σ) :
    print put str inputs (fuel + 1) index argsIndex color s =
      if str index = 0 then .ok s
      else (pass str index color).action.print put inputs fuel argsIndex color s >>= fun s =>
        print put str inputs fuel (pass str index color).next
          (argsIndex + (pass str index color).action.takes) (pass str index color).color s := by
  rw [print, pass]
  by_cases done : str index = 0
  · rw [if_pos done, if_pos done]
  · rw [if_neg done, if_neg done]
    by_cases percent : str index = ascii '%'
    · rw [if_pos percent, if_pos percent]
      cases letter : Directive.ofLetter (str (index + 1)) with
      | some d =>
          rw [letter_of_some letter]
          cases d with
          | char | string | decimal | integer | unsigned | hex | binary | pointer => rfl
      | none =>
          have other := letter_of_none letter
          have c : str (index + 1) ≠ ascii 'c' := other .char
          have string : str (index + 1) ≠ ascii 's' := other .string
          have decimal : ¬ (str (index + 1) = ascii 'd' ∨ str (index + 1) = ascii 'i') :=
            not_or.mpr ⟨other .decimal, other .integer⟩
          have unsigned : str (index + 1) ≠ ascii 'u' := other .unsigned
          have hex : str (index + 1) ≠ ascii 'x' := other .hex
          have binary : str (index + 1) ≠ ascii 'b' := other .binary
          have pointer : str (index + 1) ≠ ascii 'p' := other .pointer
          simp only [if_neg c, if_neg string, if_neg decimal, if_neg unsigned, if_neg hex,
            if_neg binary, if_neg pointer]
          split_ifs
          · rfl
          · rfl
          · rfl
    · rw [if_neg percent, if_neg percent]
      rfl

end Print

/-- The passes until the NUL, and its index. -/
def passes (str : Nat → Byte) : Nat → Nat → Int → Exec (List Pass × Nat)
  | 0, _, _ => .error .fuel
  | fuel + 1, index, color =>
      if str index = 0 then .ok ([], index)
      else do
        let p := pass str index color
        let (ps, last) ← passes str fuel p.next p.color
        .ok (p :: ps, last)

/-- The entries of `args` that passes take, from `argsIndex` on. -/
def taken : Nat → List Pass → List Nat
  | _, [] => []
  | argsIndex, p :: ps =>
      List.range' argsIndex p.action.takes ++ taken (argsIndex + p.action.takes) ps

/-- The directives of the passes that take an argument. -/
def served : List Pass → List Directive
  | [] => []
  | p :: ps => match p.action with
    | .argument d => d :: served ps
    | .nothing | .char _ => served ps

/-- What a pass prints, in its colour. -/
def Pass.shows (texts : Texts) (argsIndex : Nat) (p : Pass) : List (Byte × Int) :=
  match p.action with
  | .nothing => []
  | .char ch => [(ch, p.color)]
  | .argument d => (texts d argsIndex).map (·, p.color)

/-- What passes print. -/
def shown (texts : Texts) : List Pass → Nat → List (Byte × Int)
  | [], _ => []
  | p :: ps, argsIndex =>
      p.shows texts argsIndex ++ shown texts ps (argsIndex + p.action.takes)

theorem taken_eq (argsIndex : Nat) (ps : List Pass) :
    taken argsIndex ps = List.range' argsIndex (served ps).length := by
  induction ps generalizing argsIndex with
  | nil => rfl
  | cons p ps ih =>
      obtain ⟨reads, action, next, color⟩ := p
      cases action with
      | nothing | char ch => exact ih argsIndex
      | argument d => exact congrArg (argsIndex :: ·) (ih (argsIndex + 1))

/-- From `i` on there is the text `s`, and a NUL behind it. -/
def TextAt (str : Nat → Byte) : Nat → List Byte → Prop
  | i, [] => str i = 0
  | i, ch :: s => str i = ch ∧ ch ≠ 0 ∧ TextAt str (i + 1) s

/-- The passes over a text stay in it, serve its directives and print what it means, except
that the `$` of a `%#$` is printed. -/
structure Covers (str : Nat → Byte) (i : Nat) (s : List Byte) (color : Int) (ps : List Pass) :
    Prop where
  inside : ∀ p ∈ ps, ∀ read ∈ p.reads, read ≤ i + s.length
  serves : served ps = arguments (pieces s)
  shows : ∀ texts argsIndex,
    shown texts ps argsIndex = meaning texts (withDollar (pieces s)) argsIndex color

section Reading

variable {str : Nat → Byte} {i : Nat} {s : List Byte} {color : Int}

/-! The passes, by what they find. -/

theorem pass_plain (plain : str i ≠ ascii '%') :
    pass str i color = ⟨[i, i, i], .char (str i), i + 1, color⟩ := if_neg plain

theorem pass_argument (percent : str i = ascii '%') {d : Directive}
    (letter : Directive.ofLetter (str (i + 1)) = some d) :
    pass str i color = ⟨[i, i, i + 1], .argument d, i + 2, color⟩ := by
  rw [pass, if_pos percent, letter]

theorem pass_color (percent : str i = ascii '%') (hash : str (i + 1) = ascii '#') :
    pass str i color = ⟨[i, i, i + 1] ++ colorReads str (i + 2), .nothing,
      (hexColor str (i + 2) color).2, (hexColor str (i + 2) color).1⟩ := by
  rw [pass, if_pos percent, hash]
  rfl

theorem pass_percent (percent : str i = ascii '%') (again : str (i + 1) = ascii '%') :
    pass str i color = ⟨[i, i, i + 1], .char (ascii '%'), i + 2, color⟩ := by
  rw [pass, if_pos percent, again]
  rfl

theorem pass_unknown (percent : str i = ascii '%')
    (letter : Directive.ofLetter (str (i + 1)) = none) (hash : str (i + 1) ≠ ascii '#')
    (again : str (i + 1) ≠ ascii '%') :
    pass str i color = ⟨[i, i, i + 1], .char (ascii '%'), i + 1, color⟩ := by
  rw [pass, if_pos percent, letter]
  simp only [if_neg hash, if_neg again]

/-! The loop, as far as its passes. -/

variable {fuel : Nat}

theorem passes_nul (nul : str i = 0) : passes str (fuel + 1) i color = .ok ([], i) := if_pos nul

theorem passes_some (some : str i ≠ 0) :
    passes str (fuel + 1) i color =
      (passes str fuel (pass str i color).next (pass str i color).color).map fun result =>
        (pass str i color :: result.1, result.2) := by
  rw [passes, if_neg some]
  rfl

/-! A pass depends on nothing but what it reads. -/

section Local

variable {str' : Nat → Byte}

theorem hexColor_local (same : ∀ read ∈ colorReads str i, str' read = str read) :
    hexColor str' i color = hexColor str i color ∧ colorReads str' i = colorReads str i := by
  have here : str' i = str i := by
    refine same i ?_
    rw [colorReads]
    split_ifs <;> simp
  by_cases dollar : str i = ascii '$'
  · simp only [hexColor, colorReads, here, if_pos dollar, and_self]
  · by_cases digit : isHexDigit (str i) = true
    · have there : str' (i + 1) = str (i + 1) := by
        refine same (i + 1) ?_
        rw [colorReads, if_neg dollar, if_pos digit]
        split_ifs <;> simp
      simp only [hexColor, colorReads, here, there, and_self]
    · simp only [hexColor, colorReads, here, if_neg dollar, if_neg digit, and_self]

/-- A pass reads the character at its index, and the next one behind a `%`. -/
theorem mem_reads (str : Nat → Byte) (i : Nat) (color : Int) :
    i ∈ (pass str i color).reads ∧
      (str i = ascii '%' → i + 1 ∈ (pass str i color).reads) := by
  by_cases percent : str i = ascii '%'
  · by_cases hash : str (i + 1) = ascii '#'
    · simp [pass_color percent hash]
    · rw [pass, if_pos percent]
      cases Directive.ofLetter (str (i + 1)) with
      | some d => simp
      | none =>
          simp only [if_neg hash]
          split_ifs <;> simp
  · simp [pass_plain percent, percent]

theorem pass_local (same : ∀ read ∈ (pass str i color).reads, str' read = str read) :
    pass str' i color = pass str i color := by
  by_cases percent : str i = ascii '%'
  · have here := (same i (mem_reads str i color).1).trans percent
    have there := same (i + 1) ((mem_reads str i color).2 percent)
    by_cases hash : str (i + 1) = ascii '#'
    · rw [pass_color percent hash] at same
      have behind : hexColor str' (i + 2) color = hexColor str (i + 2) color ∧
          colorReads str' (i + 2) = colorReads str (i + 2) :=
        hexColor_local fun read hr => same read (List.mem_append_right _ hr)
      rw [pass_color here (there.trans hash), pass_color percent hash, behind.1, behind.2]
    · rw [pass, pass, here, percent, there]
      cases Directive.ofLetter (str (i + 1)) with
      | some d => rfl
      | none => simp only [if_neg hash]
  · have here := same i (mem_reads str i color).1
    rw [pass_plain percent, pass_plain (here ▸ percent), here]

/-- What is behind the NUL makes no difference. -/
theorem passes_local {last : Nat} {ps : List Pass}
    (run : passes str fuel i color = .ok (ps, last))
    (same : ∀ p ∈ ps, ∀ read ∈ p.reads, str' read = str read) (nul : str' last = str last) :
    passes str' fuel i color = .ok (ps, last) := by
  induction fuel generalizing i color ps with
  | zero => exact nomatch run
  | succ fuel ih =>
      by_cases done : str i = 0
      · rw [passes_nul done] at run
        obtain ⟨rfl, rfl⟩ := Prod.mk.inj (Except.ok.inj run)
        exact passes_nul (nul.trans done)
      · rw [passes_some done] at run
        cases rest : passes str fuel (pass str i color).next (pass str i color).color with
        | error stop =>
            rw [rest] at run
            exact nomatch run
        | ok result =>
            rw [rest] at run
            obtain ⟨rfl, rfl⟩ := Prod.mk.inj (Except.ok.inj run)
            have first := same _ List.mem_cons_self
            have here := first i (mem_reads str i color).1
            have behind := ih rest fun p hp => same p (List.mem_cons_of_mem _ hp)
            rw [passes_some (here ▸ done), pass_local first, behind]
            rfl

end Local

/-! What a pass adds to the passes behind it. -/

/-- The passes from `i` on read the text `s`, to its NUL. -/
def Reads (str : Nat → Byte) (i : Nat) (s : List Byte) (color : Int) : Prop :=
  ∃ ps, (∀ fuel > s.length, passes str fuel i color = .ok (ps, i + s.length)) ∧
    Covers str i s color ps

variable {next : Nat} {s' : List Byte} {reads : List Nat} {color' : Int} {action : Action}

/-- The pass leaves the text `s'` of `s`. -/
structure Leaves (i : Nat) (s : List Byte) (reads : List Nat) (next : Nat) (s' : List Byte) :
    Prop where
  length : next + s'.length = i + s.length
  advances : i < next
  inside : ∀ read ∈ reads, read ≤ i + s.length

theorem Leaves.passes_cons {ps : List Pass} (leaves : Leaves i s reads next s')
    (some : str i ≠ 0) (here : pass str i color = ⟨reads, action, next, color'⟩)
    (rest : ∀ fuel > s'.length, passes str fuel next color' = .ok (ps, next + s'.length)) :
    ∀ fuel > s.length,
      passes str fuel i color = .ok (⟨reads, action, next, color'⟩ :: ps, i + s.length) := by
  intro fuel enough
  obtain ⟨fuel, rfl⟩ := Nat.exists_eq_add_of_lt enough
  have length := leaves.length
  have advances := leaves.advances
  have shorter : s.length + fuel > s'.length := by omega
  rw [passes_some some, here]
  show (passes str (s.length + fuel) next color').map _ = _
  rw [rest _ shorter, length]
  rfl

theorem Leaves.inside_cons {ps : List Pass} (leaves : Leaves i s reads next s')
    (rest : Covers str next s' color' ps) :
    ∀ p ∈ ⟨reads, action, next, color'⟩ :: ps, ∀ read ∈ p.reads, read ≤ i + s.length := by
  intro p hp
  obtain rfl | later := List.mem_cons.mp hp
  · exact leaves.inside
  · exact leaves.length ▸ rest.inside p later

theorem Reads.char {ch : Byte} (rest : Reads str next s' color) (some : str i ≠ 0)
    (here : pass str i color = ⟨reads, .char ch, next, color⟩)
    (leaves : Leaves i s reads next s')
    (serves : arguments (pieces s) = arguments (pieces s'))
    (shows : ∀ texts argsIndex, meaning texts (withDollar (pieces s)) argsIndex color =
      (ch, color) :: meaning texts (withDollar (pieces s')) argsIndex color) :
    Reads str i s color := by
  obtain ⟨ps, run, covers⟩ := rest
  refine ⟨_, leaves.passes_cons some here run, leaves.inside_cons covers, ?_, ?_⟩
  · exact covers.serves.trans serves.symm
  · intro texts argsIndex
    rw [shows, ← covers.shows]
    rfl

theorem Reads.argument {d : Directive} (rest : Reads str next s' color) (some : str i ≠ 0)
    (here : pass str i color = ⟨reads, .argument d, next, color⟩)
    (leaves : Leaves i s reads next s') (first : pieces s = .argument d :: pieces s') :
    Reads str i s color := by
  obtain ⟨ps, run, covers⟩ := rest
  refine ⟨_, leaves.passes_cons some here run, leaves.inside_cons covers, ?_, ?_⟩
  · rw [first]
    exact congrArg (d :: ·) covers.serves
  · intro texts argsIndex
    rw [first]
    exact congrArg _ (covers.shows texts (argsIndex + 1))

theorem Reads.nothing (rest : Reads str next s' color') (some : str i ≠ 0)
    (here : pass str i color = ⟨reads, .nothing, next, color'⟩)
    (leaves : Leaves i s reads next s')
    (serves : arguments (pieces s) = arguments (pieces s'))
    (shows : ∀ texts argsIndex, meaning texts (withDollar (pieces s)) argsIndex color =
      meaning texts (withDollar (pieces s')) argsIndex color') :
    Reads str i s color := by
  obtain ⟨ps, run, covers⟩ := rest
  refine ⟨_, leaves.passes_cons some here run, leaves.inside_cons covers, ?_, ?_⟩
  · exact covers.serves.trans serves.symm
  · intro texts argsIndex
    rw [shows, ← covers.shows]
    rfl

/-- At the NUL the loop ends. -/
theorem reads_nil (nul : str i = 0) : Reads str i [] color := by
  refine ⟨[], ?_, ⟨fun _ hp => (nomatch hp), rfl, fun _ _ => rfl⟩⟩
  intro fuel enough
  obtain ⟨fuel, rfl⟩ := Nat.exists_eq_add_of_lt enough
  exact passes_nul nul

/-! Colours. -/

theorem hexToInt_lt {ch : Byte} (digit : isHexDigit ch = true) :
    ∃ d < 16, hexToInt ch = (d : Nat) := by
  have zero : (ascii '0').toNat = 48 := rfl
  have nine : (ascii '9').toNat = 57 := rfl
  have a : (ascii 'a').toNat = 97 := rfl
  have f : (ascii 'f').toNat = 102 := rfl
  have A : (ascii 'A').toNat = 65 := rfl
  have F : (ascii 'F').toNat = 70 := rfl
  simp only [isHexDigit, decide_eq_true_eq, BitVec.le_def, zero, nine, a, f, A, F] at digit
  refine ⟨(hexToInt ch).toNat, ?_, ?_⟩
  · simp only [hexToInt, BitVec.le_def, zero, nine, a, f, A, F]
    omega
  · simp only [hexToInt, BitVec.le_def, zero, nine, a, f, A, F]
    omega

theorem hexColor_none (color : Int) (dollar : str i ≠ ascii '$')
    (other : ¬ isHexDigit (str i) = true) :
    hexColor str i color = (color, i) ∧ colorReads str i = [i, i] := by
  rw [hexColor, colorReads, if_neg dollar, if_neg other, if_neg dollar, if_neg other]
  exact ⟨rfl, rfl⟩

theorem hexColor_one (color : Int) (dollar : str i ≠ ascii '$') (digit : isHexDigit (str i) = true)
    (other : ¬ isHexDigit (str (i + 1)) = true) :
    hexColor str i color = (hexToInt (str i), i + 1) ∧ colorReads str i = [i, i, i, i + 1] := by
  obtain ⟨text, less, value⟩ := hexToInt_lt digit
  have select : ∀ text < 16, ((DEFAULT_COLOR.toNat &&& 0xF0) ||| (text &&& 0xF)) = text := by decide
  rw [hexColor, colorReads, if_neg dollar, if_pos digit, if_neg other, if_neg dollar,
    if_pos digit, if_neg other, value]
  exact ⟨congrArg (fun n : Nat => ((n : Int), i + 1)) (select text less), rfl⟩

theorem hexColor_two (color : Int) (dollar : str i ≠ ascii '$') (digit : isHexDigit (str i) = true)
    (digit' : isHexDigit (str (i + 1)) = true) :
    hexColor str i color = (16 * hexToInt (str (i + 1)) + hexToInt (str i), i + 2) ∧
      colorReads str i = [i, i, i, i + 1, i + 1] := by
  obtain ⟨text, less, value⟩ := hexToInt_lt digit
  obtain ⟨background, less', value'⟩ := hexToInt_lt digit'
  have select : ∀ background < 16, ∀ text < 16,
      ((background <<< 4 &&& 0xF0) ||| (text &&& 0xF)) = 16 * background + text := by decide
  rw [hexColor, colorReads, if_neg dollar, if_pos digit, if_pos digit', if_neg dollar,
    if_pos digit, if_pos digit', value, value']
  exact ⟨congrArg (fun n : Nat => ((n : Int), i + 2)) (select background less' text less), rfl⟩

/-! The text. -/

theorem percent_ne_zero : ascii '%' ≠ 0 := by decide

theorem Reads.plain {ch : Byte} (rest : Reads str (i + 1) s color) (here : str i = ch)
    (some : ch ≠ 0) (plain : ch ≠ ascii '%') : Reads str i (ch :: s) color := by
  have pass : pass str i color = ⟨[i, i, i], .char ch, i + 1, color⟩ := by
    rw [pass_plain (here ▸ plain), here]
  refine rest.char (here ▸ some) pass ⟨?_, Nat.lt_succ_self i, ?_⟩ ?_ ?_
  · rw [List.length_cons]
    omega
  · simp
  · rw [pieces_plain s plain]
    rfl
  · intro texts argsIndex
    rw [pieces_plain s plain]
    rfl

/-- A directive is two characters. -/
theorem leaves_two (ch next : Byte) : Leaves i (ch :: next :: s) [i, i, i + 1] (i + 2) s where
  length := by
    rw [List.length_cons, List.length_cons]
    omega
  advances := by omega
  inside := by simp

/-- A colour directive. The pass takes its digits. -/
theorem Reads.selected (digits : List Byte) {behind : List Byte}
    (rest : Reads str (i + 2 + digits.length) s (selectColor digits color))
    (percent : str i = ascii '%') (hash : str (i + 1) = ascii '#')
    (behind_eq : behind = digits ++ s)
    (here : hexColor str (i + 2) color = (selectColor digits color, i + 2 + digits.length))
    (reads : ∀ read ∈ colorReads str (i + 2), read ≤ i + 2 + digits.length + s.length)
    (first : pieces (ascii '%' :: ascii '#' :: behind) = .color digits :: pieces s) :
    Reads str i (ascii '%' :: ascii '#' :: behind) color := by
  have pass : pass str i color = _ := pass_color percent hash
  rw [here] at pass
  have length : (ascii '%' :: ascii '#' :: behind).length = 2 + digits.length + s.length := by
    rw [behind_eq, List.length_cons, List.length_cons, List.length_append]
    omega
  refine rest.nothing (percent ▸ percent_ne_zero) pass ⟨?_, ?_, ?_⟩ ?_ ?_
  · omega
  · omega
  · intro read hr
    obtain hr | hr := List.mem_append.mp hr
    · simp only [List.mem_cons, List.not_mem_nil, or_false] at hr
      omega
    · have := reads read hr
      omega
  · rw [first]
    rfl
  · intro texts argsIndex
    rw [first]
    rfl

/-- What is read where a text begins. -/
theorem TextAt.read (at_i : TextAt str i s) : str i = s.head?.getD 0 := by
  cases s with
  | nil => exact at_i
  | cons ch s => exact at_i.1

/-- No digit begins a text, so none is read there. -/
theorem TextAt.not_digit (at_i : TextAt str i s)
    (other : ∀ first ∈ s.head?, ¬ isHexDigit first = true) : ¬ isHexDigit (str i) = true := by
  rw [at_i.read]
  cases s with
  | nil => decide
  | cons ch s => exact other ch rfl

theorem Reads.color_none (rest : Reads str (i + 2) s color) (percent : str i = ascii '%')
    (hash : str (i + 1) = ascii '#') (behind : TextAt str (i + 2) s)
    (dollar : s.head? ≠ some (ascii '$'))
    (other : ∀ first ∈ s.head?, ¬ isHexDigit first = true) :
    Reads str i (ascii '%' :: ascii '#' :: s) color := by
  have dollar' : str (i + 2) ≠ ascii '$' := by
    intro h
    rw [behind.read] at h
    cases s with
    | nil => exact absurd h (by decide)
    | cons ch s => exact dollar (congrArg some h)
  obtain ⟨here, reads⟩ := hexColor_none color dollar' (behind.not_digit other)
  refine Reads.selected [] rest percent hash rfl here ?_
    (pieces_color_none s dollar other)
  rw [reads]
  simp

theorem Reads.color_one {ch : Byte} (rest : Reads str (i + 3) s (hexToInt ch))
    (percent : str i = ascii '%') (hash : str (i + 1) = ascii '#')
    (behind : TextAt str (i + 2) (ch :: s)) (dollar : ch ≠ ascii '$')
    (digit : isHexDigit ch = true) (other : ∀ second ∈ s.head?, ¬ isHexDigit second = true) :
    Reads str i (ascii '%' :: ascii '#' :: ch :: s) color := by
  obtain ⟨first, _, behind⟩ := behind
  obtain ⟨here, reads⟩ := hexColor_one color (first ▸ dollar) (first ▸ digit)
    (behind.not_digit other)
  refine Reads.selected [ch] rest percent hash rfl (first ▸ here) ?_
    (pieces_color_one s dollar digit other)
  rw [reads]
  simp
  omega

theorem Reads.color_two {ch second : Byte}
    (rest : Reads str (i + 4) s (16 * hexToInt second + hexToInt ch)) (percent : str i = ascii '%')
    (hash : str (i + 1) = ascii '#') (behind : TextAt str (i + 2) (ch :: second :: s))
    (dollar : ch ≠ ascii '$') (digit : isHexDigit ch = true) (digit' : isHexDigit second = true) :
    Reads str i (ascii '%' :: ascii '#' :: ch :: second :: s) color := by
  obtain ⟨first, _, last, _, _⟩ := behind
  obtain ⟨here, reads⟩ := hexColor_two color (first ▸ dollar) (first ▸ digit)
    (last ▸ digit')
  refine Reads.selected [ch, second] rest percent hash rfl (first ▸ last ▸ here) ?_
    (pieces_color_two s dollar digit digit')
  rw [reads]
  simp
  omega

/-- The `$` stays behind the pass of `%#`, and is printed. -/
theorem Reads.dollar (rest : Reads str (i + 3) s DEFAULT_COLOR) (percent : str i = ascii '%')
    (hash : str (i + 1) = ascii '#') (dollar : str (i + 2) = ascii '$') :
    Reads str i (ascii '%' :: ascii '#' :: ascii '$' :: s) color := by
  have pass : pass str i color = _ := pass_color percent hash
  have select : hexColor str (i + 2) color = (DEFAULT_COLOR, i + 2) := if_pos dollar
  have reads : colorReads str (i + 2) = [i + 2] := if_pos dollar
  rw [select, reads] at pass
  have printed := rest.plain dollar (by decide) (by decide)
  refine printed.nothing (percent ▸ percent_ne_zero) pass ⟨?_, by omega, ?_⟩ ?_ ?_
  · simp only [List.length_cons]
    omega
  · simp
  · rw [pieces_dollar, pieces_plain s (by decide)]
    rfl
  · intro texts argsIndex
    rw [pieces_dollar, pieces_plain s (by decide)]
    rfl

/-- A `%` at the end. -/
theorem Reads.lone (percent : str i = ascii '%') (nul : str (i + 1) = 0) :
    Reads str i [ascii '%'] color := by
  have pass : pass str i color = ⟨[i, i, i + 1], .char (ascii '%'), i + 1, color⟩ :=
    pass_unknown percent (nul ▸ rfl) (nul ▸ by decide) (nul ▸ by decide)
  refine (reads_nil nul).char (percent ▸ percent_ne_zero) pass ⟨?_, by omega, ?_⟩ rfl ?_
  · simp
  · simp
  · exact fun _ _ => rfl

theorem Reads.percent (rest : Reads str (i + 2) s color) (percent : str i = ascii '%')
    (again : str (i + 1) = ascii '%') :
    Reads str i (ascii '%' :: ascii '%' :: s) color := by
  refine rest.char (percent ▸ percent_ne_zero) (pass_percent percent again) (leaves_two _ _) ?_ ?_
  · rw [pieces_percent]
    rfl
  · intro texts argsIndex
    rw [pieces_percent]
    rfl

/-- The pass leaves the index on the character of an unknown directive, and the next one prints
it. -/
theorem Reads.unknown {ch : Byte} (rest : Reads str (i + 2) s color) (percent : str i = ascii '%')
    (there : str (i + 1) = ch) (some : ch ≠ 0) (letter : Directive.ofLetter ch = none)
    (again : ch ≠ ascii '%') (hash : ch ≠ ascii '#') :
    Reads str i (ascii '%' :: ch :: s) color := by
  have next : Reads str (i + 1) (ch :: s) color := rest.plain there some again
  have pass : pass str i color = ⟨[i, i, i + 1], .char (ascii '%'), i + 1, color⟩ :=
    pass_unknown percent (there ▸ letter) (there ▸ hash) (there ▸ again)
  refine next.char (percent ▸ percent_ne_zero) pass ⟨?_, by omega, ?_⟩ ?_ ?_
  · simp only [List.length_cons]
    omega
  · simp
  · rw [pieces_unknown s letter again hash, pieces_plain s again]
    rfl
  · intro texts argsIndex
    rw [pieces_unknown s letter again hash, pieces_plain s again]
    rfl

/-- The loop reads a text to its NUL. -/
theorem reads_text (at_i : TextAt str i s) : Reads str i s color := by
  induction s using pieces.induct generalizing i color with
  | case1 => exact reads_nil at_i
  | case2 ch =>
      obtain ⟨here, some, nul⟩ := at_i
      by_cases plain : ch = ascii '%'
      · obtain rfl := plain
        exact .lone here nul
      · exact (reads_nil nul).plain here some plain
  | case3 ch next rest plain ih =>
      obtain ⟨here, some, behind⟩ := at_i
      exact (ih behind).plain here some plain
  | case4 ch next rest percent d letter ih =>
      obtain ⟨here, some, there, _, behind⟩ := at_i
      obtain rfl := not_not.mp percent
      exact (ih behind).argument (here ▸ some) (pass_argument here (there ▸ letter))
        (leaves_two _ next) (pieces_argument rest letter)
  | case5 ch rest percent letter ih =>
      obtain ⟨here, _, there, _, behind⟩ := at_i
      obtain rfl := not_not.mp percent
      exact (ih behind).percent here there
  | case6 ch percent letter other =>
      obtain ⟨here, _, there, _, nul⟩ := at_i
      obtain rfl := not_not.mp percent
      exact (reads_nil nul).color_none here there nul nofun nofun
  | case7 ch percent s letter other ih =>
      obtain ⟨here, _, there, _, dollar, _, behind⟩ := at_i
      obtain rfl := not_not.mp percent
      exact (ih behind).dollar here there dollar
  | case8 ch percent first dollar digit letter other =>
      obtain ⟨here, _, there, _, behind⟩ := at_i
      obtain rfl := not_not.mp percent
      exact (reads_nil behind.2.2).color_one here there behind dollar digit nofun
  | case9 ch percent first dollar digit second s digit' letter other ih =>
      obtain ⟨here, _, there, _, behind⟩ := at_i
      obtain rfl := not_not.mp percent
      exact (ih behind.2.2.2.2).color_two here there behind dollar digit digit'
  | case10 ch percent first dollar digit second s no_digit letter other ih =>
      obtain ⟨here, _, there, _, behind⟩ := at_i
      obtain rfl := not_not.mp percent
      refine (ih behind.2.2).color_one here there behind dollar digit ?_
      rintro _ ⟨⟩
      exact no_digit
  | case11 ch percent first s dollar no_digit letter other ih =>
      obtain ⟨here, _, there, _, behind⟩ := at_i
      obtain rfl := not_not.mp percent
      refine (ih behind).color_none here there behind ?_ ?_
      · rintro ⟨⟩
        exact dollar rfl
      · rintro _ ⟨⟩
        exact no_digit
  | case12 ch next s percent letter again hash ih =>
      obtain ⟨here, _, there, some, behind⟩ := at_i
      obtain rfl := not_not.mp percent
      exact (ih behind).unknown here there some letter again hash

end Reading

end HiveRK.Display
