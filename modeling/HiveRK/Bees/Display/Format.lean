import HiveRK.Bees.Display.Basic

/-!
# The format language of `print`

`pieces` reads a format from left to right. A piece is a text that is printed as it is, a
directive that takes an argument, or a change of the colour. `Texts` says what a directive
prints for an argument.
-/

namespace HiveRK.Display

open Machine

/-- The directives that take an argument. -/
inductive Directive where
  | char | string | decimal | integer | unsigned | hex | binary | pointer
deriving DecidableEq, Repr

namespace Directive

def letter : Directive → Byte
  | char => ascii 'c'
  | string => ascii 's'
  | decimal => ascii 'd'
  | integer => ascii 'i'
  | unsigned => ascii 'u'
  | hex => ascii 'x'
  | binary => ascii 'b'
  | pointer => ascii 'p'

def ofLetter (ch : Byte) : Option Directive :=
  [char, string, decimal, integer, unsigned, hex, binary, pointer].find? fun d => d.letter = ch

end Directive

inductive Piece where
  | text (s : List Byte)
  | argument (d : Directive)
  | color (digits : List Byte)
  | defaultColor
deriving DecidableEq

/-- The pieces of a format, without its NUL. A `%` that no directive follows is text, and so
is an unknown directive. -/
def pieces : List Byte → List Piece
  | [] => []
  | [ch] => [.text [ch]]
  | ch :: next :: rest =>
      if ch ≠ ascii '%' then .text [ch] :: pieces (next :: rest)
      else match Directive.ofLetter next with
        | some d => .argument d :: pieces rest
        | none =>
            if next = ascii '%' then .text [next] :: pieces rest
            else if next = ascii '#' then
              match rest with
              | [] => [.color []]
              | first :: rest' =>
                  if first = ascii '$' then .defaultColor :: pieces rest'
                  else if isHexDigit first then
                    match rest' with
                    | [] => [.color [first]]
                    | second :: rest'' =>
                        if isHexDigit second then .color [first, second] :: pieces rest''
                        else .color [first] :: pieces (second :: rest'')
                  else .color [] :: pieces (first :: rest')
            else .text [ch, next] :: pieces rest

section Pieces

variable (s : List Byte) {ch : Byte}

theorem pieces_plain (plain : ch ≠ ascii '%') : pieces (ch :: s) = .text [ch] :: pieces s := by
  cases s with
  | nil => rfl
  | cons next s =>
      rw [pieces.eq_def]
      exact if_pos plain

theorem pieces_argument {d : Directive} (letter : Directive.ofLetter ch = some d) :
    pieces (ascii '%' :: ch :: s) = .argument d :: pieces s := by
  rw [pieces.eq_def]
  simp only [letter, ne_eq, not_true_eq_false, if_false]

theorem pieces_percent :
    pieces (ascii '%' :: ascii '%' :: s) = .text [ascii '%'] :: pieces s := by
  rw [pieces.eq_def]
  rfl

theorem pieces_unknown (letter : Directive.ofLetter ch = none) (percent : ch ≠ ascii '%')
    (hash : ch ≠ ascii '#') :
    pieces (ascii '%' :: ch :: s) = .text [ascii '%', ch] :: pieces s := by
  rw [pieces.eq_def]
  simp only [letter, ne_eq, not_true_eq_false, if_false, if_neg percent, if_neg hash]

theorem pieces_dollar : pieces (ascii '%' :: ascii '#' :: ascii '$' :: s) =
    .defaultColor :: pieces s := by
  rw [pieces.eq_def]
  rfl

/-- No digit follows. -/
theorem pieces_color_none (dollar : s.head? ≠ some (ascii '$'))
    (other : ∀ first ∈ s.head?, ¬ isHexDigit first = true) :
    pieces (ascii '%' :: ascii '#' :: s) = .color [] :: pieces s := by
  cases s with
  | nil => rfl
  | cons first s =>
      have dollar : first ≠ ascii '$' := fun h => dollar (congrArg some h)
      rw [pieces.eq_def]
      show (if first = ascii '$' then _ else _) = _
      rw [if_neg dollar, if_neg (other first rfl)]

theorem pieces_color_one (dollar : ch ≠ ascii '$') (digit : isHexDigit ch = true)
    (other : ∀ second ∈ s.head?, ¬ isHexDigit second = true) :
    pieces (ascii '%' :: ascii '#' :: ch :: s) = .color [ch] :: pieces s := by
  rw [pieces.eq_def]
  show (if ch = ascii '$' then _ else _) = _
  rw [if_neg dollar, if_pos digit]
  cases s with
  | nil => rfl
  | cons second s => exact if_neg (other second rfl)

theorem pieces_color_two {second : Byte} (dollar : ch ≠ ascii '$') (digit : isHexDigit ch = true)
    (digit' : isHexDigit second = true) :
    pieces (ascii '%' :: ascii '#' :: ch :: second :: s) = .color [ch, second] :: pieces s := by
  rw [pieces.eq_def]
  show (if ch = ascii '$' then _ else _) = _
  rw [if_neg dollar, if_pos digit]
  exact if_pos digit'

example : pieces (['%', '#', '4', 'f', '%', 'd', '%', '#', '$', '%'].map ascii) =
    [.color [ascii '4', ascii 'f'], .argument .decimal, .defaultColor, .text [ascii '%']] := rfl

end Pieces

/-- The colour for the digits of a directive: the first one is the text colour and the second
one the background, which is the default one if there is no second digit. -/
def selectColor (digits : List Byte) (color : Int) : Int :=
  match digits with
  | [] => color
  | [text] => hexToInt text
  | text :: background :: _ => 16 * hexToInt background + hexToInt text

/-- The text for each directive, when it takes the argument with an index. -/
abbrev Texts := Directive → Nat → List Byte

/-- What a format prints, with the colour of each character. -/
def meaning (texts : Texts) : List Piece → Nat → Int → List (Byte × Int)
  | [], _, _ => []
  | .text s :: ps, argsIndex, color => s.map (·, color) ++ meaning texts ps argsIndex color
  | .argument d :: ps, argsIndex, color =>
      (texts d argsIndex).map (·, color) ++ meaning texts ps (argsIndex + 1) color
  | .color digits :: ps, argsIndex, color =>
      meaning texts ps argsIndex (selectColor digits color)
  | .defaultColor :: ps, argsIndex, _ => meaning texts ps argsIndex DEFAULT_COLOR

/-- The directives that take an argument, in their order. -/
def arguments : List Piece → List Directive
  | [] => []
  | .argument d :: ps => d :: arguments ps
  | .text _ :: ps | .color _ :: ps | .defaultColor :: ps => arguments ps

/-- `print` prints the `$` of a `%#$`. -/
def withDollar : List Piece → List Piece
  | [] => []
  | .text s :: ps => .text s :: withDollar ps
  | .argument d :: ps => .argument d :: withDollar ps
  | .color digits :: ps => .color digits :: withDollar ps
  | .defaultColor :: ps => .defaultColor :: .text [ascii '$'] :: withDollar ps

section Dollars

variable {texts : Texts}

/-- Every `%#$` makes what is printed one character longer. -/
theorem length_meaning_withDollar (ps : List Piece) (argsIndex : Nat) (color : Int) :
    (meaning texts (withDollar ps) argsIndex color).length =
      (meaning texts ps argsIndex color).length + ps.count .defaultColor := by
  induction ps generalizing argsIndex color with
  | nil => rfl
  | cons p ps ih =>
      cases p with
      | text s =>
          rw [withDollar, meaning, meaning, List.length_append, List.length_append, ih,
            List.count_cons_of_ne (Piece.noConfusion), Nat.add_assoc]
      | argument d =>
          rw [withDollar, meaning, meaning, List.length_append, List.length_append, ih,
            List.count_cons_of_ne (Piece.noConfusion), Nat.add_assoc]
      | color digits =>
          rw [withDollar, meaning, meaning, ih, List.count_cons_of_ne (Piece.noConfusion)]
      | defaultColor =>
          rw [withDollar, meaning, meaning, meaning, List.length_append, ih, List.count_cons_self,
            List.length_map, List.length_singleton]
          omega

theorem withDollar_eq {ps : List Piece} (none : .defaultColor ∉ ps) : withDollar ps = ps := by
  induction ps with
  | nil => rfl
  | cons p ps ih =>
      have rest := ih fun h => none (List.mem_cons_of_mem p h)
      cases p with
      | defaultColor => exact absurd List.mem_cons_self none
      | text s => rw [withDollar, rest]
      | argument d => rw [withDollar, rest]
      | color digits => rw [withDollar, rest]

/-- The `$` is the only difference, and it makes one. -/
theorem meaning_withDollar_iff (texts : Texts) (ps : List Piece) (argsIndex : Nat) (color : Int) :
    meaning texts (withDollar ps) argsIndex color = meaning texts ps argsIndex color ↔
      .defaultColor ∉ ps := by
  constructor
  · intro same
    have length := @length_meaning_withDollar texts ps argsIndex color
    rw [same] at length
    exact List.count_eq_zero.mp (by omega)
  · intro none
    rw [withDollar_eq none]

end Dollars

end HiveRK.Display
