import Mathlib.Data.Nat.Digits.Lemmas
import Mathlib.Tactic.Common

/-!
# Numerals

A numeral is a list of digits, the most significant one first. `numeral b w n` has as many
digits as `n` needs in base `b`, and at least `w`: with the width 1 it is the ordinary
numeral, and for a number that fits in `w` digits it has exactly `w` of them.

An alphabet gives the digits of a base their characters. What `read` and `readInt` return is
the meaning of a string, and `none` if it is not a numeral.
-/

namespace Numeral

/-- The digits of `n`, at least `w` of them. -/
def numeral (b w n : Nat) : List Nat := (Nat.digitsAppend b w n).reverse

def value (b : Nat) (ds : List Nat) : Nat := ds.foldl (fun v d => b * v + d) 0

section Digits

variable {b w n : Nat}

theorem value_eq (b : Nat) (ds : List Nat) : value b ds = Nat.ofDigits b ds.reverse := by
  rw [Nat.ofDigits_eq_foldr, List.foldr_reverse, value]
  simp only [Nat.cast_id, Nat.add_comm]

theorem value_numeral (b w n : Nat) : value b (numeral b w n) = n := by
  rw [value_eq, numeral, List.reverse_reverse, Nat.digitsAppend, Nat.ofDigits_append_replicate_zero,
    Nat.ofDigits_digits]

theorem digit_lt (base : 1 < b) : ∀ d ∈ numeral b w n, d < b := fun d hd =>
  Nat.lt_of_mem_digitsAppend base w d (List.mem_reverse.mp hd)

theorem length_numeral (base : 1 < b) (fits : n < b ^ w) : (numeral b w n).length = w := by
  rw [numeral, List.length_reverse, Nat.length_digitsAppend base w fits]

theorem length_numeral_le {k : Nat} (base : 1 < b) (fits : n < b ^ k) (wide : w ≤ k) :
    (numeral b w n).length ≤ k := by
  have digits := (Nat.digits_length_le_iff base n).mpr fits
  rw [numeral, List.length_reverse, Nat.digitsAppend, List.length_append, List.length_replicate]
  omega

theorem numeral_zero (b : Nat) : numeral b 1 0 = [0] := by
  rw [numeral, Nat.digitsAppend, Nat.digits_zero]
  rfl

/-- A number that is not 0 needs no zero in front. -/
theorem numeral_of_ne (hn : n ≠ 0) : numeral b 1 n = (Nat.digits b n).reverse := by
  have some : 0 < (Nat.digits b n).length :=
    List.length_pos_iff.mpr (Nat.digits_ne_nil_iff_ne_zero.mpr hn)
  rw [numeral, Nat.digitsAppend, Nat.sub_eq_zero_of_le some, List.replicate_zero, List.append_nil]

/-- One digit is its own numeral. -/
theorem numeral_digit (small : n < b) : numeral b 1 n = [n] := by
  by_cases zero : n = 0
  · rw [zero, numeral_zero]
  · rw [numeral_of_ne zero, Nat.digits_of_lt b n zero small, List.reverse_singleton]

/-- The last digit stands behind the numeral of the others. -/
theorem numeral_div (base : 1 < b) (long : b ≤ n) :
    numeral b 1 n = numeral b 1 (n / b) ++ [n % b] := by
  have some : 0 < n := Nat.lt_of_lt_of_le (Nat.zero_lt_of_lt base) long
  have more : n / b ≠ 0 := Nat.ne_of_gt (Nat.div_pos long (Nat.zero_lt_of_lt base))
  rw [numeral_of_ne (Nat.ne_of_gt some), numeral_of_ne more, Nat.digits_def' base some,
    List.reverse_cons]

theorem le_length_numeral (b w n : Nat) : w ≤ (numeral b w n).length := by
  rw [numeral, List.length_reverse, Nat.digitsAppend, List.length_append, List.length_replicate]
  omega

theorem numeral_ne_nil (b : Nat) (wide : 0 < w) (n : Nat) : numeral b w n ≠ [] := fun none =>
  Nat.not_lt.mpr (le_length_numeral b w n) (none ▸ wide)

theorem head_numeral (hn : n ≠ 0) : (numeral b 1 n).head? ≠ some 0 := by
  rw [numeral_of_ne hn, List.head?_reverse,
    List.getLast?_eq_some_getLast (Nat.digits_ne_nil_iff_ne_zero.mpr hn)]
  exact fun zero => Nat.getLast_digit_ne_zero b hn (Option.some.inj zero)

end Digits

/-- Characters for the digits of a base, and how they are read. -/
structure Alphabet (α : Type) (b : Nat) where
  char : Nat → α
  digit : α → Option Nat
  digit_char : ∀ d < b, digit (char d) = some d

namespace Alphabet

variable {α : Type} {b : Nat} (A : Alphabet α b)

/-- What a string without a sign denotes. -/
def read (s : List α) : Option Nat := if s = [] then none else (s.mapM A.digit).map (value b)

/-- The numeral in characters. -/
def string (w n : Nat) : List α := (numeral b w n).map A.char

section Strings

variable {A} {w n : Nat} {minus : α}

theorem mapM_digit {ds : List Nat} (digits : ∀ d ∈ ds, d < b) :
    (ds.map A.char).mapM A.digit = some ds := by
  induction ds with
  | nil => rfl
  | cons d ds ih =>
      rw [List.map_cons, List.mapM_cons, A.digit_char d (digits d List.mem_cons_self),
        ih fun d hd => digits d (List.mem_cons_of_mem _ hd)]
      rfl

theorem char_inj {d e : Nat} (hd : d < b) (he : e < b) (same : A.char d = A.char e) : d = e := by
  have read := A.digit_char d hd
  rw [same, A.digit_char e he] at read
  exact (Option.some.inj read).symm

/-- A numeral reads as its number. -/
theorem read_string (base : 1 < b) (some : numeral b w n ≠ []) :
    A.read (A.string w n) = .some n := by
  have full : A.string w n ≠ [] := fun none => some (List.map_eq_nil_iff.mp none)
  rw [read, if_neg full, string, mapM_digit (digit_lt base), Option.map_some, value_numeral]

/-- A string that can be read has nothing but digits. -/
theorem digit_of_read {s : List α} (reads : A.read s = .some n) :
    ∀ c ∈ s, A.digit c ≠ none := by
  rw [read] at reads
  split_ifs at reads with none
  obtain ⟨ds, digits, -⟩ := Option.map_eq_some_iff.mp reads
  clear reads none
  induction s generalizing ds with
  | nil => exact fun c hc => absurd hc (List.not_mem_nil)
  | cons c s ih =>
      rw [List.mapM_cons] at digits
      obtain ⟨d, digit, rest⟩ := Option.bind_eq_some_iff.mp digits
      obtain ⟨ds', digits', _⟩ := Option.bind_eq_some_iff.mp rest
      intro x hx
      obtain rfl | later := List.mem_cons.mp hx
      · rw [digit]
        exact Option.some_ne_none d
      · exact ih ds' digits' x later

theorem length_string (w n : Nat) : (A.string w n).length = (numeral b w n).length :=
  List.length_map ..

/-- No digit looks like a sign. -/
theorem head_string (base : 1 < b) (plain : A.digit minus = none) :
    (A.string w n).head? ≠ some minus := by
  rw [string, List.head?_map]
  intro same
  obtain ⟨d, first, rfl⟩ := Option.map_eq_some_iff.mp same
  rw [A.digit_char d (digit_lt base d (List.mem_of_mem_head? first))] at plain
  exact Option.some_ne_none d plain

end Strings

section Signs

variable [DecidableEq α]

/-- What a string denotes that may have a minus sign. -/
def readInt (minus : α) (s : List α) : Option Int :=
  if s.head? = some minus then (A.read s.tail).map fun n : Nat => -(n : Int)
  else (A.read s).map Int.ofNat

/-- The numeral of an integer, with a minus sign in front of a negative one. -/
def intString (minus : α) (v : Int) : List α :=
  if v < 0 then minus :: A.string 1 v.natAbs else A.string 1 v.natAbs

/-- `s` is the one numeral of `v`: a sign only in front of a negative number, and no 0 in
front of another digit. -/
structure Canonical (minus : α) (s : List α) (v : Int) : Prop where
  reads : A.readInt minus s = some v
  sign : s.head? = some minus ↔ v < 0
  zero : ∀ cs, s = A.char 0 :: cs → cs = []
  signed : ∀ cs, s ≠ minus :: A.char 0 :: cs

variable {A} {minus : α}

theorem intString_canonical (base : 1 < b) (plain : A.digit minus = none) (v : Int) :
    A.Canonical minus (A.intString minus v) v := by
  have reads : A.read (A.string 1 v.natAbs) = some v.natAbs :=
    read_string base (numeral_ne_nil b Nat.zero_lt_one _)
  have unsigned : (A.string 1 v.natAbs).head? ≠ some minus := head_string base plain
  by_cases neg : v < 0
  · have form : A.intString minus v = minus :: A.string 1 v.natAbs := if_pos neg
    have leading : (A.string 1 v.natAbs).head? ≠ some (A.char 0) := by
      rw [string, List.head?_map]
      intro same
      obtain ⟨d, first, zero⟩ := Option.map_eq_some_iff.mp same
      have digit := digit_lt base d (List.mem_of_mem_head? first)
      obtain rfl := char_inj digit (by omega) zero
      exact head_numeral (by omega) first
    constructor
    · rw [form, readInt, if_pos (List.head?_cons ..), List.tail_cons, reads, Option.map_some]
      exact congrArg some (by omega)
    · rw [form]
      exact iff_of_true (List.head?_cons ..) neg
    · intro cs same
      rw [form] at same
      have sign : A.digit (A.char 0) = some 0 := A.digit_char 0 (by omega)
      rw [← (List.cons.inj same).1, plain] at sign
      exact absurd sign.symm (Option.some_ne_none 0)
    · intro cs same
      rw [form] at same
      exact leading (by rw [(List.cons.inj same).2, List.head?_cons])
  · have form : A.intString minus v = A.string 1 v.natAbs := if_neg neg
    constructor
    · rw [form, readInt, if_neg unsigned, reads, Option.map_some]
      exact congrArg some (by simpa using not_lt.mp neg)
    · rw [form]
      exact iff_of_false unsigned neg
    · intro cs same
      rw [form] at same
      by_cases hv : v.natAbs = 0
      · rw [hv, string, numeral_zero] at same
        exact (List.cons.inj same).2.symm
      · obtain ⟨d, ds, digits⟩ :=
          List.exists_cons_of_ne_nil (numeral_ne_nil b Nat.zero_lt_one v.natAbs)
        rw [string, digits, List.map_cons] at same
        have digit := digit_lt base d (digits ▸ List.mem_cons_self)
        obtain rfl := char_inj digit (by omega) (List.cons.inj same).1
        exact absurd (digits ▸ List.head?_cons ..) (head_numeral hv)
    · intro cs same
      rw [form] at same
      exact unsigned (by rw [same, List.head?_cons])

end Signs

end Alphabet

end Numeral
