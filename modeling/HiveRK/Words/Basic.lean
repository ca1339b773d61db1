import Mathlib.Data.List.TakeWhile
import Mathlib.Logic.Function.Iterate
import Mathlib.Tactic.Common

/-!
# The words of a list

The words of a list are its maximal runs without a separator. A scanner that takes a word and
then skips the separators behind it finds them one after the other, if the list begins with
one. In front of a separator it finds the empty word first.
-/

namespace Words

variable {α : Type} [DecidableEq α]

/-- The pieces between the separators, without the empty ones. -/
def words (a : α) (s : List α) : List (List α) := (s.splitOn a).filter fun w => w ≠ []

/-- What a scanner takes. -/
def firstWord (a : α) (s : List α) : List α := s.takeWhile fun c => c ≠ a

/-- What is left behind the word and the separators. -/
def behind (a : α) (s : List α) : List α :=
  (s.dropWhile fun c => c ≠ a).dropWhile fun c => c = a

section Words

variable {a c : α} {s w : List α}

theorem words_nil (a : α) : words a [] = [] := by
  rw [words, List.splitOn_nil]
  rfl

theorem words_separator (a : α) (s : List α) : words a (a :: s) = words a s := by
  rw [words, List.splitOn_cons_eq_if_modifyHead, if_pos (beq_self_eq_true a),
    List.filter_cons_of_neg (by simp), words]

theorem words_append_separator (plain : a ∉ w) (some : w ≠ []) (s : List α) :
    words a (w ++ a :: s) = w :: words a s := by
  rw [words, List.splitOn_append_cons_of_beq w s (beq_self_eq_true a),
    List.splitOn_eq_singleton plain, List.singleton_append,
    List.filter_cons_of_pos (by simpa using some), words]

theorem words_of_notMem (plain : a ∉ w) (some : w ≠ []) : words a w = [w] := by
  rw [words, List.splitOn_eq_singleton plain, List.filter_cons_of_pos (by simpa using some)]
  rfl

theorem words_dropWhile (a : α) (s : List α) :
    words a (s.dropWhile fun c => c = a) = words a s := by
  induction s with
  | nil => rfl
  | cons c s ih =>
      by_cases separator : c = a
      · rw [List.dropWhile_cons_of_pos (by simpa using separator), ih, separator, words_separator]
      · rw [List.dropWhile_cons_of_neg (by simpa using separator)]

theorem firstWord_separator (a : α) (s : List α) : firstWord a (a :: s) = [] :=
  List.takeWhile_cons_of_neg (by simp)

theorem firstWord_cons (other : c ≠ a) (s : List α) :
    firstWord a (c :: s) = c :: firstWord a s :=
  List.takeWhile_cons_of_pos (by simpa using other)

theorem notMem_firstWord (a : α) (s : List α) : a ∉ firstWord a s := by
  intro member
  have other := List.mem_takeWhile_imp member
  exact of_decide_eq_true other rfl

theorem firstWord_ne_nil (some : s ≠ []) (first : s.head? ≠ .some a) : firstWord a s ≠ [] := by
  obtain ⟨c, s, rfl⟩ := List.exists_cons_of_ne_nil some
  rw [firstWord_cons fun same => first (congrArg Option.some same)]
  exact List.cons_ne_nil c _

/-- The first word, and the words behind it. -/
theorem words_eq (some : s ≠ []) (first : s.head? ≠ .some a) :
    words a s = firstWord a s :: words a (behind a s) := by
  have split : firstWord a s ++ s.dropWhile (fun c => c ≠ a) = s := List.takeWhile_append_dropWhile
  have plain := notMem_firstWord a s
  have full := firstWord_ne_nil some first
  rw [behind, words_dropWhile]
  cases rest : s.dropWhile fun c => c ≠ a with
  | nil =>
      rw [rest, List.append_nil] at split
      rw [words_nil, ← words_of_notMem plain full, split]
  | cons c t =>
      have separator : c = a := by
        have stop := List.head?_dropWhile_not (fun c => decide (c ≠ a)) s
        rw [rest] at stop
        simpa using stop
      rw [rest, separator] at split
      rw [separator, words_separator, ← words_append_separator plain full, split]

theorem head?_dropWhile (a : α) (s : List α) : (s.dropWhile fun c => c = a).head? ≠ some a := by
  have stop := List.head?_dropWhile_not (fun c => decide (c = a)) s
  intro first
  rw [first] at stop
  exact of_decide_eq_false stop rfl

theorem head?_behind (a : α) (s : List α) : (behind a s).head? ≠ some a := head?_dropWhile a _

theorem behind_nil (a : α) (k : Nat) : (behind a)^[k] [] = [] :=
  Function.iterate_fixed rfl k

theorem behind_suffix (a : α) (k : Nat) (s : List α) : (behind a)^[k] s <:+ s := by
  induction k generalizing s with
  | zero => exact List.suffix_refl s
  | succ k ih =>
      rw [Function.iterate_succ_apply]
      exact (ih (behind a s)).trans ((List.dropWhile_suffix _).trans (List.dropWhile_suffix _))

/-- Everything that a scanner takes is in the list. -/
theorem firstWord_sublist (a : α) (k : Nat) (s : List α) :
    (firstWord a ((behind a)^[k] s)).Sublist s :=
  (List.takeWhile_prefix _).sublist.trans (behind_suffix a k s).sublist

/-- After `k` words a scanner takes the next one, and the empty word after all of them. -/
theorem getD_words (first : s.head? ≠ some a) (k : Nat) :
    (words a s).getD k [] = firstWord a ((behind a)^[k] s) := by
  induction k generalizing s with
  | zero =>
      by_cases none : s = []
      · rw [none, words_nil]
        rfl
      · rw [words_eq none first]
        rfl
  | succ k ih =>
      rw [Function.iterate_succ_apply]
      by_cases none : s = []
      · rw [none, words_nil, show behind a [] = [] from rfl, behind_nil]
        rfl
      · rw [words_eq none first, List.getD_cons_succ, ih (head?_behind a s)]

/-- In front of a separator there is an empty word. -/
theorem getD_words_separator (first : s.head? = some a) (k : Nat) :
    ([] :: words a s).getD k [] = firstWord a ((behind a)^[k] s) := by
  obtain ⟨s, rfl⟩ := List.head?_eq_some_iff.mp first
  cases k with
  | zero =>
      rw [List.getD_cons_zero, Function.iterate_zero_apply, firstWord_separator]
  | succ k =>
      have next : behind a (a :: s) = (a :: s).dropWhile fun c => c = a := by
        rw [behind, List.dropWhile_cons_of_neg (by simp)]
      rw [List.getD_cons_succ, Function.iterate_succ_apply,
        ← getD_words (head?_behind a (a :: s)), next, words_dropWhile]

theorem ne_nil_of_mem_words (member : w ∈ words a s) : w ≠ [] :=
  of_decide_eq_true (List.mem_filter.mp member).2

theorem words_eq_nil_iff : words a s = [] ↔ ∀ c ∈ s, c = a := by
  rw [← words_dropWhile]
  constructor
  · intro none
    by_cases separators : (s.dropWhile fun c => c = a) = []
    · simpa using List.dropWhile_eq_nil_iff.mp separators
    · rw [words_eq separators (head?_dropWhile a s)] at none
      exact absurd none (List.cons_ne_nil _ _)
  · intro separators
    rw [List.dropWhile_eq_nil_iff.mpr (by simpa using separators), words_nil]

end Words

end Words
