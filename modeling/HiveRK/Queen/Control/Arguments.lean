import HiveRK.Bees.Display.Meaning
import HiveRK.Queen.Control.Basic
import HiveRK.Words.Basic

/-!
# The words of a command

`parseArgs` takes a word at a time, and behind each of them it skips the spaces. It does not
skip those at the beginning of the line: a line that begins with a space has an empty command,
and its words are moved to the arguments.
-/

namespace HiveRK.Control

open Machine Util Words
open Display (TextAt CString)

/-- What `ControlComb` gives to `handleCMD`. -/
structure Line extends CString where
  short : text.length ≤ 60

/-- The arrays of `handleCMD`, which are not initialised. -/
def Args.fresh (chars : Fin 5 → Nat → Byte) : Args :=
  ⟨⟨chars 0, []⟩, ⟨chars 1, []⟩, ⟨chars 2, []⟩, ⟨chars 3, []⟩, ⟨chars 4, []⟩⟩

def Args.buffers (s : Args) : List Buffer := [s.s1, s.s2, s.s3, s.s4, s.s5]

/-- The first five of these strings are written to the buffers. -/
structure Takes (s : Args) (ws : List (List Byte)) (s' : Args) : Prop where
  s1 : Wrote s.s1 (ws.getD 0 []) s'.s1
  s2 : Wrote s.s2 (ws.getD 1 []) s'.s2
  s3 : Wrote s.s3 (ws.getD 2 []) s'.s3
  s4 : Wrote s.s4 (ws.getD 3 []) s'.s4
  s5 : Wrote s.s5 (ws.getD 4 []) s'.s5

/-- `parseArgs` returns, sets the arrays to the first five words of the line, and stays inside
the arrays. -/
def Splits (line : Line) (chars : Fin 5 → Nat → Byte) : Prop :=
  ∃ s, (∀ fuel > 60, parseArgs fuel line.chars (.fresh chars) = .ok s) ∧
    Takes (.fresh chars) (words space line.text) s ∧ ∀ b ∈ s.buffers, ∀ i ∈ b.written, i ≤ 60

section Loops

variable {base : Nat → Byte} {fuel i : Nat} {s u v : List Byte}

/-- The buffer behind the loop that copies `w`. -/
def copied : List Byte → Nat → Buffer → Buffer
  | [], _, s => s
  | ch :: w, argi, s => copied w (argi + 1) ((s.set argi ch).set (argi + 1) 0)

theorem textAt_append (at_i : TextAt base i (u ++ v)) : TextAt base (i + u.length) v := by
  induction u generalizing i with
  | nil => exact at_i
  | cons ch u ih =>
      have rest := ih at_i.2.2
      rwa [Nat.add_assoc, Nat.add_comm 1] at rest

/-- The loop copies the word at `i`. -/
theorem wordLoop_eq (at_i : TextAt base i s) (enough : s.length < fuel) (argi : Nat) (b : Buffer) :
    wordLoop base fuel i argi b =
      .ok (i + (firstWord space s).length, copied (firstWord space s) argi b) := by
  induction s generalizing i fuel argi b with
  | nil =>
      obtain ⟨fuel, rfl⟩ := Nat.exists_eq_succ_of_ne_zero (Nat.ne_of_gt enough)
      have nul : base i = 0 := at_i
      rw [wordLoop, if_neg fun more => more.1 nul]
      rfl
  | cons ch s ih =>
      obtain ⟨fuel, rfl⟩ := Nat.exists_eq_succ_of_ne_zero (Nat.ne_of_gt (Nat.zero_lt_of_lt enough))
      obtain ⟨here, some, rest⟩ := at_i
      rw [wordLoop, here]
      by_cases separator : ch = space
      · rw [if_neg fun more => more.2 separator, separator, firstWord_separator]
        rfl
      · rw [if_pos ⟨some, separator⟩, ih rest (Nat.lt_of_succ_lt_succ enough),
          firstWord_cons separator, List.length_cons, Nat.add_assoc, Nat.add_comm 1]
        rfl

theorem spaceLoop_eq (at_i : TextAt base i s) (enough : s.length < fuel) :
    spaceLoop base fuel i = .ok (i + (s.takeWhile fun ch => ch = space).length) := by
  induction s generalizing i fuel with
  | nil =>
      obtain ⟨fuel, rfl⟩ := Nat.exists_eq_succ_of_ne_zero (Nat.ne_of_gt enough)
      have nul : base i = 0 := at_i
      rw [spaceLoop, nul, if_neg (by decide)]
      rfl
  | cons ch s ih =>
      obtain ⟨fuel, rfl⟩ := Nat.exists_eq_succ_of_ne_zero (Nat.ne_of_gt (Nat.zero_lt_of_lt enough))
      obtain ⟨here, -, rest⟩ := at_i
      rw [spaceLoop, here]
      by_cases separator : ch = space
      · rw [if_pos separator, ih rest (Nat.lt_of_succ_lt_succ enough),
          List.takeWhile_cons_of_pos (by simpa using separator), List.length_cons,
          Nat.add_assoc, Nat.add_comm 1]
      · rw [if_neg separator, List.takeWhile_cons_of_neg (by simpa using separator)]
        rfl

/-- A word and the spaces behind it, from one stage to the next. -/
theorem stage (at_i : TextAt base i s) (enough : s.length < fuel) :
    ∃ j, (∀ b, wordLoop base fuel i 0 b =
        .ok (i + (firstWord space s).length, copied (firstWord space s) 0 b)) ∧
      spaceLoop base fuel (i + (firstWord space s).length) = .ok j ∧
      TextAt base j (behind space s) ∧ (behind space s).length < fuel := by
  have word : firstWord space s ++ s.dropWhile (fun ch => ch ≠ space) = s :=
    List.takeWhile_append_dropWhile
  have gap : (s.dropWhile fun ch => ch ≠ space).takeWhile (fun ch => ch = space) ++
      behind space s = s.dropWhile fun ch => ch ≠ space := List.takeWhile_append_dropWhile
  have next : TextAt base (i + (firstWord space s).length) (s.dropWhile fun ch => ch ≠ space) :=
    textAt_append (word.symm ▸ at_i)
  have shorter := congrArg List.length word
  have shortest := congrArg List.length gap
  rw [List.length_append] at shorter shortest
  exact ⟨_, wordLoop_eq at_i enough 0, spaceLoop_eq next (by omega),
    textAt_append (gap.symm ▸ next), by omega⟩

/-- A stage finds a NUL if nothing is left. -/
theorem nul_iff (at_i : TextAt base i s) : base i = 0 ↔ s = [] := by
  cases s with
  | nil => exact iff_of_true at_i rfl
  | cons ch s =>
      rw [at_i.1]
      exact iff_of_false at_i.2.1 (List.cons_ne_nil ch s)

end Loops

section Stages

variable {base : Nat → Byte} {fuel : Nat} {text : List Byte}

/-- The buffers with these words in them. -/
def Args.filled (s : Args) (ws : Nat → List Byte) : Args where
  s1 := copied (ws 0) 0 (s.s1.set 0 0)
  s2 := copied (ws 1) 0 (s.s2.set 0 0)
  s3 := copied (ws 2) 0 (s.s3.set 0 0)
  s4 := copied (ws 3) 0 (s.s4.set 0 0)
  s5 := copied (ws 4) 0 (s.s5.set 0 0)

/-- The stages find one word after the other. -/
theorem parseArgs_eq (at_0 : TextAt base 0 text) (enough : text.length < fuel) (s : Args) :
    parseArgs fuel base s =
      .ok (s.filled fun k => firstWord space ((behind space)^[k] text)) := by
  obtain ⟨i1, word1, gap1, at_1, enough1⟩ := stage at_0 enough
  obtain ⟨i2, word2, gap2, at_2, enough2⟩ := stage at_1 enough1
  obtain ⟨i3, word3, gap3, at_3, enough3⟩ := stage at_2 enough2
  obtain ⟨i4, word4, gap4, at_4, enough4⟩ := stage at_3 enough3
  have word5 := wordLoop_eq at_4 enough4 0
  simp only [parseArgs, bind, Except.bind, word1, gap1, word2, gap2, word3, gap3, word4, gap4,
    word5, nul_iff at_1, nul_iff at_2, nul_iff at_3, nul_iff at_4]
  simp only [Args.filled, Function.iterate_succ_apply, Function.iterate_zero_apply]
  -- Where a stage returns early, the buffers behind it keep the NUL of an empty word.
  split_ifs with h1 h2 h3 h4
  · simp only [h1]
    rfl
  · simp only [h2]
    rfl
  · simp only [h3]
    rfl
  · simp only [h4]
    rfl
  · rfl

end Stages

section Written

variable {b x : Buffer} {s : List Byte}

theorem copied_wrote (wrote : Wrote b s x) (w : List Byte) :
    Wrote b (s ++ w) (copied w s.length x) := by
  induction w generalizing s x with
  | nil =>
      rw [List.append_nil]
      exact wrote
  | cons ch w ih =>
      have rest := ih (wrote.snoc ch)
      rwa [List.append_assoc, List.singleton_append, List.length_append] at rest

theorem filled_takes (s : Args) (ws : List (List Byte)) :
    Takes s ws (s.filled fun k => ws.getD k []) :=
  ⟨copied_wrote (nul_wrote _) _, copied_wrote (nul_wrote _) _, copied_wrote (nul_wrote _) _,
    copied_wrote (nul_wrote _) _, copied_wrote (nul_wrote _) _⟩

end Written

section Results

variable (line : Line)

/-- The words of a line, with an empty one in front of a space at its beginning. -/
def taken (text : List Byte) : List (List Byte) :=
  if text.head? = some space then [] :: words space text else words space text

theorem getD_taken (text : List Byte) (k : Nat) :
    (taken text).getD k [] = firstWord space ((behind space)^[k] text) := by
  rw [taken]
  split_ifs with first
  · exact getD_words_separator first k
  · exact getD_words first k

theorem parseArgs_takes (s : Args) :
    ∃ s', (∀ fuel > 60, parseArgs fuel line.chars s = .ok s') ∧ Takes s (taken line.text) s' := by
  refine ⟨_, fun fuel more => ?_, filled_takes s (taken line.text)⟩
  rw [parseArgs_eq line.holds (Nat.lt_of_le_of_lt line.short more) s]
  simp only [getD_taken]

theorem taken_sublist (text : List Byte) (k : Nat) :
    ((taken text).getD k []).Sublist text := getD_taken text k ▸ firstWord_sublist space k text

/-- None of the arrays is written behind its end. -/
theorem parseArgs_inside {chars : Fin 5 → Nat → Byte} {s : Args}
    (takes : Takes (.fresh chars) (taken line.text) s) :
    ∀ b ∈ s.buffers, ∀ i ∈ b.written, i ≤ 60 := by
  have inside {k : Nat} {c : Nat → Byte} {b : Buffer}
      (wrote : Wrote ⟨c, []⟩ ((taken line.text).getD k []) b) : ∀ i ∈ b.written, i ≤ 60 := by
    intro i hi
    have stored := ((wrote.written i).mp hi).resolve_right List.not_mem_nil
    exact Nat.le_trans stored (Nat.le_trans (taken_sublist line.text k).length_le line.short)
  intro b hb
  simp only [Args.buffers, List.mem_cons, List.not_mem_nil, or_false] at hb
  obtain rfl | rfl | rfl | rfl | rfl := hb
  · exact inside takes.s1
  · exact inside takes.s2
  · exact inside takes.s3
  · exact inside takes.s4
  · exact inside takes.s5

theorem zero_notMem_text {base : Nat → Byte} {i : Nat} {s : List Byte} (at_i : TextAt base i s) :
    0 ∉ s := by
  induction s generalizing i with
  | nil => exact List.not_mem_nil
  | cons ch s ih =>
      intro nul
      obtain same | later := List.mem_cons.mp nul
      · exact at_i.2.1 same.symm
      · exact ih at_i.2.2 later

/-- A space at the beginning moves the words. -/
theorem not_splits {line : Line} (first : line.text.head? = some space)
    (more : words space line.text ≠ []) (chars : Fin 5 → Nat → Byte) : ¬ Splits line chars := by
  rintro ⟨s, run, takes, -⟩
  obtain ⟨s', run', takes'⟩ := parseArgs_takes line (.fresh chars)
  obtain rfl := Except.ok.inj ((run 61 (by decide)).symm.trans (run' 61 (by decide)))
  obtain ⟨w, ws, list⟩ := List.exists_cons_of_ne_nil more
  have moved : taken line.text = [] :: w :: ws := by rw [taken, if_pos first, list]
  have plain : 0 ∉ w := fun nul => by
    have part := taken_sublist line.text 1
    rw [moved] at part
    exact zero_notMem_text line.holds (part.subset nul)
  have command := takes.s1
  have empty := takes'.s1
  rw [list] at command
  rw [moved] at empty
  refine ne_nil_of_mem_words (list ▸ List.mem_cons_self) ?_
  exact command.unique empty plain List.not_mem_nil

end Results

/-- `parseArgs` finds the first five words of a line, if and only if the line does not begin
with a space or has nothing but spaces. -/
theorem parseArgs_splits_iff (line : Line) (chars : Fin 5 → Nat → Byte) :
    Splits line chars ↔ (line.text.head? = some space → ∀ ch ∈ line.text, ch = space) := by
  constructor
  · intro splits first
    by_contra other
    exact not_splits first (mt words_eq_nil_iff.mp other) chars splits
  · intro spaces
    obtain ⟨s, run, takes⟩ := parseArgs_takes line (.fresh chars)
    have inside := parseArgs_inside line takes
    refine ⟨s, run, ?_, inside⟩
    rw [taken] at takes
    split_ifs at takes with first
    · rw [words_eq_nil_iff.mpr (spaces first)] at takes ⊢
      exact ⟨takes.s1, takes.s2, takes.s3, takes.s4, takes.s5⟩
    · exact takes

/-- In a line that begins with a space the command is empty, and is the first argument. -/
theorem parseArgs_splits_fails :
    let clear := ['c', 'l', 'e', 'a', 'r'].map Display.ascii
    let line : Line := ⟨.ofList (space :: clear) (by decide), by decide⟩
    words space line.text = [clear] ∧
      ∀ chars, (∃ s, (∀ fuel > 60, parseArgs fuel line.chars (.fresh chars) = .ok s) ∧
        Takes (.fresh chars) [[], clear] s) ∧ ¬ Splits line chars := by
  intro clear line
  have list : words space line.text = [clear] := by
    rw [show line.text = space :: clear from rfl, words_separator]
    exact words_of_notMem (by decide) (by decide)
  refine ⟨list, fun chars => ⟨?_, not_splits rfl (list ▸ List.cons_ne_nil _ _) chars⟩⟩
  have takes := parseArgs_takes line (.fresh chars)
  rwa [taken, if_pos (show line.text.head? = some space from rfl), list] at takes

end HiveRK.Control
