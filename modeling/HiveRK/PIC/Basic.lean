import Mathlib.Data.List.Basic
import Mathlib.Tactic.Common

/-!
# A pair of interrupt controllers

A controller has eight lines, line 0 with the highest priority. It is initialised by a command
and by up to three bytes of data; after that a byte of data is the mask. A line is accepted if
it is not masked and no line of its priority or a higher one is in service, and stays in
service until a command ends it: the command ends the line with the highest priority.

The second controller is connected to line 2 of the first one. If interrupts return in the
reverse order in which they were accepted, each of them ends itself.
-/

namespace PIC

abbrev Register := BitVec 8

/-- What the next byte of data is, and what comes behind it. -/
inductive Phase where
  | ready
  | icw2 (single more : Bool)
  | icw3 (more : Bool)
  | icw4
deriving DecidableEq, Repr

def Phase.next : Phase → Phase
  | .ready => .ready
  | .icw2 true true => .icw4
  | .icw2 true false => .ready
  | .icw2 false more => .icw3 more
  | .icw3 true => .icw4
  | .icw3 false => .ready
  | .icw4 => .ready

structure Chip where
  phase : Phase
  base : Register
  wiring : Register
  options : Register
  mask : Register
  inService : Register
deriving DecidableEq, Repr

/-- The first of these lines. -/
def first (r : Register) : Option Nat := (List.range 8).find? fun i => r.getLsbD i

def clear (r : Register) (i : Nat) : Register := r &&& ~~~BitVec.twoPow 8 i

def set (r : Register) (i : Nat) : Register := r ||| BitVec.twoPow 8 i

def endFirst (r : Register) : Register := (first r).elim r (clear r)

/-- A command: bit 4 begins the initialisation, and `0x20` ends an interrupt. The other commands
are left out. -/
def Chip.command (c : Chip) (data : Register) : Chip :=
  if data.getLsbD 4 then
    { c with phase := .icw2 (data.getLsbD 1) (data.getLsbD 0), mask := 0, options := 0 }
  else if data = 0x20 then { c with inService := endFirst c.inService }
  else c

def Chip.data (c : Chip) (data : Register) : Chip :=
  let c' := { c with phase := c.phase.next }
  match c.phase with
  | .ready => { c' with mask := data }
  | .icw2 _ _ => { c' with base := data &&& 0xF8 }
  | .icw3 _ => { c' with wiring := data }
  | .icw4 => { c' with options := data }

def Chip.Accepts (c : Chip) (i : Nat) : Prop :=
  c.phase = .ready ∧ c.mask.getLsbD i = false ∧ ∀ j ≤ i, c.inService.getLsbD j = false

instance (c : Chip) (i : Nat) : Decidable (c.Accepts i) :=
  inferInstanceAs (Decidable (_ ∧ _ ∧ _))

def Chip.acknowledge (c : Chip) (i : Nat) : Chip := { c with inService := set c.inService i }

structure Pair where
  master : Chip
  slave : Chip
deriving DecidableEq, Repr

/-- The controllers know of their connection. -/
def Pair.Wired (p : Pair) : Prop := p.master.wiring.getLsbD 2 = true ∧ p.slave.wiring = 2

instance (p : Pair) : Decidable p.Wired := inferInstanceAs (Decidable (_ ∧ _))

/-- The line of the first controller that is asked for. -/
def level (i : Nat) : Nat := if i < 8 then i else 2

/-- The vector of a line. -/
def Pair.vector (p : Pair) (i : Nat) : Register :=
  if i < 8 then p.master.base ||| BitVec.ofNat 8 i else p.slave.base ||| BitVec.ofNat 8 (i - 8)

def Pair.accept (p : Pair) (i : Nat) : Pair where
  master := p.master.acknowledge (level i)
  slave := if i < 8 then p.slave else p.slave.acknowledge (i - 8)

/-- A request on one of the 16 lines is accepted. No device is connected to line 2. -/
def Pair.Accepts (p : Pair) (i : Nat) : Prop :=
  i ≠ 2 ∧ p.master.Accepts (level i) ∧ (8 ≤ i → p.Wired ∧ p.slave.Accepts (i - 8))

instance (p : Pair) (i : Nat) : Decidable (p.Accepts i) :=
  inferInstanceAs (Decidable (_ ∧ _ ∧ _))

/-- The commands that end an interrupt of a line. -/
def Pair.finish (p : Pair) (i : Nat) : Pair where
  master := p.master.command 0x20
  slave := if i < 8 then p.slave else p.slave.command 0x20

section Bits

variable {r : Register} {i : Nat}

theorem getLsbD_clear (r : Register) (i j : Nat) :
    (clear r i).getLsbD j = (r.getLsbD j && decide (j ≠ i)) := by
  by_cases inside : j < 8
  · by_cases same : i = j
    · simp [clear, same]
    · simp [clear, inside, Ne.symm same]
  · rw [BitVec.getLsbD_of_ge _ j (Nat.le_of_not_lt inside),
      BitVec.getLsbD_of_ge _ j (Nat.le_of_not_lt inside), Bool.false_and]

theorem getLsbD_set (r : Register) (small : i < 8) (j : Nat) :
    (set r i).getLsbD j = (r.getLsbD j || decide (j = i)) := by
  by_cases same : i = j
  · simp [set, ← same, small]
  · simp [set, same, Ne.symm same]

theorem first_eq (here : r.getLsbD i = true) (early : ∀ j < i, r.getLsbD j = false) :
    first r = some i := by
  have small : i < 8 := BitVec.lt_of_getLsbD here
  rw [first, List.find?_range_eq_some]
  exact ⟨here, List.mem_range.mpr small, fun j hj => by rw [early j hj]; rfl⟩

/-- The line with the highest priority ends, and no other. -/
theorem getLsbD_endFirst (here : r.getLsbD i = true) (early : ∀ j < i, r.getLsbD j = false)
    (j : Nat) : (endFirst r).getLsbD j = (r.getLsbD j && decide (j ≠ i)) := by
  rw [endFirst, first_eq here early]
  exact getLsbD_clear r i j

theorem getLsbD_zero_iff : (∀ j, r.getLsbD j = false) ↔ r = 0 := by
  constructor
  · intro none
    exact BitVec.eq_of_getLsbD_eq fun j _ => (none j).trans BitVec.getLsbD_zero.symm
  · rintro rfl j
    exact BitVec.getLsbD_zero

end Bits

/-- Both controllers are initialised, and know of their connection. -/
structure Programmed (p : Pair) : Prop where
  master : p.master.phase = .ready
  slave : p.slave.phase = .ready
  wired : p.Wired

/-- The mask bit of a line. -/
def Pair.masks (p : Pair) (i : Nat) : Bool :=
  if i < 8 then p.master.mask.getLsbD i else p.slave.mask.getLsbD (i - 8)

/-- The interrupts of these lines were accepted, the last one in front, and did not end. -/
structure Nested (p : Pair) (lines : List Nat) : Prop where
  real : ∀ i ∈ lines, i < 16 ∧ i ≠ 2
  ordered : lines.Pairwise fun i j => level i < level j
  master : ∀ j, p.master.inService.getLsbD j = true ↔ ∃ i ∈ lines, level i = j
  slave : ∀ j, p.slave.inService.getLsbD j = true ↔ j + 8 ∈ lines

/-- The same settings, with these lines in service. -/
def Pair.serving (p : Pair) (master slave : Register) : Pair :=
  ⟨{ p.master with inService := master }, { p.slave with inService := slave }⟩

section Nesting

variable {p q : Pair} {lines : List Nat} {i : Nat}

theorem nested_nil_iff :
    Nested p [] ↔ p.master.inService = 0 ∧ p.slave.inService = 0 := by
  constructor
  · intro nested
    refine ⟨getLsbD_zero_iff.mp fun j => ?_, getLsbD_zero_iff.mp fun j => ?_⟩
    · refine Bool.eq_false_iff.mpr fun busy => ?_
      obtain ⟨i, none, _⟩ := (nested.master j).mp busy
      exact List.not_mem_nil none
    · exact Bool.eq_false_iff.mpr fun busy => List.not_mem_nil ((nested.slave j).mp busy)
  · rintro ⟨master, slave⟩
    refine ⟨fun i none => absurd none List.not_mem_nil, .nil, fun j => ?_, fun j => ?_⟩
    · rw [master]
      simp
    · rw [slave]
      simp

/-- Nothing but the lines in service matters. -/
theorem Nested.congr (nested : Nested p lines) (master : q.master.inService = p.master.inService)
    (slave : q.slave.inService = p.slave.inService) : Nested q lines :=
  ⟨nested.real, nested.ordered, fun j => master ▸ nested.master j, fun j => slave ▸ nested.slave j⟩

theorem accept_settings (p : Pair) (i : Nat) :
    ∃ master slave, p.accept i = p.serving master slave := by
  by_cases low : i < 8
  · exact ⟨_, _, congrArg (Pair.mk _) (if_pos low)⟩
  · exact ⟨_, _, congrArg (Pair.mk _) (if_neg low)⟩

theorem finish_settings (p : Pair) (i : Nat) :
    ∃ master slave, p.finish i = p.serving master slave := by
  by_cases low : i < 8
  · exact ⟨_, _, congrArg (Pair.mk _) (if_pos low)⟩
  · exact ⟨_, _, congrArg (Pair.mk _) (if_neg low)⟩

theorem level_lt (i : Nat) : level i < 8 := by
  rw [level]
  split_ifs with low
  · exact low
  · decide

theorem level_high (high : 8 ≤ i) : level i = 2 := if_neg (Nat.not_lt.mpr high)

/-- The lines of the second controller are all of one level. -/
theorem not_level_lt (high : 8 ≤ i) (j : Nat) : ¬ level i < level (j + 8) := by
  rw [level_high high, level_high (Nat.le_add_left 8 j)]
  exact Nat.lt_irrefl 2

/-- Nothing of a level or a higher one is in service if the interrupts are all of lower ones. -/
theorem Nested.free_iff (nested : Nested p lines) (k : Nat) :
    (∀ j ≤ k, p.master.inService.getLsbD j = false) ↔ ∀ i ∈ lines, k < level i := by
  constructor
  · intro free i member
    by_contra low
    have busy := (nested.master (level i)).mpr ⟨i, member, rfl⟩
    rw [free (level i) (Nat.le_of_not_lt low)] at busy
    exact Bool.false_ne_true busy
  · intro above j low
    refine Bool.eq_false_iff.mpr fun busy => ?_
    obtain ⟨i, member, rfl⟩ := (nested.master j).mp busy
    exact absurd low (Nat.not_le.mpr (above i member))

/-- A request is accepted unless its line or its level is masked, or an interrupt of this level or
a higher one is in service. -/
theorem Nested.accepts_iff (nested : Nested p lines) (programmed : Programmed p) :
    p.Accepts i ↔ i ≠ 2 ∧ p.masks (level i) = false ∧ p.masks i = false ∧
      ∀ j ∈ lines, level i < level j := by
  have slaveFree (above : ∀ j ∈ lines, level i < level j) (high : 8 ≤ i) (j : Nat) :
      p.slave.inService.getLsbD j = false :=
    Bool.eq_false_iff.mpr fun busy => not_level_lt high j (above _ ((nested.slave j).mp busy))
  have master : p.masks (level i) = p.master.mask.getLsbD (level i) := if_pos (level_lt i)
  have slave (high : 8 ≤ i) : p.masks i = p.slave.mask.getLsbD (i - 8) :=
    if_neg (Nat.not_lt.mpr high)
  rw [master]
  constructor
  · rintro ⟨real, ⟨-, unmasked, free⟩, behind⟩
    refine ⟨real, unmasked, ?_, (nested.free_iff _).mp free⟩
    by_cases low : i < 8
    · have own : p.masks i = p.master.mask.getLsbD i := if_pos low
      rwa [level, if_pos low, ← own] at unmasked
    · rw [slave (Nat.le_of_not_lt low)]
      exact (behind (Nat.le_of_not_lt low)).2.2.1
  · rintro ⟨real, unmasked, own, above⟩
    exact ⟨real, ⟨programmed.master, unmasked, (nested.free_iff _).mpr above⟩, fun high =>
      ⟨programmed.wired, programmed.slave, (slave high).symm.trans own,
        fun j _ => slaveFree above high j⟩⟩

theorem Nested.accept (nested : Nested p lines) (small : i < 16) (accepts : p.Accepts i) :
    Nested (p.accept i) (i :: lines) where
  real := List.forall_mem_cons.mpr ⟨⟨small, accepts.1⟩, nested.real⟩
  ordered := List.pairwise_cons.mpr
    ⟨(nested.free_iff _).mp accepts.2.1.2.2, nested.ordered⟩
  master j := by
    show (set p.master.inService (level i)).getLsbD j = true ↔ _
    rw [getLsbD_set _ (level_lt i), Bool.or_eq_true, nested.master, decide_eq_true_iff,
      List.exists_mem_cons_iff, or_comm, eq_comm]
  slave j := by
    rw [Pair.accept]
    by_cases low : i < 8
    · rw [if_pos low, nested.slave, List.mem_cons]
      exact (or_iff_right (by omega)).symm
    · rw [if_neg low]
      show (set p.slave.inService (i - 8)).getLsbD j = true ↔ _
      rw [getLsbD_set _ (by omega), Bool.or_eq_true, nested.slave, decide_eq_true_iff,
        List.mem_cons, or_comm]
      exact or_congr_left (by omega)

/-- The last interrupt ends itself. -/
theorem Nested.finish (nested : Nested p (i :: lines)) : Nested (p.finish i) lines := by
  obtain ⟨above, ordered⟩ := List.pairwise_cons.mp nested.ordered
  have master : ∀ j, (endFirst p.master.inService).getLsbD j =
      (p.master.inService.getLsbD j && decide (j ≠ level i)) := by
    refine getLsbD_endFirst ((nested.master _).mpr ⟨i, List.mem_cons_self, rfl⟩) fun j low => ?_
    refine Bool.eq_false_iff.mpr fun busy => ?_
    obtain ⟨k, member, rfl⟩ := (nested.master j).mp busy
    obtain rfl | behind := List.mem_cons.mp member
    · exact Nat.lt_irrefl _ low
    · exact Nat.lt_asymm low (above k behind)
  refine ⟨fun j member => nested.real j (List.mem_cons_of_mem i member), ordered, fun j => ?_,
    fun j => ?_⟩
  · show (endFirst p.master.inService).getLsbD j = true ↔ _
    rw [master, Bool.and_eq_true, nested.master, decide_eq_true_iff, List.exists_mem_cons_iff]
    constructor
    · rintro ⟨same | behind, other⟩
      · exact absurd same.symm other
      · exact behind
    · rintro ⟨k, behind, rfl⟩
      exact ⟨.inr ⟨k, behind, rfl⟩, Nat.ne_of_gt (above k behind)⟩
  · rw [Pair.finish]
    by_cases low : i < 8
    · rw [if_pos low, nested.slave, List.mem_cons]
      exact or_iff_right (by omega)
    · -- No other interrupt of the second controller is in service, for all of them have one level.
      have only : ∀ j, p.slave.inService.getLsbD j = true ↔ j = i - 8 := by
        intro j
        rw [nested.slave, List.mem_cons]
        constructor
        · rintro (same | behind)
          · omega
          · exact absurd (above _ behind) (not_level_lt (Nat.le_of_not_lt low) j)
        · rintro rfl
          exact .inl (by omega)
      have alone := getLsbD_endFirst ((only (i - 8)).mpr rfl) fun j lower =>
        Bool.eq_false_iff.mpr fun busy => Nat.ne_of_lt lower ((only j).mp busy)
      rw [if_neg low]
      show (endFirst p.slave.inService).getLsbD j = true ↔ _
      rw [alone, Bool.and_eq_true, only, decide_eq_true_iff]
      exact ⟨fun both => absurd both.1 both.2,
        fun behind => absurd (above _ behind) (not_level_lt (Nat.le_of_not_lt low) j)⟩

end Nesting

end PIC
