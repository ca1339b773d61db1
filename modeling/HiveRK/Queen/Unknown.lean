import HiveRK.Queen.Dispatch

/-!
# Unknown modules

`lookupID` goes through all entries of the lookup array, also through those behind the last
module. These are null, and what it reads there is the word at address 0.
-/

namespace HiveRK.Queen

open Machine

/-- The lookup array has the nodes of `bees`, and is null behind them. -/
structure Table (bees : List Bee) (c : Core) : Prop where
  ids : ∀ (j : Nat) (h : j < bees.length), nodeID c.mem (c.idNodes j) = bees[j].id
  null : ∀ j, bees.length ≤ j → c.idNodes j = 0

/-- The entries through which the loop of `lookupID` reads, over its last `k` indices. -/
def lookupReads (c : Core) (id : Nat) : Nat → Nat → List Nat
  | 0, _ => []
  | k + 1, s => s :: if nodeID c.mem (c.idNodes s) = id then [] else lookupReads c id k (s + 1)

/-- No entry that `lookupID` reads through is null. -/
def ReadsNodes (c : Core) (id : Nat) : Prop :=
  ∀ s ∈ lookupReads c id MAX_BEES 0, c.idNodes s ≠ 0

/-- `id` is reported as unknown: by `lookupID`, by a call of the module, and by the commands of
the core that take an id. Nothing is called, and neither the core nor any memory changes. -/
structure ReportsUnknown (run : Call → Core → Core) (c : Core) (id : Nat) : Prop where
  lookup : lookupID c id = 0
  call : id ≠ 0 → ∀ CMD arsSize dataPtr,
    coreInterruptHandler run c id CMD arsSize dataPtr = ⟨c, [], some CORE_ERROR_NO_MODULE⟩
  command : ∀ CMD ∈ [1, 2, 3], ∀ arsSize dataPtr, load32 c.mem dataPtr = id →
    coreInterruptHandler run c 0 CMD arsSize dataPtr = ⟨c, [], some CORE_ERROR_NO_MODULE⟩

/-! ### Where tables come from -/

section Tables

variable {bees listed : List Bee} {c c₁ s : Core}

/-- `setupLookupArray` makes a table from a cleared array. -/
theorem Loaded.table {page0 : Nat} {rest more : List Nat} (h : Loaded page0 rest bees c)
    (hmore : ∀ p ∈ more, p ∈ rest) (hlisted : ∀ b ∈ listed, b ∈ bees)
    (reads : Reads c.mem (page0 :: more) listed) (build : ∀ b ∈ listed, Buildable b)
    (fits : c.memory + nodesSize listed < 2 ^ 32) (cleared : ∀ j, c.idNodes j = 0) {fuel : Nat}
    (hfuel : listed.length < fuel) {events : List Event}
    (setup : setupLookupArray fuel c page0 0 = .ok (c₁, events)) : Table listed c₁ := by
  obtain ⟨c₂, setUp, array⟩ := h.setUp_reads hmore hlisted reads build fits
  obtain ⟨rfl, _⟩ := Prod.mk.inj (Except.ok.inj (setup.symm.trans (setUp.run fuel hfuel)))
  exact ⟨fun j hj => (setUp.fresh hj).id, fun j hj => (array j hj).trans (cleared j)⟩

/-- A table stays while the array and the ids do. Nothing is said of low memory. -/
theorem Table.later (table : Table bees c) (later : Later bees c s)
    (fits : ∀ j < bees.length, c.idNodes j + 4 ≤ 2 ^ 32)
    (null : ∀ j, bees.length ≤ j → s.idNodes j = 0) : Table bees s := by
  refine ⟨fun j hj => ?_, null⟩
  rw [later.array j hj, ← table.ids j hj]
  exact (later.ids j hj).load (fits j hj) (Nat.le_refl _) (Nat.le_refl _)

end Tables

/-! ### The loop of `lookupID` -/

section Lookup

variable {bees : List Bee} {c : Core} {id k t : Nat}

theorem lookupLoop_bounds (found : lookupLoop c id k t ≠ 0) :
    t < lookupLoop c id k t ∧ lookupLoop c id k t ≤ t + k := by
  induction k generalizing t with
  | zero => exact absurd rfl found
  | succ k ih =>
      rw [lookupLoop] at found ⊢
      split_ifs at found ⊢ with here
      · omega
      · have later := ih found
        omega

theorem lookupLoop_none (absent : ∀ u, t ≤ u → u < t + k → nodeID c.mem (c.idNodes u) ≠ id) :
    lookupLoop c id k t = 0 := by
  induction k generalizing t with
  | zero => rfl
  | succ k ih =>
      rw [lookupLoop, if_neg (absent t (Nat.le_refl t) (by omega))]
      exact ih fun u lo hi => absent u (by omega) (by omega)

/-- The loop reads through all entries up to the one that it returns. -/
theorem lookupReads_eq : lookupReads c id k t =
    List.range' t (if lookupLoop c id k t = 0 then k else lookupLoop c id k t - t) := by
  induction k generalizing t with
  | zero => rfl
  | succ k ih =>
      have bounds : lookupLoop c id k (t + 1) ≠ 0 → t + 1 < lookupLoop c id k (t + 1) :=
        fun found => (lookupLoop_bounds found).1
      rw [lookupReads, lookupLoop]
      by_cases here : nodeID c.mem (c.idNodes t) = id
      · rw [if_pos here, if_pos here, if_neg (Nat.succ_ne_zero t), Nat.add_sub_cancel_left]
        rfl
      · rw [if_neg here, if_neg here, ih]
        by_cases none : lookupLoop c id k (t + 1) = 0
        · rw [if_pos none, if_pos none, List.range'_succ]
        · rw [if_neg none, if_neg none,
            show lookupLoop c id k (t + 1) - t = lookupLoop c id k (t + 1) - (t + 1) + 1 by omega,
            List.range'_succ]

/-- An id that is not in the table is found in the first null entry, or nowhere. -/
theorem Table.lookupID (table : Table bees c) (few : bees.length < MAX_BEES)
    (absent : ∀ b ∈ bees, b.id ≠ id) :
    Queen.lookupID c id = if load32 c.mem 0 = id then bees.length + 1 else 0 := by
  have behind : ∀ j, bees.length ≤ j → nodeID c.mem (c.idNodes j) = load32 c.mem 0 := by
    intro j hj
    rw [table.null j hj, nodeID]
  have before : ∀ j < bees.length, nodeID c.mem (c.idNodes j) ≠ id := by
    intro j hj
    rw [table.ids j hj]
    exact absent _ (List.getElem_mem hj)
  split_ifs with word
  · exact lookupLoop_eq (fun u _ hu => before u hu) ((behind _ (Nat.le_refl _)).trans word)
      (Nat.zero_le _) (by omega)
  · refine lookupLoop_none fun u _ _ => ?_
    by_cases inside : u < bees.length
    · exact before u inside
    · rw [behind u (by omega)]
      exact word

theorem Table.reads_null (table : Table bees c) (few : bees.length < MAX_BEES)
    (absent : ∀ b ∈ bees, b.id ≠ id) : ¬ ReadsNodes c id := by
  intro nodes
  refine nodes bees.length ?_ (table.null _ (Nat.le_refl _))
  rw [lookupReads_eq, List.mem_range'_1]
  refine ⟨Nat.zero_le _, ?_⟩
  have looked := table.lookupID few absent
  rw [Queen.lookupID] at looked
  rw [looked]
  split_ifs <;> omega

theorem ReportsUnknown.of_lookup (run : Call → Core → Core) (none : Queen.lookupID c id = 0) :
    ReportsUnknown run c id := by
  refine ⟨none, fun nonzero CMD arsSize dataPtr => ?_, fun CMD hCMD arsSize dataPtr arg => ?_⟩
  · simp only [coreInterruptHandler, if_neg nonzero, none, if_true]
  · simp only [List.mem_cons, List.not_mem_nil, or_false] at hCMD
    obtain rfl | rfl | rfl := hCMD <;>
      simp only [coreInterruptHandler, coreCommand, arg, none, if_true]

/-- For every id that no module has, `lookupID` reads through a null entry. It reports the id as
unknown all the same, if and only if the word at address 0 is another one. -/
theorem unknown_reported_iff (run : Call → Core → Core) (table : Table bees c)
    (few : bees.length < MAX_BEES) (absent : ∀ b ∈ bees, b.id ≠ id) :
    ¬ (ReadsNodes c id ∧ ReportsUnknown run c id) ∧
      (ReportsUnknown run c id ↔ load32 c.mem 0 ≠ id) := by
  have looked := table.lookupID few absent
  refine ⟨fun h => table.reads_null few absent h.1, fun reports => ?_, fun word => ?_⟩
  · intro word
    rw [if_pos word, reports.lookup] at looked
    exact absurd looked.symm (Nat.succ_ne_zero _)
  · rw [if_neg word] at looked
    exact .of_lookup run looked

end Lookup

/-- A core with a node for `beeThree`, and `low` in the first byte of memory. -/
def tableCore (low : Byte) : Core :=
  { emptyCore with
      mem := fun x => if x = 0 then low else if x = 0x5000 then 3 else 0
      idNodes := fun j => if j = 0 then 0x5000 else 0 }

theorem tableCore_table (low : Byte) : Table [beeThree] (tableCore low) := by
  refine ⟨fun j hj => ?_, fun j hj => if_neg (Nat.ne_of_gt hj)⟩
  obtain rfl : j = 0 := by simpa using hj
  rfl

theorem unknown_reported_iff_table : ReportsUnknown (fun _ s => s) (tableCore 5) 4 :=
  (unknown_reported_iff _ (tableCore_table 5) (by decide) (by decide)).2.mpr (by decide)

/-- The first word of memory is 5, and the id 5 is found behind the one module. -/
theorem unknown_found : Table [beeThree] (tableCore 5) ∧ lookupID (tableCore 5) 5 = 2 ∧
    ∀ run, ¬ (ReadsNodes (tableCore 5) 5 ∧ ReportsUnknown run (tableCore 5) 5) := by
  have found : lookupID (tableCore 5) 5 = 2 := by decide
  refine ⟨tableCore_table 5, found, fun run reported => ?_⟩
  have none := reported.2.lookup
  rw [found] at none
  exact absurd none (by decide)

end HiveRK.Queen
