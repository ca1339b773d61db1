import HiveRK.Queen.Carving
import HiveRK.Queen.Inits

/-!
# Modules without a name

The documentation has modules with an empty name left unregistered. `main` gives them a slot all
the same, and the empty name in it ends the list for the loops that walk it.
-/

namespace HiveRK.Queen

open Machine

/-- The names pages and the data pages are in `s` as they are in `c`. -/
structure SameRegistry (pages : List Nat) (bees : List Bee) (c s : Core) : Prop where
  names : SamePages pages c.mem s.mem
  data : ∀ b ∈ bees, AgreeOn c.mem s.mem b.data b.pageSize

/-- `idNodes` has new nodes for `listed`, in order, and is null behind them. -/
structure Registers (listed : List Bee) (irt : Nat) (c : Core) : Prop where
  nodes : ∀ (j : Nat) (h : j < listed.length),
    c.idNodes j ≠ 0 ∧ Fresh c.mem irt listed[j] (c.idNodes j)
  null : ∀ j, listed.length ≤ j → c.idNodes j = 0

/-- `run_inits` enters the init functions of `listed` and no others, by priority, and within one
in the order of the list. The functions may do anything but write to the registry. -/
def Initialises (page0 : Nat) (rest : List Nat) (bees listed : List Bee) (c : Core) : Prop :=
  ∀ run : Call → Core → Core,
    (∀ s call, SameRegistry (page0 :: rest) bees c s →
      SameRegistry (page0 :: rest) bees c (run call s)) →
    ∀ fuel, bees.length < fuel → ∃ s calls, runInits run fuel c page0 = .ok (s, calls) ∧
      calls.map Call.target = (initOrder listed).map fun x => u32 (x.1.base + x.1.init)

/-! ### Lists -/

section Lists

variable {α : Type} {p : α → Prop} [DecidablePred p] {l : List α}

theorem takeWhile_prefix_filter (p : α → Prop) [DecidablePred p] (l : List α) :
    l.takeWhile (p ·) <+: l.filter (p ·) := by
  induction l with
  | nil => exact List.prefix_rfl
  | cons a l ih =>
      by_cases ha : p a
      · rw [List.takeWhile_cons_of_pos (by simpa using ha),
          List.filter_cons_of_pos (by simpa using ha)]
        exact List.cons_prefix_cons.mpr ⟨rfl, ih⟩
      · rw [List.takeWhile_cons_of_neg (by simpa using ha)]
        exact List.nil_prefix

/-- The elements with `p` come first if and only if each has only such in front of it. -/
theorem filter_eq_takeWhile_iff :
    l.filter (p ·) = l.takeWhile (p ·) ↔ l.Pairwise fun a b => p b → p a := by
  induction l with
  | nil => exact iff_of_true rfl .nil
  | cons a l ih =>
      rw [List.pairwise_cons]
      by_cases ha : p a
      · rw [List.takeWhile_cons_of_pos (by simpa using ha),
          List.filter_cons_of_pos (by simpa using ha), List.cons.injEq, ih]
        exact ⟨fun h => ⟨fun _ _ _ => ha, h.2⟩, fun h => ⟨rfl, h.2⟩⟩
      · rw [List.takeWhile_cons_of_neg (by simpa using ha),
          List.filter_cons_of_neg (by simpa using ha), List.filter_eq_nil_iff]
        constructor
        · intro none
          have without : ∀ b ∈ l, ¬ p b := by simpa using none
          exact ⟨fun b hb pb => absurd pb (without b hb),
            List.pairwise_of_forall_mem_list fun b _ b' hb' pb' => absurd pb' (without b' hb')⟩
        · intro h b hb
          simpa using fun pb => ha (h.1 b hb pb)

end Lists

section Unnamed

variable {page0 irt : Nat} {rest more : List Nat} {bees listed listed' : List Bee} {c c₁ : Core}

/-- The array does not register fewer or more modules than it does. -/
theorem Registers.length_le (h : Registers listed irt c) (h' : Registers listed' irt c) :
    listed'.length ≤ listed.length := by
  by_contra longer
  exact (h'.nodes listed.length (by omega)).1 (h.null _ (Nat.le_refl _))

/-- Modules that a walk reads are initialised. -/
theorem Loaded.initialises (h : Loaded page0 rest bees c) (hmore : ∀ p ∈ more, p ∈ rest)
    (hlisted : ∀ b ∈ listed, b ∈ bees) (reads : Reads c.mem (page0 :: more) listed)
    (named : ∀ b ∈ listed, b.Named) (short : listed.length ≤ bees.length) :
    Initialises page0 rest bees listed c := by
  intro run kept fuel hfuel
  have top := h.fits
  have inside : ∀ p ∈ page0 :: more, p ∈ page0 :: rest :=
    fun _ hp => List.cons_subset_cons page0 (fun p => hmore p) hp
  have data : ∀ s, SameRegistry (page0 :: rest) bees c s → ∀ b ∈ listed, DataPage s.mem b := by
    intro s same b hb
    have below := h.dataBelow b (hlisted b hb)
    exact (h.data b (hlisted b hb)).agree (same.data b (hlisted b hb)) (by omega)
  have bytes : ∀ b ∈ listed, b.priority < 256 :=
    fun b hb => (h.data b (hlisted b hb)).priority_lt
  obtain ⟨s, calls, ran, _, order⟩ := initPasses_spec (Q := fun _ _ => True) (k := 256) (s := 0)
    (P := SameRegistry (page0 :: rest) bees c) kept
    (fun s same => reads.agree (fun p hp => same.names p (inside p hp)) fun p hp => by
      have below := h.pagesBelow p (inside p hp)
      omega)
    named (show listed.length < fuel by omega)
    ⟨fun _ _ => AgreeOn.refl _ _ _, fun _ _ => AgreeOn.refl _ _ _⟩
  refine ⟨s, calls, ran, ?_⟩
  have matched := order ⟨data, fun _ _ _ _ => trivial⟩
  rw [← initOrder_map_fst bytes, List.forall₂_map_left_iff] at matched
  have targets : List.Forall₂ Eq (calls.map Call.target)
      ((initOrder listed).map fun x => u32 (x.1.base + x.1.init)) := by
    rw [List.forall₂_map_left_iff, List.forall₂_map_right_iff]
    exact (matched.imp fun _ _ call => call.1).flip
  exact List.forall₂_eq_eq_eq ▸ targets

/-- Whatever the names, `setupLookupArray` registers the modules in front of the first one
without a name, and `run_inits` initialises them. -/
theorem Loaded.starts_namedPrefix (h : Loaded page0 rest bees c) (cleared : ∀ j, c.idNodes j = 0)
    (nonneg : ∀ b ∈ namedPrefix bees, b.NonNegative)
    (fits : c.memory + nodesSize (namedPrefix bees) < 2 ^ 32) :
    ∃ c₁ events,
      (∀ fuel, bees.length < fuel → setupLookupArray fuel c page0 0 = .ok (c₁, events)) ∧
      Registers (namedPrefix bees) c.irt c₁ ∧
      Initialises page0 rest bees (namedPrefix bees) c₁ := by
  have listed : ∀ b ∈ namedPrefix bees, b ∈ bees := fun _ hb => mem_of_mem_namedPrefix hb
  have named : ∀ b ∈ namedPrefix bees, b.Named := fun _ hb => named_of_mem_namedPrefix hb
  have short := length_namedPrefix_le bees
  have grown := h.grown
  obtain ⟨more, inside, reads⟩ := h.reads_namedPrefix
  obtain ⟨c₁, setUp, array⟩ := h.setUp_reads inside listed reads
    (fun b hb => ⟨named b hb, nonneg b hb⟩) fits
  have kept : ∀ x < c.memory, c₁.mem x = c.mem x := fun x hx => setUp.written x (.inl hx)
  have after : Loaded page0 rest bees c₁ :=
    h.above kept (setUp.memory ▸ Nat.le_add_right _ _) (setUp.memory ▸ fits)
  refine ⟨c₁, _, fun fuel hfuel => setUp.run fuel (by omega), ⟨fun j hj => ?_, fun j hj => ?_⟩, ?_⟩
  · have low := (setUp.inside hj).1
    exact ⟨by omega, setUp.fresh hj⟩
  · exact (array j hj).trans (cleared j)
  · have below : ∀ p ∈ page0 :: more, p + 512 ≤ c.memory :=
      fun p hp => h.pagesBelow p (List.cons_subset_cons page0 (fun p => inside p) hp)
    refine after.initialises inside listed (reads.agree (fun p hp x _ hx => kept x ?_)
      fun p hp => ?_) named short
    · have := below p hp
      omega
    · have := below p hp
      omega

/-- The modules that have a name, and no others, are registered and initialised if and only if
none of them comes behind a module without a name. With at most `MAX_BEES` modules in front of
the first one without a name, no store goes behind the array. -/
theorem unnamed_skipped_iff (registered : Registered page0 bees c) (cleared : ∀ j, c.idNodes j = 0)
    (few : (namedPrefix bees).length ≤ MAX_BEES) (nonneg : ∀ b ∈ namedPrefix bees, b.NonNegative)
    (fits : c.memory + nodesSize (namedPrefix bees) < 2 ^ 32) :
    ∃ rest c₁ events, NamesAt c.mem (page0 :: rest) bees ∧
      (∀ fuel, bees.length < fuel → setupLookupArray fuel c page0 0 = .ok (c₁, events)) ∧
      (∀ j, MAX_BEES ≤ j → c₁.idNodes j = 0) ∧
      (Registers (bees.filter (·.Named)) c.irt c₁ ∧
          Initialises page0 rest bees (bees.filter (·.Named)) c₁ ↔
        bees.Pairwise fun b b' => b'.Named → b.Named) := by
  obtain ⟨rest, loaded⟩ := registered.loaded
  obtain ⟨c₁, events, run, registers, initialises⟩ :=
    loaded.starts_namedPrefix cleared nonneg fits
  refine ⟨rest, c₁, events, loaded.names, run, fun j hj => registers.null j (by omega), ?_⟩
  rw [← filter_eq_takeWhile_iff, ← namedPrefix]
  constructor
  · intro starts
    have part : namedPrefix bees <+: bees.filter (·.Named) := takeWhile_prefix_filter Bee.Named bees
    exact (part.eq_of_length_le (registers.length_le starts.1)).symm
  · intro same
    rw [same]
    exact ⟨registers, initialises⟩

end Unnamed

/-- `beeFive` without its name. -/
def beeLast : Bee := { beeFive with name := List.replicate 32 0 }

/-- `beeThree` and `beeLast` are loaded. -/
def coreLast : Core := coreThree.extend 0x4000 1 beeFivePage beeLast

theorem registered_last : Registered 0x4000 [beeThree, beeLast] coreLast := by
  have page : DataPage beeFivePage beeLast := by constructor <;> decide
  exact registered_three.extend (by decide) page rfl (by decide) (by decide) (by decide)

/-- A module without a name is left out where it is the last one. -/
theorem unnamed_skipped_iff_last : ∃ rest c₁ events,
    (∀ fuel, 2 < fuel → setupLookupArray fuel coreLast 0x4000 0 = .ok (c₁, events)) ∧
      Registers [beeThree] 0x10000 c₁ ∧
      Initialises 0x4000 rest [beeThree, beeLast] [beeThree] c₁ := by
  obtain ⟨rest, c₁, events, _, run, _, starts⟩ := unnamed_skipped_iff registered_last
    (fun _ => rfl) (by decide) (by decide) (by decide)
  have done := starts.mpr (by decide)
  exact ⟨rest, c₁, events, run, done.1, done.2⟩

/-- `beeThree` without its name. -/
def beeNameless : Bee := { beeThree with name := List.replicate 32 0 }

/-- `beeNameless` and `beeFive` are loaded. -/
def coreNameless : Core :=
  ((prepare emptyCore).extend 0x4000 0 beeThreePage beeNameless).extend 0x4000 1 beeFivePage beeFive

theorem registered_nameless : Registered 0x4000 [beeNameless, beeFive] coreNameless := by
  have page : DataPage beeThreePage beeNameless := by constructor <;> decide
  have first := registered_none.extend (by decide) page rfl (by decide) (by decide) (by decide)
  exact first.extend (by decide) beeFivePage_dataPage rfl (by decide) (by decide) (by decide)

/-- The module behind it is not registered. -/
theorem unnamed_hides :
    Registered 0x4000 [beeNameless, beeFive] coreNameless ∧
      setupLookupArray 3 coreNameless 0x4000 0 = .ok (coreNameless, [.probe 0x4000 0]) ∧
      [beeNameless, beeFive].filter (·.Named) = [beeFive] ∧
      ¬ Registers [beeFive] 0x10000 coreNameless := by
  have empty : firstChar coreNameless.mem 0x4000 0 = 0 := by decide
  refine ⟨registered_nameless, ?_, by decide, fun registers => ?_⟩
  · rw [setupLookupArray, setupSlots, if_pos empty]
    rfl
  · exact (registers.nodes 0 (by decide)).1 rfl

end HiveRK.Queen
