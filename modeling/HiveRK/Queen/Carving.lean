import HiveRK.Bump.Basic
import HiveRK.Queen.Alloc
import HiveRK.Queen.BeeData
import HiveRK.Queen.Walkers

/-!
# What is carved from `MEMORY`

Five routines advance the bump pointer, each by a size counted by hand. Every call of one
of them is a step of a bump allocation: `Loading` lists the steps of `main`'s load loop,
`nodeSteps` those of `setupLookupArray`, and `allocSteps` those of `alloc`.
-/

namespace HiveRK.Queen

open Machine Bump

/-- What is carved. -/
inductive Kind where
  | namesPage
  | image
  | dataPage
  | idNode
  | storage
deriving DecidableEq, Repr

/-- The step from one state of the core to another. -/
def step (c c' : Core) (carved : Option (Region Kind)) (shared : Nat → Prop) (scratch : Nat) :
    Step Kind Byte :=
  ⟨c.memory, c'.memory, c.mem, c'.mem, carved, shared, scratch⟩

/-- Nothing older is changed. -/
def nowhere (_ : Nat) : Prop := False

/-- A step that carves the range it writes is sound. -/
theorem step_sound {c c' : Core} {r : Region Kind} {scratch : Nat} {shared : Nat → Prop}
    (written : WritesWithin c.mem c'.mem r.start r.size) (low : c.memory ≤ r.start)
    (high : r.start + r.size ≤ c'.memory) : (step c c' (some r) shared scratch).Sound := by
  refine ⟨Nat.le_trans low (Nat.le_trans (Nat.le_add_right _ _) high), ?_, fun x changed => .inl ?_⟩
  · intro s hs
    obtain rfl := Option.some.inj hs
    exact ⟨low, high⟩
  · refine ⟨r, rfl, ?_⟩
    by_contra outside
    refine changed (written x ?_)
    simp only [Region.Has] at outside
    omega

/-! ### The load loop -/

section Load

variable {d : Disk} {page0 : Nat}

/-- The bytes of older names pages that `addNameToPage` writes for the next module. -/
def FillsNames (m : Mem) (page0 fresh : Nat) (bees : List Bee) (x : Nat) : Prop :=
  ∃ rest, NamesAt m (page0 :: rest) bees ∧ Touched fresh (page0 :: rest) bees.length x

/-- The steps of one round: the scan, `makeBeeData` and `addNameToPage`. -/
def roundSteps (d : Disk) (page0 : Nat) (bees : List Bee) (c : Core) (start stop : Nat) :
    List (Step Kind Byte) :=
  let scanned := (beeScanAndLoad d c).1
  let made := (makeBeeData scanned (beeScanAndLoad d c).2).1
  let added := loadRound d page0 bees.length c
  [step c scanned (some ⟨.image, c.memory, 512 * memoryUsed start stop⟩) nowhere 0,
    step scanned made (some ⟨.dataPage, scanned.memory, (loadedBee d c).pageSize⟩) nowhere 0,
    step made added
      (if Grows bees.length then some ⟨.namesPage, made.memory, 512⟩ else none)
      (FillsNames made.mem page0 made.memory bees) 0]

/-- A module that was loaded: the disk offsets where it starts and ends, and what was read. -/
structure Load where
  start : Nat
  stop : Nat
  bee : Bee

/-- The steps of `main` up to some round of the load loop, and the modules loaded so far. -/
inductive Loading (d : Disk) (page0 : Nat) : List (Step Kind Byte) → List Load → Core → Prop where
  | prepare {c : Core} (start : c.memory = page0) (room : page0 + 512 < 2 ^ 32) :
      Loading d page0 [step c (prepare c) (some ⟨.namesPage, c.memory, 512⟩) nowhere 0] []
        (prepare c)
  | round {steps : List (Step Kind Byte)} {loads : List Load} {c : Core} {start stop : Nat}
      (before : Loading d page0 steps loads c) (next : Loadable d c start stop) :
      Loading d page0 (steps ++ roundSteps d page0 (loads.map Load.bee) c start stop)
        (loads ++ [⟨start, stop, loadedBee d c⟩]) (loadRound d page0 (loads.map Load.bee).length c)

variable {steps : List (Step Kind Byte)} {loads : List Load} {c : Core} {start stop : Nat}
  {bees : List Bee}

theorem Loading.registered (h : Loading d page0 steps loads c) :
    Registered page0 (loads.map Load.bee) c := by
  induction h with
  | prepare start room => exact .prepare start room
  | round _ next ih =>
      rw [List.map_append]
      exact ih.load next

/-- The core between `makeBeeData` and `addNameToPage`. -/
def madeCore (d : Disk) (c : Core) : Core :=
  (makeBeeData (beeScanAndLoad d c).1 (beeScanAndLoad d c).2).1

/-- The image and the data page are carved one behind the other. -/
theorem Loadable.made (next : Loadable d c start stop) : ∃ m, madeCore d c =
    { c with
      mem := m
      memory := c.memory + 512 * memoryUsed start stop + sectorRound (loadedBee d c).pageSize
      lastEnd := stop } ∧
    ∀ x < c.memory, m x = c.mem x := by
  obtain ⟨m₁, scanned, written₁⟩ := next.scan
  obtain ⟨m₂, made, _, written₂⟩ := next.make
  refine ⟨m₂, ?_, fun x hx => ?_⟩
  · rw [madeCore, made, scanned]
  · rw [scanned] at written₂
    exact (written₂ x (.inl (by simp only; omega))).trans (written₁ x (.inl hx))

/-- `addNameToPage` carves a page where the list grows, and fills the names pages. -/
theorem Loadable.added {rest : List Nat} (next : Loadable d c start stop)
    (loaded : Loaded page0 rest bees c) :
    ∃ m, loadRound d page0 bees.length c =
        { madeCore d c with
          mem := m
          memory := if Grows bees.length then (madeCore d c).memory + 512
            else (madeCore d c).memory } ∧
      NamesAt (madeCore d c).mem (page0 :: rest) bees ∧
      NamesAt m (pagesAfter (madeCore d c).memory bees.length (page0 :: rest))
        (bees ++ [loadedBee d c]) ∧
      ∀ x, ¬ Touched (madeCore d c).memory (page0 :: rest) bees.length x →
        m x = (madeCore d c).mem x := by
  have room := next.room
  have round := sectorRound_bounds (show (loadedBee d c).pageSize + 511 < 2 ^ 32 by omega)
  have place : (loadedBee d c).data = (beeScanAndLoad d c).1.memory := rfl
  have top := next.memory
  obtain ⟨m₂, made, kept⟩ := next.made
  have result : loadRound d page0 bees.length c =
      addNameToPage (madeCore d c) page0 bees.length
        ⟨(loadedBee d c).name, (loadedBee d c).data⟩ := by
    obtain ⟨_, data, _⟩ := next.make
    rw [loadRound, registerBee, madeCore, data, place]
    rfl
  generalize madeCore d c = c₂ at *
  have mem₂ : c₂.mem = m₂ := by rw [made]
  have top₂ : c₂.memory = c.memory + 512 * memoryUsed start stop +
      sectorRound (loadedBee d c).pageSize := by rw [made]
  have loaded₂ : Loaded page0 rest bees c₂ :=
    loaded.above (fun x hx => mem₂ ▸ kept x hx) (by omega) (by omega)
  obtain ⟨m₃, added, names, written⟩ := addNameToPage_spec loaded₂.names loaded₂.pagesApart
    loaded₂.pagesBelow (b := loadedBee d c) (by omega) (loadBytes_length _ _ _) (by omega)
  exact ⟨m₃, result.trans added, loaded₂.names, names, written⟩

/-- The bump pointer behind a round. -/
theorem Loadable.loadRound_memory (next : Loadable d c start stop)
    (registered : Registered page0 bees c) :
    (loadRound d page0 bees.length c).memory = c.memory + 512 * memoryUsed start stop +
      sectorRound (loadedBee d c).pageSize + if Grows bees.length then 512 else 0 := by
  obtain ⟨_, loaded⟩ := registered.loaded
  obtain ⟨_, added, _⟩ := next.added loaded
  obtain ⟨_, made, _⟩ := next.made
  rw [added, made]
  simp only
  split_ifs <;> rfl

theorem Loadable.loadRound_lastEnd (next : Loadable d c start stop)
    (registered : Registered page0 bees c) :
    (loadRound d page0 bees.length c).lastEnd = stop := by
  obtain ⟨_, loaded⟩ := registered.loaded
  obtain ⟨_, added, _⟩ := next.added loaded
  obtain ⟨_, made, _⟩ := next.made
  rw [added, made]

/-- What the three routines of a round do to the bump pointer and to memory. -/
theorem round_history (registered : Registered page0 bees c) (next : Loadable d c start stop) :
    History c.memory c.mem (roundSteps d page0 bees c start stop)
      (loadRound d page0 bees.length c).memory (loadRound d page0 bees.length c).mem := by
  have room := next.room
  have top := next.memory
  obtain ⟨m₁, scanned, written₁⟩ := next.scan
  obtain ⟨m₂, made, _, written₂⟩ := next.make
  have round := sectorRound_bounds (show (loadedBee d c).pageSize + 511 < 2 ^ 32 by omega)
  obtain ⟨rest, loaded⟩ := registered.loaded
  obtain ⟨m₃, added, names, _, written⟩ := next.added loaded
  have filled : ∀ x, m₃ x ≠ (madeCore d c).mem x →
      FillsNames (madeCore d c).mem page0 (madeCore d c).memory bees x := by
    intro x changed
    by_contra untouched
    exact changed (written x fun touched => untouched ⟨rest, names, touched⟩)
  have steps : roundSteps d page0 bees c start stop =
      [step c (beeScanAndLoad d c).1 (some ⟨.image, c.memory, 512 * memoryUsed start stop⟩)
          nowhere 0,
        step (beeScanAndLoad d c).1 (madeCore d c)
          (some ⟨.dataPage, (beeScanAndLoad d c).1.memory, (loadedBee d c).pageSize⟩) nowhere 0,
        step (madeCore d c) (loadRound d page0 bees.length c)
          (if Grows bees.length then some ⟨.namesPage, (madeCore d c).memory, 512⟩ else none)
          (FillsNames (madeCore d c).mem page0 (madeCore d c).memory bees) 0] := rfl
  have mem₁ : (beeScanAndLoad d c).1.mem = m₁ := by rw [scanned]
  have mem₂ : (madeCore d c).mem = m₂ := by rw [madeCore, made]
  have top₂ : (madeCore d c).memory =
      (beeScanAndLoad d c).1.memory + sectorRound (loadedBee d c).pageSize := by rw [madeCore, made]
  generalize (beeScanAndLoad d c).1 = c₁ at *
  generalize madeCore d c = c₂ at *
  have sound₁ :
      (step c c₁ (some ⟨.image, c.memory, 512 * memoryUsed start stop⟩) nowhere 0).Sound :=
    step_sound (mem₁ ▸ written₁) (Nat.le_refl _) (Nat.le_of_eq top.symm)
  have sound₂ :
      (step c₁ c₂ (some ⟨.dataPage, c₁.memory, (loadedBee d c).pageSize⟩) nowhere 0).Sound := by
    refine step_sound (mem₂ ▸ written₂) (Nat.le_refl _) ?_
    simp only
    omega
  have sound₃ : (step c₂ (loadRound d page0 bees.length c)
      (if Grows bees.length then some ⟨.namesPage, c₂.memory, 512⟩ else none)
      (FillsNames c₂.mem page0 c₂.memory bees) 0).Sound := by
    rw [added]
    refine ⟨?_, ?_, fun x changed => .inr (.inl (filled x changed))⟩
    · simp only [step]
      split_ifs <;> omega
    · intro r hr
      split_ifs at hr with grows
      · obtain rfl := Option.some.inj hr
        simp only [step, if_pos grows]
        omega
      · exact nomatch hr
  rw [steps]
  exact .cons sound₁ (.cons sound₂ (.single sound₃))

theorem Loading.history (h : Loading d page0 steps loads c) :
    ∃ m₀, History page0 m₀ steps c.memory c.mem := by
  induction h with
  | @prepare c start room =>
      refine ⟨c.mem, ?_⟩
      have top : (Queen.prepare c).memory = c.memory + 512 := u32_of_lt (by omega)
      have written : WritesWithin c.mem (Queen.prepare c).mem c.memory 512 := by
        have slot0 : slot c.memory 0 = c.memory := rfl
        refine (WritesWithin.store ?_ ?_ ?_).andStore ?_ ?_ ?_ <;> omega
      rw [← start]
      exact .single (step_sound written (Nat.le_refl _) (Nat.le_of_eq top.symm))
  | round before next ih =>
      obtain ⟨m₀, history⟩ := ih
      exact ⟨m₀, history.append (round_history before.registered next)⟩

end Load

/-! ### `setupLookupArray` -/

/-- The id node for the module in a slot: 28 bytes, and a table up to the largest id that
`setupLookupArray` finds when the fixed fields are filled. -/
def nodeRegion (c : Core) (page i : Nat) : Region Kind :=
  let m := fillNode c.mem c.irt page i c.memory
  let data := slotData m page i
  ⟨.idNode, c.memory, (28 + 4 * (maxID m data (exportCount m data) + 1)).toNat⟩

/-- The rounds of `setupLookupArray` for some slots, from `index` of the lookup array on. -/
def setupNodes : Core → Nat → List (Nat × Nat) → Core
  | c, _, [] => c
  | c, index, (page, i) :: more => setupNodes (setupNode c page i index) (index + 1) more

def nodeSteps : Core → Nat → List (Nat × Nat) → List (Step Kind Byte)
  | _, _, [] => []
  | c, index, (page, i) :: more =>
      let c' := setupNode c page i index
      step c c' (some (nodeRegion c page i)) nowhere 0 :: nodeSteps c' (index + 1) more

section Nodes

variable {page0 : Nat} {rest : List Nat} {bees listed : List Bee} {c c' : Core}

theorem setupNodes_append (c : Core) (index : Nat) (ps qs : List (Nat × Nat)) :
    setupNodes c index (ps ++ qs) = setupNodes (setupNodes c index ps) (index + ps.length) qs := by
  induction ps generalizing c index with
  | nil => rfl
  | cons p ps ih =>
      rw [List.cons_append, setupNodes, ih, setupNodes, List.length_cons, Nat.add_assoc,
        Nat.add_comm 1 ps.length]

theorem setupSlots_nodes (page depth k i : Nat) (c : Core) :
    (setupSlots page depth k i c).2.1 =
        setupNodes c (depth + i) (visits (setupSlots page depth k i c).2.2) ∧
      (setupSlots page depth k i c).1 = i + (visits (setupSlots page depth k i c).2.2).length ∧
      (setupSlots page depth k i c).1 ≤ i + k := by
  induction k generalizing i c with
  | zero => exact ⟨rfl, rfl, Nat.le_refl _⟩
  | succ k ih =>
      rw [setupSlots]
      by_cases stop : firstChar c.mem page i = 0
      · rw [if_pos stop]
        exact ⟨rfl, rfl, Nat.le_add_right _ _⟩
      · obtain ⟨core, last⟩ := ih (i + 1) (setupNode c page i (depth + i))
        rw [if_neg stop]
        have used : ∀ events, visits (.probe page i :: .visit page i :: events) =
            (page, i) :: visits events := fun _ => rfl
        simp only [used, setupNodes, List.length_cons]
        rw [core]
        exact ⟨by rw [Nat.add_assoc], by omega, by omega⟩

/-- `setupLookupArray` does nothing but its rounds for the slots that it visits. -/
theorem setupLookupArray_nodes {fuel page depth : Nat} {events : List Event}
    (run : setupLookupArray fuel c page depth = .ok (c', events)) :
    c' = setupNodes c depth (visits events) := by
  induction fuel generalizing c page depth events with
  | zero => cases run
  | succ fuel ih =>
      obtain ⟨core, last, bound⟩ := setupSlots_nodes page depth 14 0 c
      rw [setupLookupArray] at run
      simp only at run
      generalize setupSlots page depth 14 0 c = slots at *
      by_cases short : slots.1 < 14
      · rw [if_pos short] at run
        obtain ⟨rfl, rfl⟩ := Prod.mk.inj (Except.ok.inj run)
        exact core
      · rw [if_neg short] at run
        by_cases stop : nextPage slots.2.1.mem page = 0
        · rw [if_pos stop] at run
          obtain ⟨rfl, rfl⟩ := Prod.mk.inj (Except.ok.inj run)
          rw [visits_append]
          exact core.trans (by
            rw [show visits [.link page] = [] from rfl, List.append_nil, Nat.add_zero])
        · rw [if_neg stop] at run
          cases more : setupLookupArray fuel slots.2.1 (nextPage slots.2.1.mem page)
              (depth + 14) with
          | error _ =>
              rw [more] at run
              cases run
          | ok result =>
              rw [more] at run
              obtain ⟨rfl, rfl⟩ := Prod.mk.inj (Except.ok.inj run)
              have rest := ih more
              have later :
                  visits (.link page :: .follow (nextPage slots.2.1.mem page) :: result.2) =
                visits result.2 := rfl
              rw [visits_append, later, setupNodes_append, ← Nat.add_zero depth, ← core, rest]
              congr 1
              omega

/-- The slot belongs to the registry and holds a module that a node can be built for. -/
structure Place (m : Mem) (pages : List Nat) (bees : List Bee) (at_ : Nat × Nat) (b : Bee) :
    Prop where
  page : at_.1 ∈ pages
  slot : at_.2 < 14
  holds : Holds m at_.1 at_.2 b
  known : b ∈ bees
  nonneg : b.NonNegative

theorem nodeRegion_eq {page i : Nat} {b : Bee} (holds : Holds c.mem page i b)
    (data : DataPage c.mem b) (slotBelow : slot page i + 36 ≤ c.memory)
    (dataBelow : b.data + b.pageSize ≤ c.memory) (nonneg : b.NonNegative)
    (fits : c.memory + b.nodeSize < 2 ^ 32) :
    nodeRegion c page i = ⟨.idNode, c.memory, b.nodeSize⟩ := by
  have size : b.nodeSize = 28 + 4 * b.tableSize := rfl
  obtain ⟨written, _⟩ := fillNode_spec c.irt holds data slotBelow dataBelow (by omega)
  have holds₁ := holds.agree (written.agreeOn (.inl slotBelow)) (by omega)
  have data₁ := data.agree (written.agreeOn (.inl dataBelow)) (by omega)
  have largest := maxID_eq data₁ nonneg (Nat.le_refl _)
  rw [List.take_length] at largest
  simp only [nodeRegion, holds₁.data, data₁.count, largest, Bee.nodeSize, Bee.tableSize]
  congr 1
  omega

/-- The rounds of `setupLookupArray` carve a node each. -/
theorem nodeSteps_history (index : Nat) (h : Loaded page0 rest bees c) {places : List (Nat × Nat)}
    (found : List.Forall₂ (Place c.mem (page0 :: rest) bees) places listed)
    (fits : c.memory + nodesSize listed < 2 ^ 32) :
    History c.memory c.mem (nodeSteps c index places) (setupNodes c index places).memory
      (setupNodes c index places).mem := by
  induction places generalizing c index listed with
  | nil =>
      cases found
      exact .nil
  | cons at_ places ih =>
      obtain ⟨page, i⟩ := at_
      obtain _ | @⟨_, b, _, listed, place, found⟩ := found
      rw [nodesSize_cons] at fits
      obtain ⟨hpage, hi, holds, known, nonneg⟩ := place
      have below := h.pagesBelow page hpage
      have data := h.data b known
      have dataBelow := h.dataBelow b known
      have slotBelow : Queen.slot page i + 36 ≤ c.memory := by
        simp only [Queen.slot]
        omega
      obtain ⟨m, built, _, written⟩ :=
        setupNode_spec index holds data slotBelow dataBelow nonneg (by omega)
      have kept : ∀ x < c.memory, m x = c.mem x := fun x hx => written x (.inl hx)
      have later : Loaded page0 rest bees (setupNode c page i index) := by
        rw [built]
        exact h.above kept (Nat.le_add_right _ _) (by simp only; omega)
      have same : List.Forall₂ (Place (setupNode c page i index).mem (page0 :: rest) bees) places
          listed := by
        refine found.imp fun at_ b place => ⟨place.page, place.slot, ?_, place.known, place.nonneg⟩
        have pageBelow := h.pagesBelow at_.1 place.page
        have small := place.slot
        have top := h.fits
        rw [built]
        refine place.holds.agree (fun x _ hx => kept x ?_) ?_
        · simp only [slot] at hx
          omega
        · simp only [slot]
          omega
      have sound :
          (step c (setupNode c page i index) (some (nodeRegion c page i)) nowhere 0).Sound := by
        rw [nodeRegion_eq holds data slotBelow dataBelow nonneg (by omega), built]
        exact step_sound written (Nat.le_refl _) (Nat.le_refl _)
      exact .cons sound (ih _ later same (by rw [built]; simp only; omega))

/-- Nodes lie back to back. -/
theorem nodeSteps_cover {index : Nat} {places : List (Nat × Nat)} :
    ∀ s ∈ nodeSteps c index places, ∀ x, s.top ≤ x → x < s.top' → ∃ r ∈ s.carved, r.Has x := by
  induction places generalizing c index with
  | nil => exact fun s hs => absurd hs List.not_mem_nil
  | cons at_ places ih =>
      intro s hs x lo hi
      obtain rfl | hs := List.mem_cons.mp hs
      · refine ⟨_, rfl, lo, Nat.lt_of_lt_of_le hi (Nat.le_trans (Nat.mod_le _ _) ?_)⟩
        simp only [nodeRegion]
        omega
      · exact ih s hs x lo hi

end Nodes

/-! ### `alloc` -/

/-- A call of `alloc`: what it carves, the word that it returns its result in, and the words
that it clears behind what it carves. -/
def allocStep (c : Core) (size data : Nat) : Step Kind Byte :=
  step c (alloc c size data) (some ⟨.storage, c.memory, size⟩)
    (fun x => data ≤ x ∧ x < data + 4) (3 * size)

def allocs : Core → List (Nat × Nat) → Core
  | c, [] => c
  | c, (size, data) :: more => allocs (alloc c size data) more

def allocSteps : Core → List (Nat × Nat) → List (Step Kind Byte)
  | _, [] => []
  | c, (size, data) :: more => allocStep c size data :: allocSteps (alloc c size data) more

/-- No address overflows in any of the calls. -/
def AllocsFit : Nat → List (Nat × Nat) → Prop
  | _, [] => True
  | memory, (size, data) :: more =>
      memory + 4 * size < 2 ^ 32 ∧ data + 4 ≤ 2 ^ 32 ∧ AllocsFit (memory + size) more

theorem alloc_memory {c : Core} {size : Nat} (data : Nat) (fits : c.memory + 4 * size < 2 ^ 32) :
    (alloc c size data).memory = c.memory + size := u32_of_lt (by omega)

theorem allocStep_sound {c : Core} {size data : Nat} (fits : c.memory + 4 * size < 2 ^ 32)
    (word : data + 4 ≤ 2 ^ 32) : (allocStep c size data).Sound := by
  have top := alloc_memory data fits
  have cleared : WritesWithin (store32 c.mem data c.memory) (alloc c size data).mem c.memory
      (4 * size) := zeroWords_written _ (by omega)
  refine ⟨?_, fun r hr => ?_, fun x changed => ?_⟩
  · simp only [allocStep, step]
    omega
  · obtain rfl := Option.some.inj hr
    simp only [allocStep, step]
    omega
  · by_cases result : data ≤ x ∧ x < data + 4
    · exact .inr (.inl result)
    · have inside : c.memory ≤ x ∧ x < c.memory + 4 * size := by
        by_contra outside
        exact changed ((cleared x (by omega)).trans (store_outside word (by omega)))
      by_cases carved : x < c.memory + size
      · exact .inl ⟨_, rfl, inside.1, carved⟩
      · refine .inr (.inr ?_)
        simp only [allocStep, step]
        omega

theorem allocSteps_history {c : Core} {calls : List (Nat × Nat)} (fits : AllocsFit c.memory calls) :
    History c.memory c.mem (allocSteps c calls) (allocs c calls).memory (allocs c calls).mem := by
  induction calls generalizing c with
  | nil => exact .nil
  | cons call calls ih =>
      obtain ⟨size, data⟩ := call
      obtain ⟨room, word, more⟩ := fits
      exact .cons (allocStep_sound room word) (ih (by rw [alloc_memory data room]; exact more))

/-! ### The whole start of `main` -/

section Whole

variable {d : Disk} {page0 : Nat} {steps : List (Step Kind Byte)} {loads : List Load} {c : Core}

/-- The modules in front of the first one without a name, all that `setupLookupArray` meets. -/
def namedPrefix (bees : List Bee) : List Bee := bees.takeWhile fun b => b.Named

theorem named_of_mem_namedPrefix {b : Bee} {bees : List Bee} (hb : b ∈ namedPrefix bees) :
    b.Named := by
  simpa using List.all_eq_true.mp List.all_takeWhile b hb

theorem mem_of_mem_namedPrefix {b : Bee} {bees : List Bee} (hb : b ∈ namedPrefix bees) :
    b ∈ bees :=
  (List.takeWhile_prefix _).subset hb

theorem length_namedPrefix_le (bees : List Bee) : (namedPrefix bees).length ≤ bees.length :=
  (List.takeWhile_prefix _).length_le

/-- What a walk reads is the part in front of the first empty name. -/
theorem Loaded.reads_namedPrefix {rest : List Nat} {bees : List Bee}
    (h : Loaded page0 rest bees c) :
    ∃ more, (∀ p ∈ more, p ∈ rest) ∧ Reads c.mem (page0 :: more) (namedPrefix bees) := by
  have split : namedPrefix bees ++ bees.dropWhile (fun b => b.Named) = bees :=
    List.takeWhile_append_dropWhile
  have stop : ∀ b ∈ (bees.dropWhile fun b => b.Named).head?, ¬ b.Named := by
    intro b hb
    have first := List.head?_dropWhile_not (fun b : Bee => decide b.Named) bees
    rw [Option.mem_def.mp hb] at first
    simpa using first
  have names := h.names
  rw [← split] at names
  exact names.reads_named (fun _ hb => named_of_mem_namedPrefix hb) stop

/-- What `setupLookupArray` does behind the load loop, also where names are empty. -/
theorem Registered.nodes {bees : List Bee} (registered : Registered page0 bees c)
    (nonneg : ∀ b ∈ bees, b.NonNegative) (fits : c.memory + nodesSize (namedPrefix bees) < 2 ^ 32) :
    ∃ c₁ events, (∀ fuel, bees.length < fuel →
        setupLookupArray fuel c page0 0 = .ok (c₁, events)) ∧
      c₁ = setupNodes c 0 (visits events) ∧
      c₁.memory = c.memory + nodesSize (namedPrefix bees) ∧
      (∀ j, (namedPrefix bees).length ≤ j → c₁.idNodes j = c.idNodes j) ∧
      History c.memory c.mem (nodeSteps c 0 (visits events)) c₁.memory c₁.mem := by
  obtain ⟨rest, loaded⟩ := registered.loaded
  have listed : ∀ b ∈ namedPrefix bees, b ∈ bees := fun _ hb => mem_of_mem_namedPrefix hb
  obtain ⟨more, inside, reads⟩ := loaded.reads_namedPrefix
  obtain ⟨c₁, setUp, array⟩ := loaded.setUp_reads inside listed reads
    (fun b hb => ⟨named_of_mem_namedPrefix hb, nonneg b (listed b hb)⟩) fits
  have short := length_namedPrefix_le bees
  have built := setupLookupArray_nodes (setUp.run _ (Nat.lt_succ_self _))
  have found : List.Forall₂ (Place c.mem (page0 :: rest) bees)
      (visits (walk (page0 :: more) (namedPrefix bees).length)) (namedPrefix bees) := by
    rw [visits_walk reads]
    have holds := positions_hold reads
    refine List.forall₂_iff_get.mpr ⟨holds.length_eq, fun i hi hi' => ?_⟩
    have page := mem_positions (List.getElem_mem hi)
    have known := listed _ (List.getElem_mem hi')
    exact ⟨List.cons_subset_cons page0 (fun p => inside p) page.1, page.2,
      List.forall₂_iff_get.mp holds |>.2 i hi hi', known, nonneg _ known⟩
  refine ⟨c₁, _, fun fuel hfuel => setUp.run fuel (by omega), built, setUp.memory, array, ?_⟩
  have history := nodeSteps_history 0 loaded found fits
  rwa [← built] at history

end Whole

end HiveRK.Queen
