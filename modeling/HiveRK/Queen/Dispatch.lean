import HiveRK.Queen.Setup

/-!
# Dispatch through the lookup array

After `setupLookupArray` the system runs: modules get storage, calls overwrite `count` and
`ptr`. `Later` says what stays, and all that dispatch depends on: the lookup array, and
the id and the table of every node.
-/

namespace HiveRK.Queen

open Machine

/-- The lookup array, the ids and the tables are in `s` as they are in `c`. -/
structure Later (bees : List Bee) (c s : Core) : Prop where
  array : ∀ j < bees.length, s.idNodes j = c.idNodes j
  ids : ∀ j < bees.length, AgreeOn c.mem s.mem (c.idNodes j) 4
  tables : ∀ (j : Nat) (h : j < bees.length),
    AgreeOn c.mem s.mem (funcSlot (c.idNodes j) 0) (4 * bees[j].tableSize)

theorem Later.refl (bees : List Bee) (c : Core) : Later bees c c :=
  ⟨fun _ _ => rfl, fun _ _ => AgreeOn.refl _ _ _, fun _ _ => AgreeOn.refl _ _ _⟩

/-- The lookup array `c.idNodes` serves the modules `bees`. -/
def ServesAll (bees : List Bee) (c : Core) : Prop :=
  ∀ (j : Nat) (h : j < bees.length),
    Serves c.mem bees[j] (c.idNodes j) ∧ c.idNodes j + bees[j].nodeSize ≤ 2 ^ 32

section Lookup

variable {bees : List Bee} {c s : Core} {j : Nat}

theorem ServesAll.later (h : ServesAll bees c) (later : Later bees c s) : ServesAll bees s := by
  intro j hj
  obtain ⟨serves, fits⟩ := h j hj
  rw [later.array j hj]
  exact ⟨serves.agree (later.ids j hj) (later.tables j hj) fits, fits⟩

/-- The loop returns the first index whose node has the id. -/
theorem lookupLoop_eq {id k t : Nat} (before : ∀ u, t ≤ u → u < j → nodeID c.mem (c.idNodes u) ≠ id)
    (found : nodeID c.mem (c.idNodes j) = id) (lo : t ≤ j) (hi : j < t + k) :
    lookupLoop c id k t = j + 1 := by
  induction k generalizing t with
  | zero => omega
  | succ k ih =>
      rw [lookupLoop]
      by_cases here : t = j
      · subst here
        rw [if_pos found]
      · rw [if_neg (before t (Nat.le_refl t) (by omega))]
        exact ih (fun u lo hi => before u (by omega) hi) (by omega) (by omega)

/-- With distinct ids in the nodes, every module is found where it is. -/
theorem lookupID_eq
    (ids : ∀ (j : Nat) (h : j < bees.length), nodeID c.mem (c.idNodes j) = bees[j].id)
    (few : bees.length ≤ MAX_BEES) (distinct : bees.Pairwise fun b b' => b.id ≠ b'.id)
    (hj : j < bees.length) : lookupID c bees[j].id = j + 1 := by
  refine lookupLoop_eq (fun u _ hu same => ?_) (ids j hj) (Nat.zero_le j) (by omega)
  have hu' : u < bees.length := by omega
  rw [ids u hu'] at same
  exact List.pairwise_iff_getElem.mp distinct u j hu' hj hu same

theorem ServesAll.lookupID (h : ServesAll bees c) (few : bees.length ≤ MAX_BEES)
    (distinct : bees.Pairwise fun b b' => b.id ≠ b'.id) (hj : j < bees.length) :
    lookupID c bees[j].id = j + 1 :=
  lookupID_eq (fun j hj => (h j hj).1.id) few distinct hj

/-- A call to a registered module whose table word is not 0 enters that address, with the
module's own `CoreData` and with its storage if it has some. -/
theorem ServesAll.call (h : ServesAll bees c) (few : bees.length ≤ MAX_BEES)
    (distinct : bees.Pairwise fun b b' => b.id ≠ b'.id) (hj : j < bees.length)
    (nonzero : bees[j].id ≠ 0) (run : Call → Core → Core) (CMD arsSize dataPtr : Nat)
    (word : func c.mem (c.idNodes j) CMD ≠ 0) :
    let node := c.idNodes j
    let m := store32 (store32 c.mem (coreData node + 8) arsSize) (coreData node + 12) dataPtr
    let call : Call := ⟨func m node CMD, if globalValues c.mem node = 0 then [coreData node]
      else [coreData node, globalValues m node]⟩
    coreInterruptHandler run c bees[j].id CMD arsSize dataPtr =
      ⟨run call { c with mem := m }, [call], some CORE_ERROR_NONE⟩ := by
  simp only [coreInterruptHandler, if_neg nonzero, h.lookupID few distinct hj, Nat.add_sub_cancel,
    Nat.succ_ne_zero, if_false, if_neg word]

/-- The table word of an exported command. -/
theorem ServesAll.word (h : ServesAll bees c) (hj : j < bees.length) {CMD : Nat} {e : Export}
    (found : bees[j].lastExport CMD = some e) :
    func c.mem (c.idNodes j) CMD = u32 (bees[j].base + e.offset) := by
  rw [(h j hj).1.table CMD (Bee.lt_tableSize found), Bee.entry, found]

/-- A call of an exported command enters its function. The stores to `count` and `ptr` reach
neither the table nor the storage pointer. -/
theorem ServesAll.enters (h : ServesAll bees c) (few : bees.length ≤ MAX_BEES)
    (distinct : bees.Pairwise fun b b' => b.id ≠ b'.id) (hj : j < bees.length)
    (nonzero : bees[j].id ≠ 0) {CMD : Nat} {e : Export} (found : bees[j].lastExport CMD = some e)
    (target : u32 (bees[j].base + e.offset) ≠ 0) (run : Call → Core → Core)
    (arsSize dataPtr : Nat) :
    let node := c.idNodes j
    let storage := globalValues c.mem node
    let call : Call := ⟨u32 (bees[j].base + e.offset),
      if storage = 0 then [coreData node] else [coreData node, storage]⟩
    ∃ m, coreInterruptHandler run c bees[j].id CMD arsSize dataPtr =
        ⟨run call { c with mem := m }, [call], some CORE_ERROR_NONE⟩ ∧
      Queen.dataPtr m node = u32 dataPtr ∧ dataCount m node = u32 arsSize ∧
      WritesWithin c.mem m (coreData node + 8) 8 := by
  have room := (h j hj).2
  have inTable : CMD < bees[j].tableSize := Bee.lt_tableSize found
  have size : bees[j].nodeSize = 28 + 4 * bees[j].tableSize := rfl
  have word := h.word hj found
  have called := h.call few distinct hj nonzero run CMD arsSize dataPtr
    (by rw [word]; exact target)
  generalize c.idNodes j = node at *
  have written : WritesWithin c.mem
      (store32 (store32 c.mem (coreData node + 8) arsSize) (coreData node + 12) dataPtr)
      (coreData node + 8) 8 := by
    refine (WritesWithin.store ?_ ?_ ?_).andStore ?_ ?_ ?_ <;> simp only [coreData] <;> omega
  have word' :
      func (store32 (store32 c.mem (coreData node + 8) arsSize) (coreData node + 12) dataPtr)
      node CMD = u32 (bees[j].base + e.offset) := by
    rw [← word]
    refine written.load ?_ ?_ <;> simp only [funcSlot, coreData] <;> omega
  have storage' : globalValues
      (store32 (store32 c.mem (coreData node + 8) arsSize) (coreData node + 12) dataPtr) node =
        globalValues c.mem node := by
    refine written.load (by omega) ?_
    simp only [coreData]
    omega
  simp only [word', storage'] at called
  refine ⟨_, called, ?_, ?_, written⟩
  · simp (disch := omega) only [Queen.dataPtr, coreData, load_store_same]
    rfl
  · simp (disch := omega) only [dataCount, coreData, load_store_of_disjoint, load_store_same]
    rfl

/-- A call to a registered module whose table word is 0 is refused and changes nothing. -/
theorem ServesAll.refuse (h : ServesAll bees c) (few : bees.length ≤ MAX_BEES)
    (distinct : bees.Pairwise fun b b' => b.id ≠ b'.id) (hj : j < bees.length)
    (nonzero : bees[j].id ≠ 0) (run : Call → Core → Core) (CMD arsSize dataPtr : Nat)
    (word : func c.mem (c.idNodes j) CMD = 0) :
    coreInterruptHandler run c bees[j].id CMD arsSize dataPtr =
      ⟨c, [], some CORE_ERROR_NO_CMD⟩ := by
  simp only [coreInterruptHandler, if_neg nonzero, h.lookupID few distinct hj, Nat.add_sub_cancel,
    Nat.succ_ne_zero, if_false, if_pos word]

end Lookup

/-! ### The array that `setupLookupArray` builds -/

section SetUp

variable {page0 : Nat} {rest : List Nat} {bees : List Bee} {c c₁ s : Core}

/-- Nodes lie back to back. -/
theorem SetUp.node_succ (h : SetUp page0 rest bees c c₁) {j : Nat} (hj : j + 1 < bees.length) :
    c₁.idNodes (j + 1) = c₁.idNodes j + bees[j].nodeSize := by
  have here := (h.nodes.get (show j < bees.length by omega)).1
  have next := (h.nodes.get hj).1
  rw [Nat.zero_add] at here next
  rw [next, here, ← List.take_append_getElem (show j < bees.length by omega), nodesSize_append,
    nodesSize_cons, nodesSize_nil]
  omega

theorem SetUp.filled (h : SetUp page0 rest bees c c₁) {j : Nat} (hj : j < bees.length) :
    Filled c₁.mem c.irt bees[j] (c₁.idNodes j) := by
  simpa using (h.nodes.get hj).2

theorem SetUp.fresh (h : SetUp page0 rest bees c c₁) {j : Nat} (hj : j < bees.length) :
    Fresh c₁.mem c.irt bees[j] (c₁.idNodes j) := (h.filled hj).toFresh

/-- Every node lies in the stretch that was carved for them. -/
theorem SetUp.inside (h : SetUp page0 rest bees c c₁) {j : Nat} (hj : j < bees.length) :
    c.memory ≤ c₁.idNodes j ∧ c₁.idNodes j + bees[j].nodeSize ≤ c₁.memory := by
  have here := (h.nodes.get hj).1
  have within := nodesSize_take_le hj
  rw [Nat.zero_add] at here
  rw [here, h.memory]
  omega

/-- No two nodes share a byte. -/
theorem SetUp.apart (h : SetUp page0 rest bees c c₁) {i j : Nat} (hi : i < bees.length)
    (hij : i < j) (hj : j < bees.length) :
    c₁.idNodes i + bees[i].nodeSize ≤ c₁.idNodes j := by
  have here := (h.nodes.get hi).1
  have there := (h.nodes.get hj).1
  rw [Nat.zero_add] at here there
  have within := nodesSize_take_le
    (show i < (bees.take j).length by rw [List.length_take]; omega)
  rw [List.take_take, Nat.min_eq_left (Nat.le_of_lt hij), List.getElem_take] at within
  rw [here, there, Nat.add_assoc]
  exact Nat.add_le_add_left within _

theorem SetUp.servesAll (h : SetUp page0 rest bees c c₁) (fits : c₁.memory < 2 ^ 32) :
    ServesAll bees c₁ := by
  intro j hj
  have inside := (h.inside hj).2
  exact ⟨(h.fresh hj).toServes, by omega⟩

end SetUp

/-- The store at `CORE_GLOBAL_MEMORY` keeps a registry whose data pages it does not hit.
It never hits a names page: the first one ends in front of it, and the second one comes
after the images and data pages of 14 modules. -/
theorem Registered.publish {bees : List Bee} {c : Core} (h : Registered 0x4000 bees c)
    (intact : ∀ b ∈ bees, CORE_GLOBAL_MEMORY + 4 ≤ b.data ∨
      b.data + b.pageSize ≤ CORE_GLOBAL_MEMORY) :
    Registered 0x4000 bees (publish c) := by
  obtain ⟨rest, loaded⟩ := h.loaded
  have written : WritesWithin c.mem (Queen.publish c).mem CORE_GLOBAL_MEMORY 4 :=
    WritesWithin.store (by decide) (Nat.le_refl _) (Nat.le_refl _)
  have global : CORE_GLOBAL_MEMORY = 0x6000 := rfl
  refine .elsewhere h loaded.names ?_ ?_ (Nat.le_refl _) loaded.fits
  · intro p hp
    obtain rfl | hp := List.mem_cons.mp hp
    · exact written.agreeOn (by omega)
    · have far := loaded.far p hp
      exact written.agreeOn (by omega)
  · intro b hb
    have clear := intact b hb
    exact written.agreeOn (by omega)

section Results

variable {bees : List Bee} {c : Core}

/-- After main's `setupLookupArray`, and as long as ids and tables stay, a call with an
exported id enters exactly the function that the last export entry with that id gives. -/
theorem dispatch_complete (registered : Registered 0x4000 bees c)
    (few : bees.length ≤ MAX_BEES) (named : ∀ b ∈ bees, b.Named)
    (distinct : bees.Pairwise fun b b' => b.id ≠ b'.id) (nonzero : ∀ b ∈ bees, b.id ≠ 0)
    (nonneg : ∀ b ∈ bees, b.NonNegative) (fits : c.memory + nodesSize bees < 2 ^ 32)
    (intact : ∀ b ∈ bees, CORE_GLOBAL_MEMORY + 4 ≤ b.data ∨
      b.data + b.pageSize ≤ CORE_GLOBAL_MEMORY) :
    ∃ c₁ events,
      (∀ fuel, bees.length < fuel →
        setupLookupArray fuel (publish c) 0x4000 0 = .ok (c₁, events)) ∧
      (∀ (j : Nat) (h : j < bees.length), dataIrt c₁.mem (c₁.idNodes j) = u32 c.irt ∧
        dataBaseAdr c₁.mem (c₁.idNodes j) = bees[j].base ∧
        globalValues c₁.mem (c₁.idNodes j) = 0) ∧
      ∀ (s : Core) (j : Nat) (h : j < bees.length) (CMD : Nat) (e : Export),
        Later bees c₁ s → bees[j].lastExport CMD = some e → u32 (bees[j].base + e.offset) ≠ 0 →
        ∀ (run : Call → Core → Core) (arsSize dataPtr : Nat),
          let node := c₁.idNodes j
          let storage := globalValues s.mem node
          let call : Call := ⟨u32 (bees[j].base + e.offset),
            if storage = 0 then [coreData node] else [coreData node, storage]⟩
          ∃ m, coreInterruptHandler run s bees[j].id CMD arsSize dataPtr =
              ⟨run call { s with mem := m }, [call], some CORE_ERROR_NONE⟩ ∧
            Queen.dataPtr m node = u32 dataPtr ∧ dataCount m node = u32 arsSize ∧
            WritesWithin s.mem m (coreData node + 8) 8 := by
  obtain ⟨rest, loaded⟩ := (registered.publish intact).loaded
  obtain ⟨c₁, setUp⟩ := loaded.setUp (fun b hb => ⟨named b hb, nonneg b hb⟩) fits
  have top : c₁.memory < 2 ^ 32 := setUp.memory ▸ fits
  refine ⟨c₁, _, setUp.run, fun j hj => ?_, ?_⟩
  · have fresh := setUp.fresh hj
    exact ⟨fresh.irt, fresh.baseAdr, fresh.globals⟩
  intro s j hj CMD e later found target run arsSize dataPtr
  have all := (setUp.servesAll top).later later
  have entered := all.enters few distinct hj (nonzero _ (List.getElem_mem hj)) found target run
    arsSize dataPtr
  rwa [later.array j hj] at entered

/-- A module with id 3 and one export. -/
def beeThree : Bee where
  name := 0x61 :: List.replicate 31 0
  data := 0x4400
  base := 0x4200
  id := 3
  priority := 0
  format := 0
  init := 0x40
  exports := [⟨0, 0x50⟩]

/-- The data page of `beeThree`. -/
def beeThreePage : Mem := fun x =>
  ([0x00, 0x42, 0, 0, 3, 0, 0, 0, 0, 0, 1, 0, 0, 0, 0x40, 0x42, 0, 0,
    0, 0, 0, 0, 0x50, 0x42, 0, 0] : List Byte).getD (x - 0x4400) 0

theorem beeThreePage_dataPage : DataPage beeThreePage beeThree := by
  constructor <;> decide

theorem registered_none : Registered 0x4000 [] (prepare emptyCore) := .prepare rfl (by decide)

/-- `beeThree` is loaded. -/
def coreThree : Core := (prepare emptyCore).extend 0x4000 0 beeThreePage beeThree

theorem registered_three : Registered 0x4000 [beeThree] coreThree :=
  registered_none.extend (by decide) beeThreePage_dataPage rfl (by decide) (by decide) (by decide)

theorem dispatch_complete_beeThree : ∃ c c₁ events,
    Registered 0x4000 [beeThree] c ∧
      (∀ fuel, 1 < fuel → setupLookupArray fuel (publish c) 0x4000 0 = .ok (c₁, events)) ∧
      (coreInterruptHandler (fun _ s => s) c₁ 3 0 0 0).calls =
        [⟨0x4250, [coreData (c₁.idNodes 0)]⟩] := by
  obtain ⟨c₁, events, setUp, fresh, calls⟩ := dispatch_complete registered_three
    (by decide) (by decide) (by decide) (by decide) (by decide) (by decide) (by decide)
  obtain ⟨m, called, _⟩ := calls c₁ 0 (by decide) 0 ⟨0, 0x50⟩ (Later.refl _ _) (by decide)
    (by decide)
    (fun _ s => s) 0 0
  refine ⟨coreThree, c₁, events, registered_three, setUp, ?_⟩
  have reply := congrArg Reply.calls called
  rw [(fresh 0 (by decide)).2.2, if_pos rfl] at reply
  exact reply

/-! ### Commands that a module does not export -/

/-- The handler refused the command and changed nothing. -/
def Refused (c : Core) (r : Reply) : Prop :=
  r.calls = [] ∧ r.core = c ∧ r.eax = some CORE_ERROR_NO_CMD

/-- The word that the handler tests: entry `CMD` of the table found for `ID` is 0,
wherever that entry lies. -/
def NoFunction (c : Core) (ID CMD : Nat) : Prop :=
  lookupID c ID ≠ 0 ∧ func c.mem (c.idNodes (lookupID c ID - 1)) CMD = 0

theorem refused_iff (run : Call → Core → Core) (c : Core) {ID : Nat} (hID : ID ≠ 0)
    (CMD arsSize dataPtr : Nat) :
    Refused c (coreInterruptHandler run c ID CMD arsSize dataPtr) ↔ NoFunction c ID CMD := by
  simp only [coreInterruptHandler, if_neg hID, NoFunction]
  by_cases known : lookupID c ID = 0
  · rw [if_pos known]
    refine iff_of_false ?_ (fun h => h.1 known)
    rintro ⟨_, _, code⟩
    exact absurd (Option.some.inj code)
      (show ¬ CORE_ERROR_NO_MODULE = CORE_ERROR_NO_CMD by decide)
  · rw [if_neg known]
    by_cases word : func c.mem (c.idNodes (lookupID c ID - 1)) CMD = 0
    · rw [if_pos word]
      exact iff_of_true ⟨rfl, rfl, rfl⟩ ⟨known, word⟩
    · rw [if_neg word]
      refine iff_of_false ?_ (fun h => word h.2)
      rintro ⟨calls, _⟩
      exact absurd calls (List.cons_ne_nil _ _)

/-- The words of a node as `setupLookupArray` leaves it: the fixed fields, then the table. -/
def Bee.word (irt : Nat) (b : Bee) : Nat → Nat
  | 0 => b.id
  | 1 => u32 irt
  | 2 => b.base
  | 3 | 4 | 5 => 0
  | 6 => b.maxID
  | k + 7 => b.entry k

theorem Filled.word {m : Mem} {irt node k : Nat} {b : Bee} (h : Filled m irt b node)
    (hk : k < 7 + b.tableSize) : load32 m (node + 4 * k) = b.word irt k := by
  match k, hk with
  | 0, _ => exact h.id
  | 1, _ => exact h.irt
  | 2, _ => exact h.baseAdr
  | 3, _ => exact h.count
  | 4, _ => exact h.ptr
  | 5, _ => exact h.globals
  | 6, _ => exact h.numFuncs
  | k + 7, hk =>
      rw [Bee.word, ← h.table k (by omega), func, funcSlot]
      congr 1
      omega

/-- Behind a module's table comes the id of the next module. -/
theorem SetUp.word_behind {page0 : Nat} {rest : List Nat} {c₁ : Core}
    (h : SetUp page0 rest bees c c₁) {j : Nat} (hj : j + 1 < bees.length) :
    func c₁.mem (c₁.idNodes j) bees[j].tableSize = bees[j + 1].id := by
  rw [← (h.fresh hj).id, h.node_succ hj, nodeID, func, funcSlot, Bee.nodeSize, Nat.add_assoc]

/-- A command that a module does not export is refused exactly when the word tested is 0.
If the nodes fit in 32 bits, that is so inside the module's table, and it is not so
directly behind the table if another module follows. Further behind, the word tested is a
field or a table entry of the node that lies there. -/
theorem dispatch_refuses_iff {page0 : Nat} (registered : Registered page0 bees c)
    (few : bees.length ≤ MAX_BEES) (named : ∀ b ∈ bees, b.Named)
    (distinct : bees.Pairwise fun b b' => b.id ≠ b'.id) (nonzero : ∀ b ∈ bees, b.id ≠ 0)
    (nonneg : ∀ b ∈ bees, b.NonNegative) {fuel : Nat} {c₁ : Core} {events : List Event}
    (setup : setupLookupArray fuel c page0 0 = .ok (c₁, events)) (hfuel : bees.length < fuel)
    {j : Nat} (hj : j < bees.length) {CMD : Nat} (missing : bees[j].lastExport CMD = none)
    (run : Call → Core → Core) (arsSize dataPtr : Nat) :
    let reply := coreInterruptHandler run c₁ bees[j].id CMD arsSize dataPtr
    (Refused c₁ reply ↔ NoFunction c₁ bees[j].id CMD) ∧
      (c.memory + nodesSize bees < 2 ^ 32 →
        (Refused c₁ reply ↔ func c₁.mem (c₁.idNodes j) CMD = 0) ∧
        (CMD < bees[j].tableSize → Refused c₁ reply) ∧
        (CMD = bees[j].tableSize → j + 1 < bees.length → ¬ Refused c₁ reply) ∧
        ∀ (l k : Nat) (h : l < bees.length), k < 7 + bees[l].tableSize →
          funcSlot (c₁.idNodes j) CMD = c₁.idNodes l + 4 * k →
          (Refused c₁ reply ↔ bees[l].word c.irt k = 0)) := by
  have iff := refused_iff run c₁ (nonzero _ (List.getElem_mem hj)) CMD arsSize dataPtr
  refine ⟨iff, fun fits => ?_⟩
  obtain ⟨rest, loaded⟩ := registered.loaded
  obtain ⟨c₂, setUp⟩ := loaded.setUp (fun b hb => ⟨named b hb, nonneg b hb⟩) fits
  obtain ⟨rfl, _⟩ := Prod.mk.inj (Except.ok.inj (setup.symm.trans (setUp.run fuel hfuel)))
  have all := setUp.servesAll (setUp.memory ▸ fits)
  have found := all.lookupID few distinct hj
  have own : NoFunction c₁ bees[j].id CMD ↔ func c₁.mem (c₁.idNodes j) CMD = 0 := by
    rw [NoFunction, found]
    exact and_iff_right (Nat.succ_ne_zero j)
  refine ⟨iff.trans own, fun inside => ?_, fun behind next => ?_, fun l k hl hk there => ?_⟩
  · rw [iff, own, (all j hj).1.table CMD inside, Bee.entry, missing]
  · rw [iff, own, behind, setUp.word_behind next]
    exact nonzero _ (List.getElem_mem next)
  · rw [iff, own, func, there, (setUp.filled hl).word hk]

/-- A module without exports. -/
def beeFive : Bee where
  name := 0x62 :: List.replicate 31 0
  data := 0x4800
  base := 0x4600
  id := 5
  priority := 0
  format := 0
  init := 0x40
  exports := []

/-- The data page of `beeFive`. -/
def beeFivePage : Mem := fun x =>
  ([0x00, 0x46, 0, 0, 5, 0, 0, 0, 0, 0, 0, 0, 0, 0, 0x40, 0x46, 0, 0] : List Byte).getD
    (x - 0x4800) 0

theorem beeFivePage_dataPage : DataPage beeFivePage beeFive := by
  constructor <;> decide

/-- `beeThree` and `beeFive` are loaded. -/
def coreThreeFive : Core := coreThree.extend 0x4000 1 beeFivePage beeFive

theorem registered_three_five : Registered 0x4000 [beeThree, beeFive] coreThreeFive :=
  registered_three.extend (by decide) beeFivePage_dataPage rfl (by decide) (by decide) (by decide)

/-- Command 6 of module 3 tests the storage pointer of module 5. -/
theorem dispatch_refuses_iff_behind : ∃ c c₁ events, Registered 0x4000 [beeThree, beeFive] c ∧
    setupLookupArray 3 c 0x4000 0 = .ok (c₁, events) ∧
      ∀ run, Refused c₁ (coreInterruptHandler run c₁ 3 6 0 0) := by
  obtain ⟨rest, loaded⟩ := registered_three_five.loaded
  obtain ⟨c₁, setUp⟩ := loaded.setUp (fun b hb => ⟨by revert b; decide, by revert b; decide⟩)
    (by decide)
  have setup := setUp.run 3 (by decide)
  refine ⟨coreThreeFive, c₁, _, registered_three_five, setup, fun run => ?_⟩
  have next : c₁.idNodes 1 = c₁.idNodes 0 + 32 := setUp.node_succ (j := 0) (by decide)
  have refined := (dispatch_refuses_iff registered_three_five (by decide) (by decide) (by decide)
    (by decide) (by decide) setup (by decide) (show 0 < 2 by decide)
    (show beeThree.lastExport 6 = none by decide) run 0 0).2 (by decide)
  exact (refined.2.2.2 1 5 (by decide) (by decide) (by rw [next, funcSlot])).mpr rfl

/-- Module 3 exports the id 0 only, and module 5 follows it. Command 1 of module 3 enters
the address 5. -/
theorem dispatch_enters_id : ∃ c c₁ events, Registered 0x4000 [beeThree, beeFive] c ∧
    setupLookupArray 3 c 0x4000 0 = .ok (c₁, events) ∧ beeThree.lastExport 1 = none ∧
      ∀ run, ((coreInterruptHandler run c₁ 3 1 0 0).calls.map Call.target = [5] ∧
        ¬ Refused c₁ (coreInterruptHandler run c₁ 3 1 0 0)) := by
  obtain ⟨rest, loaded⟩ := registered_three_five.loaded
  have fits : coreThreeFive.memory + nodesSize [beeThree, beeFive] < 2 ^ 32 := by decide
  obtain ⟨c₁, setUp⟩ := loaded.setUp (fun b hb => ⟨by revert b; decide, by revert b; decide⟩) fits
  refine ⟨coreThreeFive, c₁, _, registered_three_five, setUp.run 3 (by decide), by decide,
    fun run => ?_⟩
  have word : func c₁.mem (c₁.idNodes 0) 1 = 5 := setUp.word_behind (j := 0) (by decide)
  have next : c₁.idNodes 1 = c₁.idNodes 0 + 32 := setUp.node_succ (j := 0) (by decide)
  have room : c₁.idNodes 1 + 28 ≤ c₁.memory := (setUp.inside (j := 1) (by decide)).2
  have low : c₁.memory < 2 ^ 32 := setUp.memory ▸ fits
  have called := (setUp.servesAll low).call (by decide) (by decide) (show 0 < 2 by decide)
    (by decide) run 1 0 0 (by rw [word]; decide)
  have calls := congrArg Reply.calls called
  have target : (coreInterruptHandler run c₁ 3 1 0 0).calls.map Call.target = [5] := by
    refine (congrArg (List.map Call.target) calls).trans ?_
    refine congrArg (fun target => [target]) (Eq.trans ?_ word)
    simp (disch := omega) only [func, funcSlot, coreData, load_store_of_disjoint]
  refine ⟨target, fun refused => ?_⟩
  rw [refused.1] at target
  exact absurd target (by decide)

end Results

end HiveRK.Queen
