import HiveRK.Queen.Dispatcher
import HiveRK.Queen.Registry

/-!
# Id nodes

`setupNode` builds the id node of one module at the bump pointer. Its table has one
entry more than the largest export id; the loop that clears it stops one short of that,
and is right to do so, because the entry of the largest id is always written afterwards.
-/

namespace HiveRK.Queen

open Machine

/-! ### Tables -/

/-- One more than the largest id of an export list. -/
def tableSize : List Export → Nat
  | [] => 0
  | e :: es => max (e.id + 1) (tableSize es)

theorem tableSize_append (es es' : List Export) :
    tableSize (es ++ es') = max (tableSize es) (tableSize es') := by
  induction es with
  | nil => simp [tableSize]
  | cons e es ih => simp [tableSize, ih, Nat.max_assoc]

theorem lt_tableSize {e : Export} {es : List Export} (h : e ∈ es) : e.id < tableSize es := by
  induction es with
  | nil => exact absurd h (by simp)
  | cons d es ih =>
      rw [tableSize]
      obtain rfl | h := List.mem_cons.mp h
      · omega
      · have := ih h
        omega

theorem exists_tableSize {es : List Export} (h : tableSize es ≠ 0) :
    ∃ e ∈ es, e.id + 1 = tableSize es := by
  induction es with
  | nil => exact absurd rfl h
  | cons d es ih =>
      rw [tableSize] at h ⊢
      by_cases hd : tableSize es ≤ d.id + 1
      · exact ⟨d, List.mem_cons_self, by omega⟩
      · obtain ⟨e, he, hid⟩ := ih (by omega)
        exact ⟨e, List.mem_cons_of_mem _ he, by omega⟩

/-- What the entries `es`, applied in order, leave in entry `c` of a table. -/
def entryAfter (base : Nat) (c : Nat) : List Export → Nat → Nat
  | [], v => v
  | e :: es, v => entryAfter base c es (if e.id = c then u32 (base + e.offset) else v)

/-- The last entry with id `c` decides. -/
theorem entryAfter_eq (base c : Nat) (es : List Export) (v : Nat) :
    entryAfter base c es v =
      match (es.filter fun e => e.id = c).getLast? with
      | some e => u32 (base + e.offset)
      | none => v := by
  induction es generalizing v with
  | nil => rfl
  | cons e es ih =>
      rw [entryAfter, ih]
      by_cases he : e.id = c
      · rw [if_pos he, List.filter_cons_of_pos (by simpa using he), List.getLast?_cons]
        cases (es.filter fun e => e.id = c).getLast? <;> rfl
      · rw [if_neg he, List.filter_cons_of_neg (by simpa using he)]

namespace Bee

/-- The entries of the module's table. -/
def tableSize (b : Bee) : Nat := Queen.tableSize b.exports

/-- The bytes of the module's id node. -/
def nodeSize (b : Bee) : Nat := 28 + 4 * b.tableSize

/-- Export ids are non-negative as `int`. -/
def NonNegative (b : Bee) : Prop := ∀ e ∈ b.exports, e.id < 2 ^ 31

instance (b : Bee) : Decidable b.NonNegative :=
  inferInstanceAs (Decidable (∀ e ∈ b.exports, e.id < 2 ^ 31))

/-- The last entry of the export list with id `c`. -/
def lastExport (b : Bee) (c : Nat) : Option Export :=
  (b.exports.filter fun e => e.id = c).getLast?

/-- The table's entry `c`: the address of the last export with that id, or 0. -/
def entry (b : Bee) (c : Nat) : Nat :=
  match b.lastExport c with
  | some e => u32 (b.base + e.offset)
  | none => 0

theorem lastExport_eq_none {b : Bee} {c : Nat} :
    b.lastExport c = none ↔ ∀ e ∈ b.exports, e.id ≠ c := by
  simp [lastExport]

theorem exists_of_lastExport {b : Bee} {c : Nat} {e : Export} (h : b.lastExport c = some e) :
    e ∈ b.exports ∧ e.id = c := by
  have mem := List.mem_of_getLast? h
  simpa using mem

/-- An exported id is in the table. -/
theorem lt_tableSize {b : Bee} {c : Nat} {e : Export} (h : b.lastExport c = some e) :
    c < b.tableSize := by
  obtain ⟨he, rfl⟩ := exists_of_lastExport h
  exact Queen.lt_tableSize he

/-- Where an entry exists, what was there before does not matter. -/
theorem entryAfter_of_lastExport {b : Bee} {c : Nat} {e : Export} (h : b.lastExport c = some e)
    (v : Nat) : entryAfter b.base c b.exports v = b.entry c := by
  rw [entryAfter_eq, entry]
  rw [lastExport] at h
  simp only [lastExport, h]

theorem entryAfter_zero (b : Bee) (c : Nat) : entryAfter b.base c b.exports 0 = b.entry c := by
  rw [entryAfter_eq, entry]
  rfl

/-- It is enough to clear all entries but the last one, which has an export. -/
theorem entryAfter_cleared {b : Bee} {c v : Nat} (hc : c < b.tableSize)
    (cleared : c < b.tableSize - 1 → v = 0) :
    entryAfter b.base c b.exports v = b.entry c := by
  by_cases last : c < b.tableSize - 1
  · rw [cleared last, entryAfter_zero]
  · rw [tableSize] at hc last
    obtain ⟨e, he, hid⟩ :=
      exists_tableSize (show Queen.tableSize b.exports ≠ 0 from Nat.ne_zero_of_lt hc)
    cases found : b.lastExport c with
    | none =>
        have absent := lastExport_eq_none.mp found e he
        omega
    | some d => exact entryAfter_of_lastExport found v

end Bee

/-- The node of `b` is at `node`: its id and its table. The rest of a node changes while
the system runs. -/
structure Serves (m : Mem) (b : Bee) (node : Nat) : Prop where
  id : nodeID m node = b.id
  table : ∀ c < b.tableSize, func m node c = b.entry c

/-- A node as `setupLookupArray` leaves it. -/
structure Fresh (m : Mem) (irt : Nat) (b : Bee) (node : Nat) : Prop extends Serves m b node where
  irt : dataIrt m node = u32 irt
  baseAdr : dataBaseAdr m node = b.base
  count : dataCount m node = 0
  ptr : dataPtr m node = 0
  globals : globalValues m node = 0

/-- `numFuncs`: the largest id of an export, or -1. -/
def Bee.maxID (b : Bee) : Nat := (((b.tableSize : Int) - 1) % 2 ^ 32).toNat

/-- With the number behind the fixed fields, which nothing reads. -/
structure Filled (m : Mem) (irt : Nat) (b : Bee) (node : Nat) : Prop
    extends Fresh m irt b node where
  numFuncs : Queen.numFuncs m node = b.maxID

section Frames

variable {m m' : Mem} {b : Bee} {node irt : Nat}

theorem Serves.agree (h : Serves m b node) (id : AgreeOn m m' node 4)
    (table : AgreeOn m m' (funcSlot node 0) (4 * b.tableSize))
    (fits : node + b.nodeSize ≤ 2 ^ 32) : Serves m' b node := by
  simp only [Bee.nodeSize, funcSlot] at fits table
  refine ⟨(id.load (by omega) (by omega) (by omega)).trans h.id, fun c hc => ?_⟩
  rw [← h.table c hc]
  refine table.load ?_ ?_ ?_ <;> simp only [funcSlot] <;> omega

theorem Fresh.agree (h : Fresh m irt b node) (same : AgreeOn m m' node b.nodeSize)
    (fits : node + b.nodeSize ≤ 2 ^ 32) : Fresh m' irt b node := by
  have size : b.nodeSize = 28 + 4 * b.tableSize := rfl
  obtain ⟨serves, hirt, base, count, ptr, globals⟩ := h
  refine ⟨serves.agree (same.mono (by omega) (by omega)) (same.mono ?_ ?_) fits, ?_, ?_, ?_, ?_, ?_⟩
  · simp only [funcSlot]
    omega
  · simp only [funcSlot]
    omega
  · exact (same.load (by omega) (by omega) (by omega)).trans hirt
  · exact (same.load (by omega) (by omega) (by omega)).trans base
  · exact (same.load (by omega) (by omega) (by omega)).trans count
  · exact (same.load (by omega) (by omega) (by omega)).trans ptr
  · exact (same.load (by omega) (by omega) (by omega)).trans globals

theorem Filled.agree (h : Filled m irt b node) (same : AgreeOn m m' node b.nodeSize)
    (fits : node + b.nodeSize ≤ 2 ^ 32) : Filled m' irt b node := by
  have size : b.nodeSize = 28 + 4 * b.tableSize := rfl
  exact ⟨h.toFresh.agree same fits, (same.load (by omega) (by omega) (by omega)).trans h.numFuncs⟩

end Frames

/-! ### The loops of `setupNode` -/

theorem int32_of_lt {n : Nat} (h : n < 2 ^ 31) : int32 n = n := if_pos h

theorem maxID_eq {m : Mem} {b : Bee} (page : DataPage m b) (nonneg : b.NonNegative) {n : Nat}
    (hn : n ≤ b.exports.length) :
    maxID m b.data n = (tableSize (b.exports.take n) : Int) - 1 := by
  induction n with
  | zero => simp [maxID, tableSize]
  | succ n ih =>
      have hlt : n < b.exports.length := hn
      have id := page.ids n hlt
      have small := nonneg _ (List.getElem_mem hlt)
      rw [maxID, ih (by omega), id, int32_of_lt small, ← List.take_append_getElem hlt,
        tableSize_append]
      simp only [tableSize]
      split_ifs <;> omega

theorem zeroWords_written (m : Mem) {a n : Nat} (fits : a + 4 * n ≤ 2 ^ 32) :
    WritesWithin m (zeroWords m a n) a (4 * n) := by
  induction n with
  | zero => exact WritesWithin.refl m a 0
  | succ n ih =>
      exact ((ih (by omega)).mono (Nat.le_refl _) (by omega)).andStore (by omega) (by omega)
        (by omega)

theorem load_zeroWords (m : Mem) {a n c : Nat} (fits : a + 4 * n ≤ 2 ^ 32) (hc : c < n) :
    load32 (zeroWords m a n) (a + 4 * c) = 0 := by
  induction n with
  | zero => omega
  | succ n ih =>
      rw [zeroWords]
      by_cases hlt : c < n
      · exact (load_store_of_disjoint _ (by omega) (by omega) (by omega)).trans (ih (by omega) hlt)
      · obtain rfl : c = n := by omega
        exact load_store_self _ (by omega) (by decide)

/-- The table loop from entry `s` on: every table entry is as the rest of the export list
leaves it, and only the table is written. -/
theorem fillFuncs_spec {m : Mem} {page i node : Nat} {b : Bee} (holds : Holds m page i b)
    (data : DataPage m b) (slotBelow : slot page i + 36 ≤ node)
    (dataBelow : b.data + b.pageSize ≤ node) (fits : node + b.nodeSize ≤ 2 ^ 32) {k s : Nat}
    (hk : b.exports.length - s ≤ k) :
    WritesWithin m (fillFuncs page i node k s m) (funcSlot node 0) (4 * b.tableSize) ∧
      ∀ c < b.tableSize, func (fillFuncs page i node k s m) node c =
        entryAfter b.base c (b.exports.drop s) (func m node c) := by
  induction k generalizing s m with
  | zero =>
      rw [List.drop_eq_nil_of_le (by omega)]
      exact ⟨WritesWithin.refl _ _ _, fun c _ => rfl⟩
  | succ k ih =>
      rw [fillFuncs, holds.data, data.count]
      by_cases hs : s < b.exports.length
      · have hid : b.exports[s].id < b.tableSize := lt_tableSize (List.getElem_mem hs)
        have size : b.nodeSize = 28 + 4 * b.tableSize := rfl
        rw [if_pos hs, data.ids s hs, data.funcs s hs, List.drop_eq_getElem_cons hs]
        obtain ⟨m', hm⟩ : ∃ m', store32 m (funcSlot node b.exports[s].id)
            (u32 (b.base + b.exports[s].offset)) = m' := ⟨_, rfl⟩
        simp only [hm]
        have written : WritesWithin m m' (funcSlot node 0) (4 * b.tableSize) := by
          rw [← hm]
          refine WritesWithin.store ?_ ?_ ?_ <;> simp only [funcSlot] <;> omega
        have holds' : Holds m' page i b :=
          holds.agree (written.agreeOn (by simp only [funcSlot]; omega)) (by omega)
        have data' : DataPage m' b :=
          data.agree (written.agreeOn (by simp only [funcSlot]; omega)) (by omega)
        obtain ⟨written', entries⟩ := ih holds' data' (by omega : b.exports.length - (s + 1) ≤ k)
        refine ⟨written.trans written', fun c hc => ?_⟩
        rw [entries c hc, entryAfter]
        congr 1
        rw [← hm]
        split_ifs with heq
        · subst heq
          refine load_store_self m ?_ (u32_lt _)
          simp only [funcSlot]
          omega
        · refine load_store_of_disjoint m ?_ ?_ ?_ <;> simp only [funcSlot] <;> omega
      · rw [if_neg hs, List.drop_eq_nil_of_le (by omega)]
        exact ⟨WritesWithin.refl _ _ _, fun c _ => rfl⟩

/-- The fixed fields. -/
theorem fillNode_spec (irt : Nat) {m : Mem} {page i node : Nat} {b : Bee} (holds : Holds m page i b)
    (data : DataPage m b) (slotBelow : slot page i + 36 ≤ node)
    (dataBelow : b.data + b.pageSize ≤ node) (fits : node + 24 ≤ 2 ^ 32) :
    WritesWithin m (fillNode m irt page i node) node 24 ∧
      nodeID (fillNode m irt page i node) node = b.id ∧
      dataIrt (fillNode m irt page i node) node = u32 irt ∧
      dataBaseAdr (fillNode m irt page i node) node = b.base ∧
      dataCount (fillNode m irt page i node) node = 0 ∧
      dataPtr (fillNode m irt page i node) node = 0 ∧
      globalValues (fillNode m irt page i node) node = 0 := by
  have size : b.pageSize = 18 + 8 * b.exports.length := rfl
  have hid : b.id < 2 ^ 32 := data.id ▸ load32_lt m _
  have hbase : b.base < 2 ^ 32 := data.base ▸ load32_lt m _
  have pointer : ∀ v, slotData (store32 (store32 m node v) (node + 4) irt) page i = b.data := by
    intro v
    rw [← holds.data]
    simp (disch := omega) only [slotData, load_store_of_disjoint]
  have base : ∀ v, baseAddress (store32 (store32 m node v) (node + 4) irt) b.data = b.base := by
    intro v
    rw [← data.base]
    simp (disch := omega) only [baseAddress, load_store_of_disjoint]
  simp only [fillNode, holds.data, data.id, pointer, base]
  refine ⟨?_, ?_, ?_, ?_, ?_, ?_, ?_⟩
  · have written := WritesWithin.refl m node 24
    iterate 6 refine WritesWithin.andStore ?_ (by omega) (by omega) (by omega)
    exact written
  · simp (disch := omega) only [nodeID, load_store_of_disjoint, load_store_self]
  · simp (disch := omega) only [dataIrt, load_store_of_disjoint, load_store_same]
    rfl
  · simp (disch := omega) only [dataBaseAdr, load_store_of_disjoint, load_store_self]
  · simp (disch := omega) only [dataCount, load_store_of_disjoint, load_store_self]
  · simp (disch := omega) only [dataPtr, load_store_of_disjoint, load_store_self]
  · simp (disch := omega) only [globalValues, load_store_self]

/-- The table behind both loops. It is enough to clear all entries but the last. -/
theorem table_spec {m : Mem} {page i node : Nat} {b : Bee} (holds : Holds m page i b)
    (data : DataPage m b) (slotBelow : slot page i + 36 ≤ node)
    (dataBelow : b.data + b.pageSize ≤ node) (fits : node + b.nodeSize ≤ 2 ^ 32)
    (count : b.exports.length ≤ 2 ^ 31) :
    WritesWithin m (fillFuncs page i node (2 ^ 31) 0
        (zeroWords m (funcSlot node 0) (b.tableSize - 1))) (node + 28) (4 * b.tableSize) ∧
      ∀ k < b.tableSize, func (fillFuncs page i node (2 ^ 31) 0
        (zeroWords m (funcSlot node 0) (b.tableSize - 1))) node k = b.entry k := by
  have size : b.nodeSize = 28 + 4 * b.tableSize := rfl
  have written : WritesWithin m (zeroWords m (funcSlot node 0) (b.tableSize - 1))
      (funcSlot node 0) (4 * b.tableSize) := by
    refine (zeroWords_written m ?_).mono (Nat.le_refl _) (by omega)
    simp only [funcSlot]
    omega
  have zero : ∀ k < b.tableSize - 1,
      func (zeroWords m (funcSlot node 0) (b.tableSize - 1)) node k = 0 := by
    intro k hk
    refine load_zeroWords m ?_ hk
    simp only [funcSlot]
    omega
  generalize zeroWords m (funcSlot node 0) (b.tableSize - 1) = m₁ at written zero ⊢
  have first : funcSlot node 0 = node + 28 := rfl
  rw [first] at written
  have holds₁ : Holds m₁ page i b := holds.agree (written.agreeOn (by omega)) (by omega)
  have data₁ : DataPage m₁ b := data.agree (written.agreeOn (by omega)) (by omega)
  obtain ⟨filled, entries⟩ := fillFuncs_spec (k := 2 ^ 31) (s := 0) holds₁ data₁ slotBelow
    dataBelow fits (by omega)
  refine ⟨written.trans filled, fun k hk => ?_⟩
  rw [entries k hk, List.drop_zero]
  exact Bee.entryAfter_cleared hk (zero k)

/-- One round of `setupLookupArray`: the module's node is built at the bump pointer, and
nothing outside it is written. -/
theorem setupNode_spec (index : Nat) {c : Core} {page i : Nat} {b : Bee}
    (holds : Holds c.mem page i b)
    (data : DataPage c.mem b) (slotBelow : slot page i + 36 ≤ c.memory)
    (dataBelow : b.data + b.pageSize ≤ c.memory) (nonneg : b.NonNegative)
    (fits : c.memory + b.nodeSize < 2 ^ 32) :
    ∃ m, setupNode c page i index =
        { c with mem := m
                 idNodes := Function.update c.idNodes index c.memory
                 memory := c.memory + b.nodeSize } ∧
      Filled m c.irt b c.memory ∧ WritesWithin c.mem m c.memory b.nodeSize := by
  have size : b.nodeSize = 28 + 4 * b.tableSize := rfl
  have dataSize : b.pageSize = 18 + 8 * b.exports.length := rfl
  obtain ⟨written₁, id, irt, base, count, ptr, globals⟩ :=
    fillNode_spec c.irt holds data slotBelow dataBelow (by omega)
  generalize hm₁ : fillNode c.mem c.irt page i c.memory = m₁ at *
  have holds₁ : Holds m₁ page i b := holds.agree (written₁.agreeOn (by omega)) (by omega)
  have data₁ : DataPage m₁ b := data.agree (written₁.agreeOn (by omega)) (by omega)
  have max : maxID m₁ b.data b.exports.length = (b.tableSize : Int) - 1 := by
    have all := maxID_eq data₁ nonneg (Nat.le_refl _)
    rwa [List.take_length] at all
  have cleared : ((b.tableSize : Int) - 1).toNat = b.tableSize - 1 := by omega
  obtain ⟨written₂, entries⟩ := table_spec holds₁ data₁ slotBelow dataBelow (by omega) (by omega)
  generalize hm₂ : fillFuncs page i c.memory (2 ^ 31) 0 _ = m₂ at *
  have built : setupNode c page i index =
      { c with mem := store32 m₂ (c.memory + 24) b.maxID
               idNodes := Function.update c.idNodes index c.memory
               memory := c.memory + b.nodeSize } := by
    have bump : u32 (c.memory + ((((b.tableSize : Int) - 1 + 1) * 4 + 28)).toNat) =
        c.memory + b.nodeSize := by
      rw [u32_of_lt (by omega)]
      omega
    simp only [setupNode, hm₁, holds₁.data, data₁.count, max, cleared, hm₂, bump, Bee.maxID]
  -- The words in front of `numFuncs` are those of `fillNode`.
  have front : ∀ a, c.memory ≤ a → a + 4 ≤ c.memory + 24 →
      load32 (store32 m₂ (c.memory + 24) b.maxID) a = load32 m₁ a := by
    intro a lo hi
    refine (load_store_of_disjoint m₂ ?_ ?_ (.inl hi)).trans ?_
    · omega
    · omega
    · exact written₂.load (by omega) (by omega)
  refine ⟨_, built, ⟨⟨⟨?_, ?_⟩, ?_, ?_, ?_, ?_, ?_⟩, ?_⟩, ?_⟩
  · exact (front _ (by omega) (by omega)).trans id
  · intro k hk
    have kept : func (store32 m₂ (c.memory + 24) b.maxID) c.memory k = func m₂ c.memory k := by
      simp (disch := omega) only [func, funcSlot, load_store_of_disjoint]
    rw [kept, entries k hk]
  · exact (front _ (by omega) (by omega)).trans irt
  · exact (front _ (by omega) (by omega)).trans base
  · exact (front _ (by omega) (by omega)).trans count
  · exact (front _ (by omega) (by omega)).trans ptr
  · exact (front _ (by omega) (by omega)).trans globals
  · refine load_store_self m₂ (by omega) ?_
    rw [Bee.maxID]
    omega
  · exact ((written₁.mono (by omega) (by omega)).trans
      (written₂.mono (by omega) (by omega))).andStore (by omega) (by omega) (by omega)

end HiveRK.Queen
