import HiveRK.Queen.Loader

/-!
# The registry of loaded modules

`NamesAt m pages bees` reads the names pages as the list of modules `bees`, and
`DataPage m b` reads the data page of one of them. `addNameToPage` appends to the list.
Where the number of modules is a multiple of 14 the last page is full and has neither a
terminator nor a successor; the successor comes with the next module.
-/

namespace HiveRK.Queen

open Machine

/-- An entry of an export list: the offset is relative to the module's base. -/
structure Export where
  id : Nat
  offset : Nat
deriving DecidableEq, Repr

/-- A loaded module: its name, the address of its data page, and what that page says. -/
structure Bee where
  name : List Byte
  data : Nat
  base : Nat
  id : Nat
  priority : Nat
  format : Nat
  init : Nat
  exports : List Export
deriving DecidableEq, Repr

/-- The bytes of the module's data page. -/
def Bee.pageSize (b : Bee) : Nat := 18 + 8 * b.exports.length

/-- The name is not the empty string. -/
def Bee.Named (b : Bee) : Prop := b.name.headD 0 ≠ 0

instance (b : Bee) : Decidable b.Named := inferInstanceAs (Decidable (b.name.headD 0 ≠ 0))

/-- The data page of `b` is in memory. -/
structure DataPage (m : Mem) (b : Bee) : Prop where
  base : baseAddress m b.data = b.base
  id : beeID m b.data = b.id
  priority : priority m b.data = b.priority
  format : format m b.data = b.format
  init : initFunc m b.data = u32 (b.base + b.init)
  count : exportCount m b.data = b.exports.length
  ids : ∀ (s : Nat) (h : s < b.exports.length), exportID m b.data s = b.exports[s].id
  funcs : ∀ (s : Nat) (h : s < b.exports.length),
    exportFunc m b.data s = u32 (b.base + b.exports[s].offset)

/-- A slot holds the name and the data pointer of `b`. -/
structure Holds (m : Mem) (page i : Nat) (b : Bee) : Prop where
  name : loadBytes m (slot page i) 32 = b.name
  data : slotData m page i = b.data

/-- The first slots of a page hold `bees`. -/
def Slots (m : Mem) (page : Nat) (bees : List Bee) : Prop :=
  ∀ (i : Nat) (h : i < bees.length), Holds m page i bees[i]

/-- The linked names pages hold `bees`, 14 to a page. -/
def NamesAt (m : Mem) : List Nat → List Bee → Prop
  | [], _ => False
  | [page], bees =>
      bees.length ≤ 14 ∧ Slots m page bees ∧
        (bees.length < 14 → firstChar m page bees.length = 0) ∧ nextPage m page = 0
  | page :: next :: rest, bees =>
      14 < bees.length ∧ Slots m page (bees.take 14) ∧ nextPage m page = next ∧ next ≠ 0 ∧
        NamesAt m (next :: rest) (bees.drop 14)

section Frames

variable {m m' : Mem} {page i : Nat} {b : Bee} {bees : List Bee}

theorem DataPage.agree (h : DataPage m b) (same : AgreeOn m m' b.data b.pageSize)
    (fits : b.data + b.pageSize ≤ 2 ^ 32) : DataPage m' b := by
  simp only [Bee.pageSize] at same fits
  obtain ⟨base, id, priority, format, init, count, ids, funcs⟩ := h
  constructor
  · exact (same.load (by omega) (by omega) (by omega)).trans base
  · exact (same.load (by omega) (by omega) (by omega)).trans id
  · exact (same.load (by omega) (by omega) (by omega)).trans priority
  · exact (same.load (by omega) (by omega) (by omega)).trans format
  · exact (same.load (by omega) (by omega) (by omega)).trans init
  · exact (same.load (by omega) (by omega) (by omega)).trans count
  · exact fun s hs => (same.load (by omega) (by omega) (by omega)).trans (ids s hs)
  · exact fun s hs => (same.load (by omega) (by omega) (by omega)).trans (funcs s hs)

theorem Holds.agree (h : Holds m page i b) (same : AgreeOn m m' (slot page i) 36)
    (fits : slot page i + 36 ≤ 2 ^ 32) : Holds m' page i b :=
  ⟨(same.loadBytes (by omega) (by omega) (by omega)).trans h.name,
    (same.load (by omega) (by omega) (by omega)).trans h.data⟩

theorem Holds.firstChar_eq (h : Holds m page i b) :
    firstChar m page i = (b.name.headD 0).toNat := by
  rw [← h.name]
  rfl

theorem Holds.firstChar_ne (h : Holds m page i b) (named : b.Named) : firstChar m page i ≠ 0 := by
  rw [h.firstChar_eq]
  intro zero
  exact named (BitVec.eq_of_toNat_eq zero)

theorem Slots.agree (h : Slots m page bees) (hlen : bees.length ≤ 14)
    (same : AgreeOn m m' page 504) (fits : page + 504 ≤ 2 ^ 32) : Slots m' page bees := by
  intro i hi
  refine (h i hi).agree (same.mono ?_ ?_) ?_ <;> simp only [slot] <;> omega

theorem nextPage_agree (same : AgreeOn m m' page 512) (fits : page + 512 ≤ 2 ^ 32) :
    nextPage m' page = nextPage m page :=
  same.load (by omega) (by omega) (by omega)

theorem firstChar_agree (same : AgreeOn m m' page 512) (fits : page + 512 ≤ 2 ^ 32)
    (hi : i < 14) : firstChar m' page i = firstChar m page i :=
  same.load (by rw [slot]; omega) (by rw [slot]; omega) (by rw [slot]; omega)

theorem Slots.agree_page (h : Slots m page bees) (hlen : bees.length ≤ 14)
    (same : AgreeOn m m' page 512) (fits : page + 512 ≤ 2 ^ 32) : Slots m' page bees :=
  h.agree hlen (same.mono (by omega) (by omega)) (by omega)

theorem NamesAt.agree {pages : List Nat} (h : NamesAt m pages bees)
    (same : ∀ p ∈ pages, AgreeOn m m' p 512) (fits : ∀ p ∈ pages, p + 512 ≤ 2 ^ 32) :
    NamesAt m' pages bees := by
  induction pages generalizing bees with
  | nil => exact h
  | cons page rest ih =>
      have samePage := same page List.mem_cons_self
      have fitsPage := fits page List.mem_cons_self
      have next := nextPage_agree samePage fitsPage
      cases rest with
      | nil =>
          obtain ⟨hlen, slots, stop, last⟩ := h
          refine ⟨hlen, slots.agree_page hlen samePage fitsPage, ?_, next.trans last⟩
          intro hlt
          rw [← stop hlt]
          exact firstChar_agree samePage fitsPage hlt
      | cons q rest =>
          obtain ⟨hlen, slots, hnext, hq, tail⟩ := h
          refine ⟨hlen, slots.agree_page ?_ samePage fitsPage, next.trans hnext, hq, ?_⟩
          · exact List.length_take_le 14 bees
          · exact ih tail (fun p hp => same p (List.mem_cons_of_mem _ hp))
              (fun p hp => fits p (List.mem_cons_of_mem _ hp))

end Frames

/-! ### `addNameToPage` -/

/-- The bytes of a page that `fillSlot` writes: the slot, and the first character of the
following slot if there is one. -/
def slotBytes (index : Nat) : Nat := if index + 1 < 14 then 37 else 36

theorem slotBytes_le {index : Nat} (h : index < 14) : 36 * index + slotBytes index ≤ 504 := by
  unfold slotBytes
  split_ifs <;> omega

theorem fillSlot_spec (m : Mem) {page index : Nat} {b : Bee} (hindex : index < 14)
    (hname : b.name.length = 32) (hdata : b.data < 2 ^ 32) (fits : page + 512 ≤ 2 ^ 32) :
    Holds (fillSlot m page index ⟨b.name, b.data⟩) page index b ∧
      (index + 1 < 14 → firstChar (fillSlot m page index ⟨b.name, b.data⟩) page (index + 1) = 0) ∧
      WritesWithin m (fillSlot m page index ⟨b.name, b.data⟩) (slot page index)
        (slotBytes index) := by
  have hstop : slot page (index + 1) = slot page index + 36 := by
    simp only [slot]
    omega
  have hslot : slot page index + slotBytes index ≤ page + 504 := by
    have room := slotBytes_le hindex
    simp only [slot]
    omega
  have room : slot page index + b.name.length ≤ 2 ^ 32 := by
    simp only [slot]
    omega
  have name := loadBytes_storeBytes m room
  rw [hname] at name
  have named := WritesWithin.storeBytes (m := m) (a := slot page index) (n := 32)
    room (Nat.le_refl _)
    (by omega)
  by_cases more : index + 1 < 14
  · have bytes : slotBytes index = 37 := if_pos more
    simp only [fillSlot, if_pos more, hstop, bytes] at hslot ⊢
    refine ⟨⟨?_, ?_⟩, fun _ => ?_, ?_⟩
    · simp (disch := omega) only [loadBytes_store_of_disjoint, name]
    · simp (disch := omega) only [slotData, load_store_of_disjoint, load_store_self]
    · simp (disch := omega) only [firstChar, hstop, load_store_self]
    · exact ((named.mono (by omega) (by omega)).andStore (by omega) (by omega) (by omega)).andStore
        (by omega) (by omega) (by omega)
  · have bytes : slotBytes index = 36 := if_neg more
    simp only [fillSlot, if_neg more, bytes] at hslot ⊢
    refine ⟨⟨?_, ?_⟩, fun h => absurd h more, ?_⟩
    · simp (disch := omega) only [loadBytes_store_of_disjoint, name]
    · simp (disch := omega) only [slotData, load_store_self]
    · exact (named.mono (by omega) (by omega)).andStore (by omega) (by omega) (by omega)

theorem extendPage_spec {c : Core} {page : Nat} (last : nextPage c.mem page = 0)
    (below : page + 512 ≤ c.memory) (room : c.memory + 512 < 2 ^ 32) :
    ∃ m, extendPage c page = { c with mem := m, memory := c.memory + 512 } ∧
      nextPage m page = c.memory ∧ nextPage m c.memory = 0 ∧
      ∀ x, (x < page + 504 ∨ page + 508 ≤ x) → (x < c.memory ∨ c.memory + 512 ≤ x) →
        m x = c.mem x := by
  have linked : nextPage (setNextPage c.mem page c.memory) page = c.memory :=
    load_store_self _ (by omega) (by omega)
  refine ⟨setNextPage (setNextPage c.mem page c.memory) c.memory 0, ?_, ?_, ?_, ?_⟩
  · simp only [extendPage, if_pos last, linked, u32_of_lt room]
  · simp (disch := omega) only [nextPage, setNextPage, load_store_of_disjoint, load_store_self]
  · simp (disch := omega) only [nextPage, setNextPage, load_store_self]
  · intro x hpage hfresh
    simp (disch := omega) only [setNextPage, store_outside]

/-- The module count at which the next module needs a new page. -/
def Grows (n : Nat) : Prop := n ≠ 0 ∧ n % 14 = 0

instance (n : Nat) : Decidable (Grows n) := inferInstanceAs (Decidable (_ ∧ _))

/-- The pages once a further module is added to `n`, when `fresh` is the bump pointer. -/
def pagesAfter (fresh n : Nat) (pages : List Nat) : List Nat :=
  if Grows n then pages ++ [fresh] else pages

theorem pagesAfter_cons (fresh n page : Nat) (rest : List Nat) :
    pagesAfter fresh n (page :: rest) = page :: pagesAfter fresh n rest := by
  unfold pagesAfter
  split_ifs <;> rfl

theorem mem_pagesAfter {fresh n p : Nat} {pages : List Nat} :
    p ∈ pagesAfter fresh n pages ↔ p ∈ pages ∨ Grows n ∧ p = fresh := by
  unfold pagesAfter
  split_ifs with grows
  · rw [List.mem_append, List.mem_singleton, and_iff_right grows]
  · exact (or_iff_left fun h => grows h.1).symm

/-- The bytes that `addNameToPage` writes at index `n`: a slot and the following terminator
in the last page, or that page's link and a new page at `fresh`. -/
def Touched (fresh : Nat) : List Nat → Nat → Nat → Prop
  | [], _, _ => False
  | [page], n, x =>
      if n < 14 then slot page n ≤ x ∧ x < slot page n + slotBytes n
      else page + 504 ≤ x ∧ x < page + 508 ∨ fresh ≤ x ∧ x < fresh + 512
  | _ :: next :: rest, n, x => Touched fresh (next :: rest) (n - 14) x

/-- Only names pages are touched. -/
theorem Touched.inside {fresh n x : Nat} {pages : List Nat} (h : Touched fresh pages n x) :
    (∃ p ∈ pages, p ≤ x ∧ x < p + 512) ∨ fresh ≤ x ∧ x < fresh + 512 := by
  induction pages generalizing n with
  | nil => exact h.elim
  | cons page rest ih =>
      cases rest with
      | nil =>
          rw [Touched] at h
          split_ifs at h with hn
          · have room := slotBytes_le hn
            simp only [slot] at h
            exact .inl ⟨page, by simp, by omega, by omega⟩
          · obtain ⟨lo, hi⟩ | new := h
            · exact .inl ⟨page, by simp, by omega, by omega⟩
            · exact .inr new
      | cons next rest =>
          obtain ⟨p, hp, hx⟩ | new := ih h
          · exact .inl ⟨p, List.mem_cons_of_mem _ hp, hx⟩
          · exact .inr new

theorem slots_append {m : Mem} {page : Nat} {bees : List Bee} {b : Bee} (h : Slots m page bees)
    (last : Holds m page bees.length b) : Slots m page (bees ++ [b]) := by
  intro i hi
  rw [List.length_append, List.length_singleton] at hi
  by_cases hlt : i < bees.length
  · rw [List.getElem_append_left hlt]
    exact h i hlt
  · obtain rfl : i = bees.length := by omega
    simpa using last

/-- In the last page, while it has room. -/
theorem addNameToPage_fill {c : Core} {page : Nat} {bees : List Bee} {b : Bee}
    (names : NamesAt c.mem [page] bees) (hlt : bees.length < 14) (fits : page + 512 ≤ 2 ^ 32)
    (hname : b.name.length = 32) (hdata : b.data < 2 ^ 32) :
    ∃ m, addNameToPage c page bees.length ⟨b.name, b.data⟩ = { c with mem := m } ∧
      NamesAt m [page] (bees ++ [b]) ∧
      WritesWithin c.mem m (slot page bees.length) (slotBytes bees.length) := by
  obtain ⟨_, slots, _, last⟩ := names
  obtain ⟨holds, stop, written⟩ := fillSlot_spec c.mem hlt hname hdata fits
  have room := slotBytes_le hlt
  refine ⟨_, by rw [addNameToPage, if_neg (by omega)], ⟨?_, ?_, ?_, ?_⟩, written⟩
  · rw [List.length_append, List.length_singleton]
    omega
  · refine slots_append (fun i hi => ?_) holds
    refine (slots i hi).agree (written.agreeOn ?_) ?_ <;> simp only [slot] <;> omega
  · simpa using stop
  · exact (written.load (by omega) (by simp only [slot]; omega)).trans last

/-- Behind a full last page, in a new one. -/
theorem addNameToPage_grow {c : Core} {page : Nat} {bees : List Bee} {b : Bee}
    (names : NamesAt c.mem [page] bees) (hlen : bees.length = 14) (below : page + 512 ≤ c.memory)
    (room : c.memory + 512 < 2 ^ 32) (hname : b.name.length = 32) (hdata : b.data < 2 ^ 32) :
    ∃ m, addNameToPage c page bees.length ⟨b.name, b.data⟩ =
        { c with mem := m, memory := c.memory + 512 } ∧
      NamesAt m [page, c.memory] (bees ++ [b]) ∧
      ∀ x, (x < page + 504 ∨ page + 508 ≤ x) → (x < c.memory ∨ c.memory + 512 ≤ x) →
        m x = c.mem x := by
  obtain ⟨_, slots, _, last⟩ := names
  obtain ⟨m, extended, link, fresh, kept⟩ := extendPage_spec last below room
  obtain ⟨holds, stop, written⟩ :=
    fillSlot_spec m (show 0 < 14 by decide) hname hdata (show c.memory + 512 ≤ 2 ^ 32 by omega)
  have slot0 : slot c.memory 0 = c.memory := rfl
  have bytes0 : slotBytes 0 = 37 := rfl
  rw [slot0, bytes0] at written
  refine ⟨fillSlot m c.memory 0 ⟨b.name, b.data⟩, ?_, ⟨by simp [hlen], ?_, ?_, by omega, ?_⟩, ?_⟩
  · rw [addNameToPage, if_pos (by omega), extended]
    simp only [link, hlen]
    rw [addNameToPage, if_neg (by omega)]
  · rw [List.take_left' hlen]
    refine slots.agree (by omega) ?_ (by omega)
    exact fun x lo hi => (written x (by omega)).trans (kept x (by omega) (by omega))
  · exact (written.load (by omega) (by omega)).trans link
  · rw [List.drop_left' hlen]
    refine ⟨by simp, fun i hi => ?_, fun _ => stop (by omega), ?_⟩
    · obtain rfl : i = 0 := by simpa using hi
      exact holds
    · exact (written.load (by omega) (by omega)).trans fresh
  · exact fun x hpage hfresh => (written x (by omega)).trans (kept x hpage hfresh)

theorem addNameToPage_last {c : Core} {page : Nat} {bees : List Bee} {b : Bee}
    (names : NamesAt c.mem [page] bees) (below : page + 512 ≤ c.memory)
    (room : c.memory + 512 < 2 ^ 32) (hname : b.name.length = 32) (hdata : b.data < 2 ^ 32) :
    ∃ m, addNameToPage c page bees.length ⟨b.name, b.data⟩ =
        { c with mem := m
                 memory := if Grows bees.length then c.memory + 512 else c.memory } ∧
      NamesAt m (pagesAfter c.memory bees.length [page]) (bees ++ [b]) ∧
      ∀ x, ¬ Touched c.memory [page] bees.length x → m x = c.mem x := by
  have hlen : bees.length ≤ 14 := names.1
  by_cases hlt : bees.length < 14
  · have stays : ¬ Grows bees.length := by
      rintro ⟨_, _⟩
      omega
    obtain ⟨m, run, names', written⟩ := addNameToPage_fill names hlt (by omega) hname hdata
    refine ⟨m, by rw [run, if_neg stays], by rwa [pagesAfter, if_neg stays], ?_⟩
    intro x hx
    rw [Touched, if_pos hlt] at hx
    exact written x (by omega)
  · have hfull : bees.length = 14 := by omega
    have grows : Grows bees.length := by rw [hfull]; decide
    obtain ⟨m, run, names', kept⟩ := addNameToPage_grow names hfull below room hname hdata
    refine ⟨m, by rw [run, if_pos grows], by rwa [pagesAfter, if_pos grows], ?_⟩
    intro x hx
    rw [Touched, if_neg hlt] at hx
    exact kept x (by omega) (by omega)

theorem grows_drop {n : Nat} (full : 14 < n) : Grows (n - 14) ↔ Grows n := by
  simp only [Grows]
  omega

/-- From a page that another one follows, the module is added behind it. -/
theorem addNameToPage_skip {c : Core} {page next : Nat} {rest : List Nat} {bees : List Bee}
    {b : Bee} {m : Mem} (names : NamesAt c.mem (page :: next :: rest) bees)
    (apart : ∀ p ∈ next :: rest, page + 512 ≤ p) (below : page + 512 ≤ c.memory)
    (room : c.memory + 512 < 2 ^ 32)
    (run : addNameToPage c next (bees.length - 14) ⟨b.name, b.data⟩ =
      { c with mem := m
               memory := if Grows (bees.length - 14) then c.memory + 512 else c.memory })
    (names' : NamesAt m (pagesAfter c.memory (bees.length - 14) (next :: rest))
      (bees.drop 14 ++ [b]))
    (kept : ∀ x, ¬ Touched c.memory (next :: rest) (bees.length - 14) x → m x = c.mem x) :
    addNameToPage c page bees.length ⟨b.name, b.data⟩ =
        { c with mem := m
                 memory := if Grows bees.length then c.memory + 512 else c.memory } ∧
      NamesAt m (pagesAfter c.memory bees.length (page :: next :: rest)) (bees ++ [b]) := by
  obtain ⟨hlen, slots, hnext, hne, -⟩ := names
  have grows := grows_drop hlen
  -- Nothing behind this page reaches back into it.
  have samePage : AgreeOn c.mem m page 512 := by
    intro x lo hi
    apply kept x
    intro touched
    obtain ⟨p, hp, _⟩ | _ := touched.inside
    · have := apart p hp
      omega
    · omega
  have stays : extendPage c page = c := by
    rw [extendPage, if_neg (by rw [hnext]; exact hne)]
  constructor
  · rw [addNameToPage, if_pos (by omega)]
    simp only [stays, hnext, run, grows]
  · have shape : pagesAfter c.memory bees.length (next :: rest) =
        pagesAfter c.memory (bees.length - 14) (next :: rest) := by
      simp only [pagesAfter, grows]
    rw [pagesAfter_cons] at names'
    rw [pagesAfter_cons, shape, pagesAfter_cons]
    refine ⟨by simp; omega, ?_, ?_, hne, ?_⟩
    · rw [List.take_append_of_le_length (by omega)]
      exact slots.agree_page (List.length_take_le 14 bees) samePage (by omega)
    · exact (nextPage_agree samePage (by omega)).trans hnext
    · rw [List.drop_append_of_le_length (by omega)]
      exact names'

/-- `addNameToPage` appends the module to the list, and writes nothing else. -/
theorem addNameToPage_spec {c : Core} {page : Nat} {rest : List Nat} {bees : List Bee} {b : Bee}
    (names : NamesAt c.mem (page :: rest) bees)
    (apart : (page :: rest).Pairwise fun p q => p + 512 ≤ q)
    (below : ∀ p ∈ page :: rest, p + 512 ≤ c.memory) (room : c.memory + 512 < 2 ^ 32)
    (hname : b.name.length = 32) (hdata : b.data < 2 ^ 32) :
    ∃ m, addNameToPage c page bees.length ⟨b.name, b.data⟩ =
        { c with mem := m
                 memory := if Grows bees.length then c.memory + 512 else c.memory } ∧
      NamesAt m (pagesAfter c.memory bees.length (page :: rest)) (bees ++ [b]) ∧
      ∀ x, ¬ Touched c.memory (page :: rest) bees.length x → m x = c.mem x := by
  induction rest generalizing page bees with
  | nil => exact addNameToPage_last names (below page List.mem_cons_self) room hname hdata
  | cons next rest ih =>
      obtain ⟨hpage, hrest⟩ := List.pairwise_cons.mp apart
      obtain ⟨m, run, names', kept⟩ := ih names.2.2.2.2 hrest fun p hp =>
        below p (List.mem_cons_of_mem _ hp)
      rw [List.length_drop] at run names' kept
      obtain ⟨run, names'⟩ := addNameToPage_skip names hpage (below page List.mem_cons_self) room
        run names' kept
      exact ⟨m, run, names', kept⟩

/-! ### Histories of registration -/

/-- The registry as main's load loop leaves it: the modules `bees` were added to the first
page `page0`, each after its image and its data page were carved, and since then nothing
wrote to a names page or a data page. -/
inductive Registered (page0 : Nat) : List Bee → Core → Prop where
  | prepare {c : Core} (start : c.memory = page0) (room : page0 + 512 < 2 ^ 32) :
      Registered page0 [] (prepare c)
  | register {bees : List Bee} {c c' : Core} {b : Bee} (before : Registered page0 bees c)
      (kept : ∀ x < c.memory, c'.mem x = c.mem x) (image : c.memory + 512 ≤ b.data)
      (carved : b.data + b.pageSize ≤ c'.memory) (sectors : c.memory + 1024 ≤ c'.memory)
      (room : c'.memory + 512 < 2 ^ 32) (name : b.name.length = 32) (page : DataPage c'.mem b) :
      Registered page0 (bees ++ [b]) (addNameToPage c' page0 bees.length ⟨b.name, b.data⟩)
  | elsewhere {bees : List Bee} {c c' : Core} {rest : List Nat} (before : Registered page0 bees c)
      (names : NamesAt c.mem (page0 :: rest) bees)
      (pages : ∀ p ∈ page0 :: rest, AgreeOn c.mem c'.mem p 512)
      (data : ∀ b ∈ bees, AgreeOn c.mem c'.mem b.data b.pageSize)
      (grown : c.memory ≤ c'.memory) (room : c'.memory < 2 ^ 32) : Registered page0 bees c'

/-- What every history of registration ensures. -/
structure Loaded (page0 : Nat) (rest : List Nat) (bees : List Bee) (c : Core) : Prop where
  names : NamesAt c.mem (page0 :: rest) bees
  data : ∀ b ∈ bees, DataPage c.mem b
  pagesApart : (page0 :: rest).Pairwise fun p q => p + 512 ≤ q
  dataApart : ∀ b ∈ bees, ∀ p ∈ page0 :: rest, b.data + b.pageSize ≤ p ∨ p + 512 ≤ b.data
  pagesBelow : ∀ p ∈ page0 :: rest, p + 512 ≤ c.memory
  dataBelow : ∀ b ∈ bees, b.data + b.pageSize ≤ c.memory
  fits : c.memory < 2 ^ 32
  grown : page0 + 512 + 1024 * bees.length ≤ c.memory
  far : ∀ p ∈ rest, page0 + 512 + 1024 * 14 ≤ p

section Histories

variable {page0 : Nat} {rest : List Nat} {bees : List Bee} {c c' : Core} {b : Bee}

theorem loaded_prepare (room : c.memory + 512 < 2 ^ 32) :
    Loaded c.memory [] [] (prepare c) := by
  have hmem : (prepare c).memory = c.memory + 512 := u32_of_lt room
  constructor
  · refine ⟨by simp, fun i hi => absurd hi (by simp), fun _ => ?_, ?_⟩
    · simp (disch := omega) only [prepare, firstChar, slot, List.length_nil, load_store_self]
    · simp (disch := omega) only [prepare, nextPage, setNextPage, slot, load_store_of_disjoint,
        load_store_self]
  · simp
  · simp
  · simp
  · simp [hmem]
  · simp
  · rw [hmem]
    exact room
  · simp [hmem]
  · simp

/-- Changes outside the registry keep it. -/
theorem Loaded.elsewhere (h : Loaded page0 rest bees c)
    (pages : ∀ p ∈ page0 :: rest, AgreeOn c.mem c'.mem p 512)
    (data : ∀ b ∈ bees, AgreeOn c.mem c'.mem b.data b.pageSize)
    (grown : c.memory ≤ c'.memory) (room : c'.memory < 2 ^ 32) : Loaded page0 rest bees c' := by
  have hfits := h.fits
  refine ⟨h.names.agree pages ?_, ?_, h.pagesApart, h.dataApart, ?_, ?_, room, ?_, h.far⟩
  · intro p hp
    have := h.pagesBelow p hp
    omega
  · intro b hb
    have := h.dataBelow b hb
    exact (h.data b hb).agree (data b hb) (by omega)
  · exact fun p hp => Nat.le_trans (h.pagesBelow p hp) grown
  · exact fun b hb => Nat.le_trans (h.dataBelow b hb) grown
  · exact Nat.le_trans h.grown grown

/-- Changes at and above the bump pointer are outside the registry. -/
theorem Loaded.above (h : Loaded page0 rest bees c) (kept : ∀ x < c.memory, c'.mem x = c.mem x)
    (grown : c.memory ≤ c'.memory) (room : c'.memory < 2 ^ 32) : Loaded page0 rest bees c' := by
  refine h.elsewhere ?_ ?_ grown room
  · intro p hp x lo hi
    have := h.pagesBelow p hp
    exact kept x (by omega)
  · intro b hb x lo hi
    have := h.dataBelow b hb
    exact kept x (by omega)

/-- One more module: its names slot is filled, and a page may be added for it. -/
theorem Loaded.register (h : Loaded page0 rest bees c) (kept : ∀ x < c.memory, c'.mem x = c.mem x)
    (image : c.memory + 512 ≤ b.data) (carved : b.data + b.pageSize ≤ c'.memory)
    (sectors : c.memory + 1024 ≤ c'.memory) (room : c'.memory + 512 < 2 ^ 32)
    (name : b.name.length = 32) (page : DataPage c'.mem b) :
    ∃ rest', pagesAfter c'.memory bees.length (page0 :: rest) = page0 :: rest' ∧
      Loaded page0 rest' (bees ++ [b])
        (addNameToPage c' page0 bees.length ⟨b.name, b.data⟩) := by
  have h' : Loaded page0 rest bees c' := h.above kept (by omega) (by omega)
  have total := h.grown
  obtain ⟨m, run, names, unchanged⟩ :=
    addNameToPage_spec h'.names h'.pagesApart h'.pagesBelow room name (by omega)
  have shape := pagesAfter_cons c'.memory bees.length page0 rest
  -- What holds of the modules so far holds of the new one.
  have data : ∀ d ∈ bees ++ [b], DataPage c'.mem d :=
    List.forall_mem_append.mpr ⟨h'.data, List.forall_mem_singleton.mpr page⟩
  have below : ∀ d ∈ bees ++ [b], d.data + d.pageSize ≤ c'.memory :=
    List.forall_mem_append.mpr ⟨h'.dataBelow, List.forall_mem_singleton.mpr carved⟩
  have apart : ∀ d ∈ bees ++ [b], ∀ p ∈ page0 :: rest,
      d.data + d.pageSize ≤ p ∨ p + 512 ≤ d.data := by
    refine List.forall_mem_append.mpr ⟨h'.dataApart, List.forall_mem_singleton.mpr fun p hp => ?_⟩
    have := h.pagesBelow p hp
    omega
  have memory : (addNameToPage c' page0 bees.length ⟨b.name, b.data⟩).memory =
      if Grows bees.length then c'.memory + 512 else c'.memory := by rw [run]
  have top : c'.memory ≤ (addNameToPage c' page0 bees.length ⟨b.name, b.data⟩).memory := by
    rw [memory]
    split_ifs <;> omega
  refine ⟨pagesAfter c'.memory bees.length rest, shape, ?_, fun d hd => ?_, ?_,
    fun d hd p hp => ?_, fun p hp => ?_, fun d hd => Nat.le_trans (below d hd) top, ?_, ?_,
    fun p hp => ?_⟩
  · rwa [run, ← shape]
  · -- A data page that meets no names page is not written.
    rw [run]
    refine (data d hd).agree (fun x lo hi => unchanged x fun touched => ?_) ?_
    · obtain ⟨p, hp, hx⟩ | hx := touched.inside
      · have := apart d hd p hp
        omega
      · have := below d hd
        omega
    · have := below d hd
      omega
  · rw [← shape]
    unfold pagesAfter
    split_ifs
    · refine List.pairwise_append.mpr ⟨h'.pagesApart, List.pairwise_singleton _ _, ?_⟩
      exact fun p hp => List.forall_mem_singleton.mpr (h'.pagesBelow p hp)
    · exact h'.pagesApart
  · rw [← shape] at hp
    obtain old | ⟨_, rfl⟩ := mem_pagesAfter.mp hp
    · exact apart d hd p old
    · exact .inl (below d hd)
  · rw [← shape] at hp
    obtain old | ⟨grows, rfl⟩ := mem_pagesAfter.mp hp
    · exact Nat.le_trans (h'.pagesBelow p old) top
    · exact Nat.le_of_eq (memory.trans (if_pos grows)).symm
  · rw [memory]
    split_ifs <;> omega
  · rw [List.length_append, List.length_singleton, Nat.mul_succ, ← Nat.add_assoc]
    exact Nat.le_trans (Nat.add_le_add_right total 1024) (Nat.le_trans sectors top)
  · obtain old | ⟨⟨_, _⟩, rfl⟩ := mem_pagesAfter.mp hp
    · exact h.far p old
    · omega

/-- The names list of a page list has one reading only. -/
theorem NamesAt.unique {m : Mem} {page : Nat} {rest rest' : List Nat} {bees : List Bee}
    (h : NamesAt m (page :: rest) bees) (h' : NamesAt m (page :: rest') bees) : rest = rest' := by
  induction rest generalizing page rest' bees with
  | nil =>
      cases rest' with
      | nil => rfl
      | cons q rest' =>
          have := h.1
          have := h'.1
          omega
  | cons q rest ih =>
      cases rest' with
      | nil =>
          have := h.1
          have := h'.1
          omega
      | cons q' rest' =>
          obtain ⟨_, _, hq, _, tail⟩ := h
          obtain ⟨_, _, hq', _, tail'⟩ := h'
          obtain rfl : q = q' := hq.symm.trans hq'
          rw [ih tail tail']

theorem Registered.loaded (h : Registered page0 bees c) : ∃ rest, Loaded page0 rest bees c := by
  induction h with
  | prepare start room =>
      subst start
      exact ⟨[], loaded_prepare room⟩
  | register _ kept image carved sectors room name page ih =>
      obtain ⟨rest, loaded⟩ := ih
      obtain ⟨rest', _, loaded'⟩ := loaded.register kept image carved sectors room name page
      exact ⟨rest', loaded'⟩
  | elsewhere _ names pages data grown room ih =>
      obtain ⟨rest, loaded⟩ := ih
      obtain rfl := loaded.names.unique names
      exact ⟨rest, loaded.elsewhere pages data grown room⟩

/-- `c` after `b` was registered in the first page with index `index`: `image` says what was
loaded into the two sectors from the bump pointer on. -/
def Core.extend (c : Core) (page0 index : Nat) (image : Mem) (b : Bee) : Core :=
  { c with
    mem := fillSlot (fun x => if x < c.memory then c.mem x else image x) page0 index
      ⟨b.name, b.data⟩
    memory := c.memory + 1024 }

/-- Any module whose data page fits a sector can be registered next, as long as the first
page has room. -/
theorem Registered.extend (h : Registered page0 bees c) (short : bees.length < 14) {image : Mem}
    (page : DataPage image b) (data : b.data = c.memory + 512) (small : b.pageSize ≤ 512)
    (name : b.name.length = 32) (room : c.memory + 1536 < 2 ^ 32) :
    Registered page0 (bees ++ [b]) (c.extend page0 bees.length image b) := by
  let c₀ : Core := { c with
    mem := fun x => if x < c.memory then c.mem x else image x
    memory := c.memory + 1024 }
  have page₀ : DataPage c₀.mem b :=
    page.agree (fun x lo _ => if_neg (by omega)) (by omega)
  have added : addNameToPage c₀ page0 bees.length ⟨b.name, b.data⟩ =
      c.extend page0 bees.length image b := by
    rw [addNameToPage, if_neg (by omega)]
    rfl
  rw [← added]
  exact .register h (fun x hx => if_pos hx) (by omega)
    (show b.data + b.pageSize ≤ c.memory + 1024 by omega) (Nat.le_refl _)
    (show c.memory + 1024 + 512 < 2 ^ 32 by omega) name page₀

end Histories

end HiveRK.Queen
