import HiveRK.Queen.Node

/-!
# The lookup array

`setupLookupArray` walks the registry and builds one id node for each module, back to
back from the bump pointer on. `walk` lists what such a walk does: the slots of a page in
order, then the terminator, or the page's link if the page is full.
-/

namespace HiveRK.Queen

open Machine

/-! ### Walks -/

/-- `n` filled slots of a page, from slot `i` on. -/
def seen (page : Nat) : Nat → Nat → List Event
  | _, 0 => []
  | i, n + 1 => .probe page i :: .visit page i :: seen page (i + 1) n

/-- The end of a walk behind the `n` modules of a last page. -/
def lastEvent (page n : Nat) : Event := if n < 14 then .probe page n else .link page

/-- A walk over the slots of `n` modules in `pages`, and its end. -/
def walk : List Nat → Nat → List Event
  | [], _ => []
  | [page], n => seen page 0 n ++ [lastEvent page n]
  | page :: next :: rest, n =>
      seen page 0 14 ++ .link page :: .follow next :: walk (next :: rest) (n - 14)

/-! ### Nodes -/

/-- The bytes of the id nodes of `bees`. -/
def nodesSize (bees : List Bee) : Nat := (bees.map Bee.nodeSize).sum

@[simp] theorem nodesSize_nil : nodesSize [] = 0 := rfl

@[simp] theorem nodesSize_cons (b : Bee) (bees : List Bee) :
    nodesSize (b :: bees) = b.nodeSize + nodesSize bees := by
  simp [nodesSize]

@[simp] theorem nodesSize_append (bees bees' : List Bee) :
    nodesSize (bees ++ bees') = nodesSize bees + nodesSize bees' := by
  simp [nodesSize]

/-- The lookup array from `index` on points to fresh nodes for `bees`, which lie back to
back from `a` on. -/
def NodesAt (m : Mem) (array : Nat → Nat) (irt : Nat) : Nat → Nat → List Bee → Prop
  | _, _, [] => True
  | index, a, b :: bees =>
      array index = a ∧ Filled m irt b a ∧ NodesAt m array irt (index + 1) (a + b.nodeSize) bees

section Nodes

variable {m m' : Mem} {array array' : Nat → Nat} {irt index a : Nat} {bees bees' : List Bee}

theorem nodesAt_append :
    NodesAt m array irt index a (bees ++ bees') ↔
      NodesAt m array irt index a bees ∧
        NodesAt m array irt (index + bees.length) (a + nodesSize bees) bees' := by
  induction bees generalizing index a with
  | nil => simp [NodesAt]
  | cons b bees ih =>
      rw [List.cons_append, NodesAt, NodesAt, ih, nodesSize_cons, List.length_cons,
        ← Nat.add_assoc, Nat.add_right_comm index, Nat.add_assoc index, and_assoc, and_assoc]
      simp only [Nat.add_comm, Nat.add_left_comm]

theorem NodesAt.agree (h : NodesAt m array irt index a bees)
    (same : AgreeOn m m' a (nodesSize bees))
    (kept : ∀ j, index ≤ j → j < index + bees.length → array' j = array j)
    (fits : a + nodesSize bees ≤ 2 ^ 32) : NodesAt m' array' irt index a bees := by
  induction bees generalizing index a with
  | nil => trivial
  | cons b bees ih =>
      obtain ⟨pointer, filled, tail⟩ := h
      rw [nodesSize_cons] at same fits
      rw [List.length_cons] at kept
      refine ⟨(kept index (by omega) (by omega)).trans pointer, ?_, ?_⟩
      · exact filled.agree (same.mono (by omega) (by omega)) (by omega)
      · exact ih tail (same.mono (by omega) (by omega))
          (fun j lo hi => kept j (by omega) (by omega))
          (by omega)

/-- The node of the `j`-th module. -/
theorem NodesAt.get (h : NodesAt m array irt index a bees) {j : Nat} (hj : j < bees.length) :
    array (index + j) = a + nodesSize (bees.take j) ∧
      Filled m irt bees[j] (array (index + j)) := by
  induction bees generalizing index a j with
  | nil => exact absurd hj (by simp)
  | cons b bees ih =>
      obtain ⟨pointer, filled, tail⟩ := h
      cases j with
      | zero =>
          rw [Nat.add_zero, pointer]
          exact ⟨rfl, filled⟩
      | succ j =>
          obtain ⟨pointer', filled'⟩ := ih tail (by simpa using hj)
          rw [Nat.add_assoc, Nat.add_comm 1 j] at pointer' filled'
          refine ⟨?_, filled'⟩
          rw [pointer', List.take_succ_cons, nodesSize_cons, Nat.add_assoc]

end Nodes

/-- A module's node lies inside the stretch that the nodes of all modules take. -/
theorem nodesSize_take_le {bees : List Bee} {j : Nat} (hj : j < bees.length) :
    nodesSize (bees.take j) + bees[j].nodeSize ≤ nodesSize bees := by
  have parts := nodesSize_append (bees.take (j + 1)) (bees.drop (j + 1))
  rw [List.take_append_drop, ← List.take_append_getElem hj, nodesSize_append, nodesSize_cons,
    nodesSize_nil] at parts
  omega

/-! ### Reading the registry -/

/-- A walk over the pages meets `bees` and then its end: an empty name, or a full page
without a link. -/
def Reads (m : Mem) : List Nat → List Bee → Prop
  | [], _ => False
  | [page], bees =>
      bees.length ≤ 14 ∧ Slots m page bees ∧
        (bees.length < 14 → firstChar m page bees.length = 0) ∧
        (bees.length = 14 → nextPage m page = 0)
  | page :: next :: rest, bees =>
      14 ≤ bees.length ∧ Slots m page (bees.take 14) ∧ nextPage m page = next ∧ next ≠ 0 ∧
        Reads m (next :: rest) (bees.drop 14)

section Reading

variable {m m' : Mem} {page : Nat} {more pages : List Nat} {bees : List Bee}

theorem Reads.agree (h : Reads m pages bees) (same : ∀ p ∈ pages, AgreeOn m m' p 512)
    (fits : ∀ p ∈ pages, p + 512 ≤ 2 ^ 32) : Reads m' pages bees := by
  induction pages generalizing bees with
  | nil => exact h
  | cons page rest ih =>
      have samePage := same page List.mem_cons_self
      have fitsPage := fits page List.mem_cons_self
      have next := nextPage_agree samePage fitsPage
      cases rest with
      | nil =>
          obtain ⟨hlen, slots, stop, last⟩ := h
          refine ⟨hlen, slots.agree_page hlen samePage fitsPage, ?_,
            fun full => next.trans (last full)⟩
          intro hlt
          rw [← stop hlt]
          exact firstChar_agree samePage fitsPage hlt
      | cons q rest =>
          obtain ⟨hlen, slots, hnext, hq, tail⟩ := h
          refine ⟨hlen, slots.agree_page ?_ samePage fitsPage, next.trans hnext, hq, ?_⟩
          · exact List.length_take_le 14 bees
          · exact ih tail (fun p hp => same p (List.mem_cons_of_mem _ hp))
              (fun p hp => fits p (List.mem_cons_of_mem _ hp))

/-- There are no more further pages than modules. -/
theorem Reads.length_le (h : Reads m (page :: more) bees) : more.length ≤ bees.length := by
  induction more generalizing page bees with
  | nil => exact Nat.zero_le _
  | cons next more ih =>
      obtain ⟨hlen, _, _, _, tail⟩ := h
      have short := ih tail
      rw [List.length_drop] at short
      rw [List.length_cons]
      omega

theorem NamesAt.reads (h : NamesAt m (page :: more) bees) : Reads m (page :: more) bees := by
  induction more generalizing page bees with
  | nil =>
      obtain ⟨hlen, slots, stop, last⟩ := h
      exact ⟨hlen, slots, stop, fun _ => last⟩
  | cons next more ih =>
      obtain ⟨hlen, slots, link, hne, tail⟩ := h
      exact ⟨Nat.le_of_lt hlen, slots, link, hne, ih tail⟩

/-! What one page of the walk says. -/

theorem Reads.slot (h : Reads m (page :: more) bees) {i : Nat} (hi : i < bees.length)
    (hpage : i < 14) : Holds m page i bees[i] := by
  cases more with
  | nil => exact h.2.1 i hi
  | cons next more =>
      have here := h.2.1 i (by rw [List.length_take]; omega)
      rwa [List.getElem_take] at here

theorem Reads.stop (h : Reads m (page :: more) bees) (short : bees.length < 14) :
    more = [] ∧ firstChar m page bees.length = 0 := by
  cases more with
  | nil => exact ⟨rfl, h.2.2.1 short⟩
  | cons next more =>
      have long := h.1
      omega

theorem NamesAt.reads_short {listed others : List Bee}
    (h : NamesAt m (page :: more) (listed ++ others)) (short : listed.length < 14)
    (stop : ∀ b ∈ others.head?, ¬ b.Named) : Reads m [page] listed := by
  have inside : ∀ i < listed.length, i < (listed ++ others).length := by
    intro i hi
    rw [List.length_append]
    omega
  refine ⟨by omega, fun i hi => ?_, fun _ => ?_, fun full => by omega⟩
  · have holds := h.reads.slot (inside i hi) (by omega)
    rwa [List.getElem_append_left hi] at holds
  · cases others with
    | nil =>
        rw [List.append_nil] at h
        exact (h.reads.stop short).2
    | cons b others =>
        have holds := h.reads.slot (i := listed.length) (by simp) short
        simp only [List.getElem_append_right (Nat.le_refl _), Nat.sub_self,
          List.getElem_cons_zero] at holds
        have empty := stop b rfl
        rw [holds.firstChar_eq]
        simp only [Bee.Named, not_not] at empty
        rw [empty]
        rfl

/-- A module without a name ends the walk in front of it. -/
theorem NamesAt.reads_named {listed others : List Bee}
    (h : NamesAt m (page :: more) (listed ++ others)) (named : ∀ b ∈ listed, b.Named)
    (stop : ∀ b ∈ others.head?, ¬ b.Named) :
    ∃ more', (∀ p ∈ more', p ∈ more) ∧ Reads m (page :: more') listed := by
  induction more generalizing page listed with
  | nil =>
      by_cases short : listed.length < 14
      · exact ⟨[], fun _ hp => hp, h.reads_short short stop⟩
      · obtain rfl : others = [] := by
          have total := h.1
          rw [List.length_append] at total
          exact List.eq_nil_of_length_eq_zero (by omega)
        rw [List.append_nil] at h
        exact ⟨[], fun _ hp => hp, h.reads⟩
  | cons next more ih =>
      by_cases short : listed.length < 14
      · exact ⟨[], fun _ hp => absurd hp List.not_mem_nil, h.reads_short short stop⟩
      · obtain ⟨_, slots, link, hne, tail⟩ := h
        rw [List.drop_append_of_le_length (by omega)] at tail
        rw [List.take_append_of_le_length (by omega)] at slots
        obtain ⟨more', inside, reads⟩ := ih tail fun b hb => named b (List.mem_of_mem_drop hb)
        refine ⟨next :: more', fun p hp => ?_, by omega, slots, link, hne, reads⟩
        obtain rfl | hp := List.mem_cons.mp hp
        · exact List.mem_cons_self
        · exact List.mem_cons_of_mem _ (inside p hp)

end Reading

/-! ### `setupLookupArray` -/

/-- What `setupLookupArray` needs of the modules it meets. -/
structure Buildable (b : Bee) : Prop where
  named : b.Named
  nonneg : b.NonNegative

/-- The nodes of `listed` are built at the bump pointer and entered into the array from `depth`
on, and nothing else is changed. -/
structure Built (c : Core) (depth : Nat) (listed : List Bee) (m : Mem) (f : Nat → Nat) : Prop where
  nodes : NodesAt m f c.irt depth c.memory listed
  written : WritesWithin c.mem m c.memory (nodesSize listed)
  array : ∀ j, (j < depth ∨ depth + listed.length ≤ j) → f j = c.idNodes j

section Building

variable {c : Core} {depth : Nat} {xs ys : List Bee} {m m₁ : Mem} {f f₁ : Nat → Nat} {b : Bee}

theorem Built.nil (c : Core) (depth : Nat) : Built c depth [] c.mem c.idNodes :=
  ⟨trivial, WritesWithin.refl _ _ _, fun _ _ => rfl⟩

theorem Built.single (filled : Filled m c.irt b c.memory)
    (written : WritesWithin c.mem m c.memory b.nodeSize) :
    Built c depth [b] m (Function.update c.idNodes depth c.memory) := by
  refine ⟨⟨Function.update_self .., filled, trivial⟩, ?_, fun j hj => ?_⟩
  · rw [nodesSize_cons, nodesSize_nil, Nat.add_zero]
    exact written
  · rw [List.length_singleton] at hj
    exact Function.update_of_ne (by omega) ..

/-- Nodes that are built behind others leave these as they are. -/
theorem Built.append (first : Built c depth xs m₁ f₁)
    (second : Built { c with mem := m₁, idNodes := f₁, memory := c.memory + nodesSize xs }
      (depth + xs.length) ys m f)
    (fits : c.memory + nodesSize (xs ++ ys) < 2 ^ 32) : Built c depth (xs ++ ys) m f := by
  rw [nodesSize_append] at fits
  have written := second.written
  have array := second.array
  simp only at written array
  refine ⟨?_, ?_, fun j hj => ?_⟩
  · rw [nodesAt_append]
    refine ⟨first.nodes.agree (written.agreeOn (by omega)) ?_ (by omega), second.nodes⟩
    exact fun j _ hi => array j (.inl hi)
  · rw [nodesSize_append]
    exact (first.written.mono (by omega) (by omega)).trans (written.mono (by omega) (by omega))
  · rw [List.length_append] at hj
    rw [array j (by omega), first.array j (by omega)]

end Building

section Setup

variable {page0 : Nat} {rest : List Nat} {bees : List Bee} {c : Core}

/-- One round of the loop, in a loaded registry. -/
theorem Loaded.setupNode (h : Loaded page0 rest bees c) (index : Nat) {page i : Nat} {b : Bee}
    (hpage : page ∈ page0 :: rest) (hb : b ∈ bees) (hi : i < 14) (holds : Holds c.mem page i b)
    (build : Buildable b) (fits : c.memory + b.nodeSize < 2 ^ 32) :
    ∃ m, Queen.setupNode c page i index =
        { c with mem := m
                 idNodes := Function.update c.idNodes index c.memory
                 memory := c.memory + b.nodeSize } ∧
      Filled m c.irt b c.memory ∧ WritesWithin c.mem m c.memory b.nodeSize := by
  have below := h.pagesBelow page hpage
  refine setupNode_spec index holds (h.data b hb) ?_ (h.dataBelow b hb) build.nonneg fits
  simp only [slot]
  omega

theorem setupSlots_spec (depth : Nat) (h : Loaded page0 rest bees c) {page k i : Nat}
    {here : List Bee}
    (hpage : page ∈ page0 :: rest) (hhere : ∀ b ∈ here, b ∈ bees) (hlen : here.length ≤ 14)
    (slots : Slots c.mem page here)
    (stop : here.length < 14 → firstChar c.mem page here.length = 0)
    (build : ∀ b ∈ here, Buildable b) (hi : i ≤ here.length) (hk : i + k = 14)
    (fits : c.memory + nodesSize (here.drop i) < 2 ^ 32) :
    ∃ m f, setupSlots page depth k i c =
        (here.length,
          { c with mem := m, idNodes := f, memory := c.memory + nodesSize (here.drop i) },
          seen page i (here.length - i) ++
            if here.length < 14 then [.probe page here.length] else []) ∧
      Built c (depth + i) (here.drop i) m f := by
  induction k generalizing i c with
  | zero =>
      obtain rfl : i = here.length := by omega
      refine ⟨c.mem, c.idNodes, ?_, ?_⟩
      · simp [setupSlots, seen, show ¬ here.length < 14 by omega]
      · rw [List.drop_length]
        exact .nil c _
  | succ k ih =>
      by_cases hlt : i < here.length
      · have hb : here[i] ∈ bees := hhere _ (List.getElem_mem hlt)
        have holds := slots i hlt
        have cons : here.drop i = [here[i]] ++ here.drop (i + 1) := List.drop_eq_getElem_cons hlt
        have all := fits
        rw [List.drop_eq_getElem_cons hlt, nodesSize_cons] at fits
        have buildable := build _ (List.getElem_mem hlt)
        obtain ⟨m₁, run, filled, written⟩ := h.setupNode (depth + i) hpage hb (by omega) holds
          buildable (by omega)
        have kept : ∀ x < c.memory, m₁ x = c.mem x := fun x hx => written x (.inl hx)
        have below := h.pagesBelow page hpage
        have samePage : AgreeOn c.mem m₁ page 512 := fun x _ hx => kept x (by omega)
        have h₁ : Loaded page0 rest bees { c with
            mem := m₁
            idNodes := Function.update c.idNodes (depth + i) c.memory
            memory := c.memory + here[i].nodeSize } :=
          h.above kept (Nat.le_add_right _ _) (by simp only; omega)
        have fitsPage : page + 512 ≤ 2 ^ 32 := by omega
        obtain ⟨m, f, rec, tail⟩ := ih (i := i + 1) h₁ (slots.agree_page hlen samePage fitsPage)
          (fun hs => (firstChar_agree samePage fitsPage hs).trans (stop hs))
          (by omega) (by omega) (by simpa only [Nat.add_assoc] using fits)
        simp only at rec
        refine ⟨m, f, ?_, ?_⟩
        · have more : here.length - i = here.length - (i + 1) + 1 := by omega
          rw [setupSlots, if_neg (holds.firstChar_ne buildable.named), run]
          simp only [rec, List.drop_eq_getElem_cons hlt, nodesSize_cons, more, seen, Nat.add_assoc,
            List.cons_append]
        · have one : nodesSize [here[i]] = here[i].nodeSize := Nat.add_zero _
          rw [cons] at all ⊢
          refine (Built.single filled written).append ?_ all
          rw [one]
          exact tail
      · obtain rfl : i = here.length := by omega
        have short : here.length < 14 := by omega
        refine ⟨c.mem, c.idNodes, ?_, ?_⟩
        · simp [setupSlots, seen, if_pos short, stop short]
        · rw [List.drop_length]
          exact .nil c _

/-- On the last page the loop ends, at a free slot or at the link. -/
theorem setupPages_last (depth : Nat) (h : Loaded page0 rest bees c) {page : Nat}
    {listed : List Bee} (hpage : page ∈ page0 :: rest) (hlisted : ∀ b ∈ listed, b ∈ bees)
    (reads : Reads c.mem [page] listed) (build : ∀ b ∈ listed, Buildable b)
    (fits : c.memory + nodesSize listed < 2 ^ 32) :
    ∃ m f, (∀ fuel > 0, setupLookupArray fuel c page depth =
        .ok ({ c with mem := m, idNodes := f, memory := c.memory + nodesSize listed },
          walk [page] listed.length)) ∧
      Built c depth listed m f := by
  obtain ⟨hlen, slots, stop, last⟩ := reads
  obtain ⟨m, f, run, built⟩ := setupSlots_spec depth h hpage hlisted
    hlen slots stop build (Nat.zero_le _) (Nat.zero_add 14) fits
  rw [List.drop_zero] at run built
  refine ⟨m, f, fun fuel hfuel => ?_, built⟩
  obtain ⟨fuel, rfl⟩ : ∃ k, fuel = k + 1 := ⟨fuel - 1, by omega⟩
  rw [setupLookupArray]
  simp only [run, Nat.sub_zero]
  by_cases short : listed.length < 14
  · simp [walk, lastEvent, short]
  · have below := h.pagesBelow page hpage
    have link : nextPage m page = 0 :=
      (built.written.load (by omega) (by omega)).trans (last (by omega))
    simp [walk, lastEvent, short, link]

/-- From any page on, `setupLookupArray` builds the nodes of the modules read there, and
returns with one unit of fuel for each page. -/
theorem setupPages_spec (depth : Nat) (h : Loaded page0 rest bees c) {page : Nat} {more : List Nat}
    {listed : List Bee} (hpages : ∀ p ∈ page :: more, p ∈ page0 :: rest)
    (hlisted : ∀ b ∈ listed, b ∈ bees) (reads : Reads c.mem (page :: more) listed)
    (build : ∀ b ∈ listed, Buildable b) (fits : c.memory + nodesSize listed < 2 ^ 32) :
    ∃ m f, (∀ fuel, more.length < fuel → setupLookupArray fuel c page depth =
        .ok ({ c with mem := m, idNodes := f, memory := c.memory + nodesSize listed },
          walk (page :: more) listed.length)) ∧
      Built c depth listed m f := by
  induction more generalizing page depth listed c with
  | nil =>
      exact setupPages_last depth h (hpages page List.mem_cons_self) hlisted reads build fits
  | cons next more ih =>
      obtain ⟨hlen, slots, hnext, hne, tail⟩ := reads
      have hpage := hpages page List.mem_cons_self
      have below := h.pagesBelow page hpage
      have htake : (listed.take 14).length = 14 := by
        rw [List.length_take]
        omega
      have hdrop : (listed.drop 14).length = listed.length - 14 := List.length_drop
      have size : nodesSize listed = nodesSize (listed.take 14) + nodesSize (listed.drop 14) := by
        rw [← nodesSize_append, List.take_append_drop]
      obtain ⟨m₁, f₁, run, built⟩ := setupSlots_spec depth h hpage
        (fun b hb => hlisted b (List.mem_of_mem_take hb)) (Nat.le_of_eq htake) slots
        (fun short => absurd short (by omega)) (fun b hb => build b (List.mem_of_mem_take hb))
        (Nat.zero_le _) (Nat.zero_add 14) (by rw [List.drop_zero]; omega)
      rw [List.drop_zero] at run built
      rw [htake] at run
      have kept : ∀ x < c.memory, m₁ x = c.mem x := fun x hx => built.written x (.inl hx)
      have h₁ : Loaded page0 rest bees { c with
          mem := m₁, idNodes := f₁, memory := c.memory + nodesSize (listed.take 14) } :=
        h.above kept (Nat.le_add_right _ _) (by simp only; omega)
      have hmore : ∀ p ∈ next :: more, p ∈ page0 :: rest :=
        fun p hp => hpages p (List.mem_cons_of_mem _ hp)
      have tail₁ : Reads m₁ (next :: more) (listed.drop 14) := by
        refine tail.agree (fun p hp x _ hx => ?_) (fun p hp => ?_)
        · have := h.pagesBelow p (hmore p hp)
          exact kept x (by omega)
        · have := h.pagesBelow p (hmore p hp)
          omega
      have link : nextPage m₁ page = next :=
        (built.written.load (by omega) (by omega)).trans hnext
      obtain ⟨m, f, rec, built'⟩ := ih (depth + 14) h₁ hmore
        (fun b hb => hlisted b (List.mem_of_mem_drop hb)) tail₁
        (fun b hb => build b (List.mem_of_mem_drop hb)) (by simp only; omega)
      simp only at rec
      rw [hdrop] at rec
      refine ⟨m, f, fun fuel hfuel => ?_, ?_⟩
      · obtain ⟨fuel, rfl⟩ : ∃ k, fuel = k + 1 := ⟨fuel - 1, by omega⟩
        have rest := rec fuel (by simpa using hfuel)
        rw [setupLookupArray]
        simp only [run, Nat.sub_zero, Nat.lt_irrefl, if_false, List.append_nil, link, if_neg hne,
          rest, walk, size, Nat.add_assoc]
        rfl
      · rw [← List.take_append_drop 14 listed] at fits ⊢
        refine built.append ?_ fits
        rw [htake]
        exact built'

/-- What `setupLookupArray(page0, 0)` leaves, where a walk reads the modules `bees` in the
pages `page0 :: rest`. -/
structure SetUp (page0 : Nat) (rest : List Nat) (bees : List Bee) (c c₁ : Core) : Prop where
  run : ∀ fuel, bees.length < fuel →
    setupLookupArray fuel c page0 0 = .ok (c₁, walk (page0 :: rest) bees.length)
  nodes : NodesAt c₁.mem c₁.idNodes c.irt 0 c.memory bees
  written : WritesWithin c.mem c₁.mem c.memory (nodesSize bees)
  memory : c₁.memory = c.memory + nodesSize bees
  irt : c₁.irt = c.irt
  allocF : c₁.allocF = c.allocF

/-- The nodes are those of the modules in front of the first empty name, and the array behind
them is as before. -/
theorem Loaded.setUp_reads (h : Loaded page0 rest bees c) {more : List Nat} {listed : List Bee}
    (hmore : ∀ p ∈ more, p ∈ rest) (hlisted : ∀ b ∈ listed, b ∈ bees)
    (reads : Reads c.mem (page0 :: more) listed) (build : ∀ b ∈ listed, Buildable b)
    (fits : c.memory + nodesSize listed < 2 ^ 32) :
    ∃ c₁, SetUp page0 more listed c c₁ ∧ ∀ j, listed.length ≤ j → c₁.idNodes j = c.idNodes j := by
  obtain ⟨m, f, run, built⟩ :=
    setupPages_spec 0 h (fun _ hp => List.cons_subset_cons page0 (fun p => hmore p) hp) hlisted
      reads build fits
  have few := reads.length_le
  exact ⟨{ c with mem := m, idNodes := f, memory := c.memory + nodesSize listed },
    ⟨fun fuel hfuel => run fuel (by omega), built.nodes, built.written, rfl, rfl, rfl⟩,
    fun j hj => built.array j (.inr (by omega))⟩

theorem Loaded.setUp (h : Loaded page0 rest bees c) (build : ∀ b ∈ bees, Buildable b)
    (fits : c.memory + nodesSize bees < 2 ^ 32) : ∃ c₁, SetUp page0 rest bees c c₁ := by
  obtain ⟨c₁, setUp, _⟩ :=
    h.setUp_reads (fun _ hp => hp) (fun _ hb => hb) h.names.reads build fits
  exact ⟨c₁, setUp⟩

end Setup

end HiveRK.Queen
