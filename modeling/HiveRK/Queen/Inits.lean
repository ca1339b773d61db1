import HiveRK.BucketSort.Basic
import HiveRK.Queen.Agreement

/-!
# The order of initialisation

`run_inits` passes over the registry once for each priority, which sorts the modules. The
`CoreData` of a call is found by the module's id, so the ids in the nodes have to last
until every init function was called.
-/

namespace HiveRK.Queen

open Machine BucketSort

section Passes

variable {run : Call → Core → Core} {bees : List Bee} {P : Core → Prop} {Q : Bee → Nat → Prop}

/-- The passes from priority `s` on call the modules bucket by bucket. -/
theorem initPasses_spec {page0 : Nat} {rest : List Nat} (kept : ∀ c call, P c → P (run call c))
    (reads : ∀ c, P c → Reads c.mem (page0 :: rest) bees) (named : ∀ b ∈ bees, b.Named)
    {fuel : Nat} (hfuel : bees.length < fuel) {k s : Nat} {c : Core} (h : P c) :
    ∃ c' calls, initPasses run fuel page0 k s c = .ok (c', calls) ∧ P c' ∧
      (Findable bees P Q → List.Forall₂ (InitCallOf Q) (buckets Bee.priority k s bees) calls) := by
  induction k generalizing s c with
  | zero => exact ⟨c, [], rfl, h, fun _ => .nil⟩
  | succ k ih =>
      obtain ⟨c₁, calls, pass, h₁, bucket⟩ :=
        initPass_spec (Q := Q) (s := s) kept reads named (Nat.zero_le _) (by decide) h
          (show bees.length - 0 < fuel by omega)
      obtain ⟨c', calls', later, h', tail⟩ := ih (s := s + 1) h₁
      refine ⟨c', calls ++ calls', ?_, h', fun findable => ?_⟩
      · rw [initPasses, pass]
        change (do
          let rest ← initPasses run fuel page0 k (s + 1) c₁
          pure (rest.1, calls ++ rest.2)) = _
        rw [later]
        rfl
      · rw [buckets]
        exact List.rel_append (bucket findable) (tail findable)

end Passes

/-- The modules with their numbers, stably sorted by priority. -/
def initOrder (bees : List Bee) : List (Bee × Nat) :=
  bees.zipIdx.mergeSort fun x y => x.1.priority ≤ y.1.priority

section Order

variable {bees : List Bee}

theorem buckets_zipIdx {k : Nat} (bounded : ∀ b ∈ bees, b.priority < k) :
    buckets (fun x => x.1.priority) k 0 bees.zipIdx = initOrder bees :=
  buckets_eq_mergeSort fun x hx => bounded x.1 (List.fst_mem_of_mem_zipIdx hx)

theorem initOrder_map_fst (bytes : ∀ b ∈ bees, b.priority < 256) :
    (initOrder bees).map Prod.fst = buckets Bee.priority 256 0 bees := by
  rw [← buckets_zipIdx bytes, buckets_map Prod.fst, List.zipIdx_map_fst]

theorem initOrder_pairwise (bytes : ∀ b ∈ bees, b.priority < 256) :
    (initOrder bees).Pairwise fun x y =>
      x.1.priority < y.1.priority ∨ x.1.priority = y.1.priority ∧ x.2 < y.2 := by
  have numbered : bees.zipIdx.Pairwise fun x y => x.2 < y.2 := by
    refine List.pairwise_iff_getElem.mpr fun i j hi hj hij => ?_
    simpa using hij
  rw [← buckets_zipIdx bytes]
  exact pairwise_buckets numbered

end Order

/-- What init functions have to leave alone: the registry, the lookup array, and the ids in
the nodes. -/
structure Undisturbed (pages : List Nat) (bees : List Bee) (c s : Core) : Prop where
  names : SamePages pages c.mem s.mem
  data : ∀ b ∈ bees, AgreeOn c.mem s.mem b.data b.pageSize
  array : ∀ j < bees.length, s.idNodes j = c.idNodes j
  ids : ∀ j < bees.length, AgreeOn c.mem s.mem (c.idNodes j) 4

theorem Undisturbed.refl (pages : List Nat) (bees : List Bee) (c : Core) :
    Undisturbed pages bees c c :=
  ⟨fun _ _ => AgreeOn.refl _ _ _, fun _ _ => AgreeOn.refl _ _ _, fun _ _ => rfl,
    fun _ _ => AgreeOn.refl _ _ _⟩

section Results

variable {page0 : Nat} {rest : List Nat} {bees : List Bee} {c c₁ s : Core}

theorem DataPage.priority_lt {m : Mem} {b : Bee} (h : DataPage m b) : b.priority < 256 := by
  rw [← h.priority]
  exact load_lt 1 m (b.data + 8)

/-- As long as the ids last, the `CoreData` found for a module is that of its own node. -/
theorem SetUp.findable (setUp : SetUp page0 rest bees c c₁) (loaded : Loaded page0 rest bees c₁)
    (few : bees.length ≤ MAX_BEES) (distinct : bees.Pairwise fun b b' => b.id ≠ b'.id) :
    Findable bees (Undisturbed (page0 :: rest) bees c₁) fun b data =>
      ∀ (j : Nat) (h : j < bees.length), bees[j] = b → data = coreData (c₁.idNodes j) := by
  have top := loaded.fits
  constructor
  · intro s same b hb
    have below := loaded.dataBelow b hb
    exact (loaded.data b hb).agree (same.data b hb) (by omega)
  · intro s same b _ j hj hjb
    subst hjb
    have ids : ∀ (k : Nat) (h : k < bees.length), nodeID s.mem (s.idNodes k) = bees[k].id := by
      intro k hk
      have inside := (setUp.inside hk).2
      rw [same.array k hk, ← (setUp.fresh hk).id]
      refine (same.ids k hk).load ?_ (Nat.le_refl _) (Nat.le_refl _)
      simp only [Bee.nodeSize] at inside
      omega
    have index : u32 (lookupID s bees[j].id + 2 ^ 32 - 1) = j := by
      rw [lookupID_eq ids few distinct hj, u32]
      simp only [MAX_BEES] at few
      omega
    rw [index, same.array j hj]

/-- The calls of `run_inits`, by init functions that leave the core's records alone. -/
theorem SetUp.runInits_eq (setUp : SetUp page0 rest bees c c₁) (loaded : Loaded page0 rest bees c₁)
    (named : ∀ b ∈ bees, b.Named) (few : bees.length ≤ MAX_BEES)
    (distinct : bees.Pairwise fun b b' => b.id ≠ b'.id) {run : Call → Core → Core}
    (kept : ∀ s call, Undisturbed (page0 :: rest) bees c₁ s →
      Undisturbed (page0 :: rest) bees c₁ (run call s)) {fuel : Nat} (hfuel : bees.length < fuel) :
    ∃ s, runInits run fuel c₁ page0 =
      .ok (s, (initOrder bees).map fun x =>
        ⟨u32 (x.1.base + x.1.init), [coreData (c₁.idNodes x.2)]⟩) := by
  have bytes : ∀ b ∈ bees, b.priority < 256 := fun b hb => (loaded.data b hb).priority_lt
  have reads : ∀ s, Undisturbed (page0 :: rest) bees c₁ s → Reads s.mem (page0 :: rest) bees := by
    intro s same
    refine loaded.names.reads.agree same.names fun p hp => ?_
    have below := loaded.pagesBelow p hp
    have top := loaded.fits
    omega
  obtain ⟨s, calls, ran, _, order⟩ :=
    initPasses_spec (k := 256) (s := 0) (fun s call => kept s call)
    reads named hfuel (Undisturbed.refl (page0 :: rest) bees c₁)
  have matched := order (setUp.findable loaded few distinct)
  rw [← initOrder_map_fst bytes, List.forall₂_map_left_iff] at matched
  have numbered : ∀ x ∈ initOrder bees, ∃ h : x.2 < bees.length, bees[x.2] = x.1 := by
    intro x hx
    obtain ⟨h, heq⟩ := List.mem_zipIdx' (List.mem_mergeSort.mp hx)
    exact ⟨h, heq.symm⟩
  have each : List.Forall₂ (fun x call =>
      (⟨u32 (x.1.base + x.1.init), [coreData (c₁.idNodes x.2)]⟩ : Call) = call)
      (initOrder bees) calls := by
    refine ((List.forall₂_and_left _ _).mpr ⟨numbered, matched⟩).imp ?_
    rintro x ⟨target, args⟩ ⟨⟨hx, heq⟩, rfl, data, rfl, found⟩
    rw [found x.2 hx heq]
  have exactly := List.forall₂_eq_eq_eq ▸ List.forall₂_map_left_iff.mpr each
  exact ⟨s, by rw [runInits, ran, exactly]⟩

/-- `run_inits` calls every init function once, in the stable order of the priorities, and
each with the `CoreData` of the module's own node. -/
theorem run_inits_order (registered : Registered page0 bees c) (few : bees.length ≤ MAX_BEES)
    (named : ∀ b ∈ bees, b.Named) (distinct : bees.Pairwise fun b b' => b.id ≠ b'.id)
    (nonneg : ∀ b ∈ bees, b.NonNegative) (fits : c.memory + nodesSize bees < 2 ^ 32) :
    (initOrder bees).Perm bees.zipIdx ∧
    ((initOrder bees).Pairwise fun x y =>
      x.1.priority < y.1.priority ∨ x.1.priority = y.1.priority ∧ x.2 < y.2) ∧
    ∃ rest c₁ events, NamesAt c.mem (page0 :: rest) bees ∧
      (∀ fuel, bees.length < fuel → setupLookupArray fuel c page0 0 = .ok (c₁, events)) ∧
      (∀ (j : Nat) (h : j < bees.length), Fresh c₁.mem c.irt bees[j] (c₁.idNodes j)) ∧
      ∀ run : Call → Core → Core,
        (∀ s call, Undisturbed (page0 :: rest) bees c₁ s →
          Undisturbed (page0 :: rest) bees c₁ (run call s)) →
        ∀ fuel, bees.length < fuel → ∃ s, runInits run fuel c₁ page0 =
          .ok (s, (initOrder bees).map fun x =>
            ⟨u32 (x.1.base + x.1.init), [coreData (c₁.idNodes x.2)]⟩) := by
  obtain ⟨rest, loaded⟩ := registered.loaded
  obtain ⟨c₁, setUp⟩ := loaded.setUp (fun b hb => ⟨named b hb, nonneg b hb⟩) fits
  have bytes : ∀ b ∈ bees, b.priority < 256 := fun b hb => (loaded.data b hb).priority_lt
  have loaded₁ : Loaded page0 rest bees c₁ :=
    loaded.above (fun x hx => setUp.written x (.inl hx)) (setUp.memory ▸ Nat.le_add_right _ _)
      (setUp.memory ▸ fits)
  exact ⟨List.mergeSort_perm _ _, initOrder_pairwise bytes, rest, c₁, _, loaded.names, setUp.run,
    fun j hj => setUp.fresh hj,
    fun run kept fuel hfuel => setUp.runInits_eq loaded₁ named few distinct kept hfuel⟩

end Results

/-- `beeThree` with the priority 9. -/
def beeLate : Bee := { beeThree with priority := 9 }

/-- `beeFive` with the priority 2. -/
def beeEarly : Bee := { beeFive with priority := 2 }

/-- Another module with the priority 2. -/
def beeEight : Bee := { beeFive with data := 0x4C00, base := 0x4A00, id := 8, priority := 2 }

/-- The data page of `beeEight`. -/
def beeEightPage : Mem := fun x =>
  ([0x00, 0x4A, 0, 0, 8, 0, 0, 0, 2, 0, 0, 0, 0, 0, 0x40, 0x4A, 0, 0] : List Byte).getD
    (x - 0x4C00) 0

/-- `beeLate` and `beeEarly` are loaded. -/
def coreLateEarly : Core :=
  ((prepare emptyCore).extend 0x4000 0 (Function.update beeThreePage 0x4408 9) beeLate).extend
    0x4000 1 (Function.update beeFivePage 0x4808 2) beeEarly

def coreOrdered : Core := coreLateEarly.extend 0x4000 2 beeEightPage beeEight

theorem registered_ordered : Registered 0x4000 [beeLate, beeEarly, beeEight] coreOrdered := by
  have late : DataPage (Function.update beeThreePage 0x4408 9) beeLate := by
    constructor <;> decide
  have early : DataPage (Function.update beeFivePage 0x4808 2) beeEarly := by
    constructor <;> decide
  have eight : DataPage beeEightPage beeEight := by constructor <;> decide
  have first := registered_none.extend (by decide) late rfl (by decide) (by decide) (by decide)
  have second := first.extend (by decide) early rfl (by decide) (by decide) (by decide)
  exact second.extend (by decide) eight rfl (by decide) (by decide) (by decide)

/-- The first module of the disk is initialised last, the others in their order on the disk. -/
theorem run_inits_order_late : ∃ c₁ events s,
    setupLookupArray 4 coreOrdered 0x4000 0 = .ok (c₁, events) ∧
      runInits (fun _ s => s) 4 c₁ 0x4000 =
        .ok (s, [⟨0x4640, [coreData (c₁.idNodes 1)]⟩, ⟨0x4A40, [coreData (c₁.idNodes 2)]⟩,
          ⟨0x4240, [coreData (c₁.idNodes 0)]⟩]) := by
  obtain ⟨_, _, rest, c₁, events, _, built, _, order⟩ := run_inits_order registered_ordered
    (by decide) (by decide) (by decide) (by decide) (by decide)
  obtain ⟨s, ran⟩ := order (fun _ s => s) (fun _ _ same => same) 4 (by decide)
  rw [← buckets_zipIdx (k := 10) (by decide)] at ran
  exact ⟨c₁, events, s, built 4 (by decide), ran⟩

/-- A module whose exports have the ids -15 and -7. For the node behind that of `beeThree`
these entries are the ids of the two nodes, and they become 5 and 3. -/
def beeSwapping : Bee := { beeFive with
  exports := [⟨0xFFFFFFF1, 0xFFFFBA05⟩, ⟨0xFFFFFFF9, 0xFFFFBA03⟩] }

/-- The data page of `beeSwapping`. -/
def beeSwappingPage : Mem := fun x =>
  ([0x00, 0x46, 0, 0, 5, 0, 0, 0, 0, 0, 2, 0, 0, 0, 0x40, 0x46, 0, 0,
    0xF1, 0xFF, 0xFF, 0xFF, 5, 0, 0, 0, 0xF9, 0xFF, 0xFF, 0xFF, 3, 0, 0, 0] : List Byte).getD
    (x - 0x4800) 0

theorem beeSwappingPage_dataPage : DataPage beeSwappingPage beeSwapping := by
  constructor <;> decide

/-- `beeThree` and `beeSwapping` are loaded. -/
def coreSwapping : Core := coreThree.extend 0x4000 1 beeSwappingPage beeSwapping

theorem registered_swapping : Registered 0x4000 [beeThree, beeSwapping] coreSwapping :=
  registered_three.extend (by decide) beeSwappingPage_dataPage rfl (by decide) (by decide)
    (by decide)

/-- The init calls, and the nodes of the first two modules, when `run` is what init
functions do. -/
def initCalls (run : Call → Core → Core) (c : Core) : Exec (List Call × Nat × Nat) := do
  let built ← setupLookupArray 3 c 0x4000 0
  let done ← runInits run 3 built.1 0x4000
  pure (done.2, built.1.idNodes 0, built.1.idNodes 1)

section Idle

variable {run : Call → Core → Core} {c : Core} {page0 page n i s fuel : Nat}

/-- On a registry of one page, a pass for a priority that no module has does nothing. -/
theorem initPass_idle (named : ∀ j < n, firstChar c.mem page j ≠ 0)
    (others : ∀ j < n, priority c.mem (slotData c.mem page j) ≠ s)
    (stop : firstChar c.mem page n = 0) (short : n < 14) (hi : i ≤ n) (hfuel : n - i < fuel) :
    ∃ events, initPass run s fuel c page i = .ok (c, [], events) := by
  induction fuel generalizing i with
  | zero => omega
  | succ fuel ih =>
      rw [initPass]
      by_cases last : i = n
      · rw [last, if_pos stop]
        exact ⟨_, rfl⟩
      · obtain ⟨events, rest⟩ := ih (i := i + 1) (by omega) (by omega)
        rw [if_neg (named i (by omega))]
        simp only [if_neg (others i (by omega)), if_neg (show i + 1 ≠ 14 by omega), rest]
        exact ⟨_, rfl⟩

theorem initPasses_idle (k : Nat)
    (idle : ∀ t, s ≤ t → ∃ events, initPass run t fuel c page0 0 = .ok (c, [], events)) :
    initPasses run fuel page0 k s c = .ok (c, []) := by
  induction k generalizing s with
  | zero => rfl
  | succ k ih =>
      obtain ⟨events, pass⟩ := idle s (Nat.le_refl s)
      rw [initPasses, pass]
      change (do
        let rest ← initPasses run fuel page0 k (s + 1) c
        pure (rest.1, [] ++ rest.2)) = _
      rw [ih fun t lo => idle t (by omega)]
      rfl

theorem runInits_first {c' : Core} {calls : List Call} {events : List Event}
    (first : initPass run 0 fuel c page0 0 = .ok (c', calls, events))
    (idle : ∀ t, 1 ≤ t → ∃ events, initPass run t fuel c' page0 0 = .ok (c', [], events)) :
    runInits run fuel c page0 = .ok (c', calls) := by
  change initPasses run fuel page0 (255 + 1) 0 c = _
  rw [initPasses, first]
  change (do
    let rest ← initPasses run fuel page0 255 1 c'
    pure (rest.1, calls ++ rest.2)) = _
  rw [initPasses_idle 255 idle]
  exact congrArg (fun calls => Except.ok (c', calls)) (List.append_nil calls)

/-- Two modules with priority 0 are initialised in the first pass. -/
theorem initCalls_first {calls : List Call} {x y a b : Nat}
    (first : (do
      let built ← setupLookupArray 3 c 0x4000 0
      let pass ← initPass run 0 3 built.1 0x4000 0
      let m := pass.1.mem
      pure (pass.2.1, built.1.idNodes 0, built.1.idNodes 1,
        (List.range 3).map (firstChar m 0x4000),
        (List.range 2).map fun j => priority m (slotData m 0x4000 j))) =
      Except.ok (calls, a, b, [x + 1, y + 1, 0], [0, 0])) :
    initCalls run c = .ok (calls, a, b) := by
  cases setup : setupLookupArray 3 c 0x4000 0 with
  | error e =>
      rw [setup] at first
      cases first
  | ok built =>
      cases ran : initPass run 0 3 built.1 0x4000 0 with
      | error e =>
          simp only [setup, ran, bind, Except.bind] at first
          cases first
      | ok pass =>
          simp only [setup, ran, bind, Except.bind, pure, Except.pure, Except.ok.injEq,
            Prod.mk.injEq] at first
          obtain ⟨rfl, rfl, rfl, names, priorities⟩ := first
          have char : firstChar pass.1.mem 0x4000 0 = x + 1 ∧
              firstChar pass.1.mem 0x4000 1 = y + 1 ∧ firstChar pass.1.mem 0x4000 2 = 0 := by
            simpa [List.range_succ] using names
          have zero : priority pass.1.mem (slotData pass.1.mem 0x4000 0) = 0 ∧
              priority pass.1.mem (slotData pass.1.mem 0x4000 1) = 0 := by
            simpa [List.range_succ] using priorities
          have idle : ∀ t, 1 ≤ t →
              ∃ events, initPass run t 3 pass.1 0x4000 0 = .ok (pass.1, [], events) := by
            intro t lo
            refine initPass_idle (n := 2) (fun j hj => ?_) (fun j hj => ?_) char.2.2 (by decide)
              (by decide) (by decide)
            · obtain rfl | rfl : j = 0 ∨ j = 1 := by omega
              · omega
              · omega
            · obtain rfl | rfl : j = 0 ∨ j = 1 := by omega
              · omega
              · omega
          simp only [initCalls, setup, runInits_first ran idle, bind, Except.bind, pure,
            Except.pure]

end Idle

/-- Modules receive the `CoreData` of another one: once because exports with negative ids
changed ids in the nodes, and once because an init function did. -/
theorem run_inits_confuses :
    Registered 0x4000 [beeThree, beeSwapping] coreSwapping ∧
      initCalls (fun _ s => s) coreSwapping =
        .ok ([⟨0x4240, [coreData 0x4A20]⟩, ⟨0x4640, [coreData 0x4A00]⟩], 0x4A00, 0x4A20) ∧
    Registered 0x4000 [beeThree, beeFive] coreThreeFive ∧
      initCalls (fun _ s => { s with mem := store32 s.mem (s.idNodes 0) 5 }) coreThreeFive =
        .ok ([⟨0x4240, [coreData 0x4A00]⟩, ⟨0x4640, [coreData 0x4A00]⟩], 0x4A00, 0x4A20) := by
  refine ⟨registered_swapping, ?_, registered_three_five, ?_⟩
  · exact initCalls_first (x := 0x60) (y := 0x61) (by decide +kernel)
  · exact initCalls_first (x := 0x60) (y := 0x61) (by decide +kernel)

end HiveRK.Queen
