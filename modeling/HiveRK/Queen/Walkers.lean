import Mathlib.Data.List.Forall2
import Mathlib.Data.List.Nodup
import HiveRK.Queen.Setup

/-!
# The walkers of the registry

Three loops walk the names pages: the recursion of `setupLookupArray`, the inner loop of
`run_inits` and the loop of `list-bees`. Their tests at the end of a page differ, and yet
all three do exactly `walk`. `Tour` says what is good about that: every module is visited
once and in order, nothing unwritten is looked at, and no null link is followed.
-/

namespace HiveRK.Queen

open Machine

/-- The part of a walk from slot `i` of the first page on. -/
def walkFrom (page i n : Nat) : List Nat → List Event
  | [] => seen page i (n - i) ++ [lastEvent page n]
  | next :: more =>
      seen page i (14 - i) ++ .link page :: .follow next :: walk (next :: more) (n - 14)

theorem walkFrom_zero (page n : Nat) (more : List Nat) :
    walkFrom page 0 n more = walk (page :: more) n := by
  cases more <;> rfl

/-- One slot of the walk. -/
theorem walkFrom_step {page i n : Nat} {more : List Nat} (hi : i < n) (hpage : i < 14) :
    walkFrom page i n more = .probe page i :: .visit page i :: walkFrom page (i + 1) n more := by
  cases more with
  | nil =>
      rw [walkFrom, walkFrom, show n - i = n - (i + 1) + 1 by omega, seen]
      rfl
  | cons next more =>
      rw [walkFrom, walkFrom, show 14 - i = 14 - (i + 1) + 1 by omega, seen]
      rfl

/-- The walk of a list that ends in this page. -/
theorem walkFrom_stop {page n : Nat} (short : n < 14) :
    walkFrom page n n [] = [.probe page n] := by
  rw [walkFrom, Nat.sub_self, seen, lastEvent, if_pos short]
  rfl

/-- The walk of a list that ends with this page. -/
theorem walkFrom_full {page : Nat} : walkFrom page 14 14 [] = [.link page] := rfl

theorem walkFrom_next {page n next : Nat} {more : List Nat} :
    walkFrom page 14 n (next :: more) =
      .link page :: .follow next :: walkFrom next 0 (n - 14) more := by
  rw [walkFrom_zero]
  rfl

/-! ### `run_inits` -/

section Inits

variable {run : Call → Core → Core} {bees : List Bee} {P : Core → Prop} {Q : Bee → Nat → Prop}

/-- In the states with `P`, the data pages of the modules are in place, and the `CoreData`
found for a module satisfies `Q`. -/
structure Findable (bees : List Bee) (P : Core → Prop) (Q : Bee → Nat → Prop) : Prop where
  data : ∀ c, P c → ∀ b ∈ bees, DataPage c.mem b
  found : ∀ c, P c → ∀ b ∈ bees,
    Q b (coreData (c.idNodes (u32 (lookupID c b.id + 2 ^ 32 - 1))))

theorem Findable.drop (findable : Findable bees P Q) (k : Nat) : Findable (bees.drop k) P Q :=
  ⟨fun c h b hb => findable.data c h b (List.mem_of_mem_drop hb),
    fun c h b hb => findable.found c h b (List.mem_of_mem_drop hb)⟩

/-- The call of a module's init function. -/
def InitCallOf (Q : Bee → Nat → Prop) (b : Bee) (call : Call) : Prop :=
  call.target = u32 (b.base + b.init) ∧ ∃ data, call.args = [data] ∧ Q b data

/-- A slot adds the call of its module, if it has the priority, in front of the calls of the
rest. -/
theorem Findable.slot_calls {s page i : Nat} {listed : List Bee} {c : Core}
    (findable : Findable listed P Q) (h : P c) (hlt : i < listed.length)
    (holds : Holds c.mem page i listed[i]) (calls : List Call)
    (tail : List.Forall₂ (InitCallOf Q) ((listed.drop (i + 1)).filter fun b => b.priority = s)
      calls) :
    List.Forall₂ (InitCallOf Q) ((listed.drop i).filter fun b => b.priority = s)
      ((if priority c.mem (slotData c.mem page i) = s then [initCall c page i] else []) ++
        calls) := by
  have hb : listed[i] ∈ listed := List.getElem_mem hlt
  have data := findable.data c h _ hb
  have call : InitCallOf Q listed[i] (initCall c page i) := by
    refine ⟨?_, _, rfl, ?_⟩
    · simp only [initCall, holds.data, data.init]
    · simp only [holds.data, data.id]
      exact findable.found c h _ hb
  have hit : priority c.mem (slotData c.mem page i) = s ↔ listed[i].priority = s := by
    rw [holds.data, data.priority]
  rw [List.drop_eq_getElem_cons hlt]
  by_cases prio : listed[i].priority = s
  · rw [if_pos (hit.mpr prio), List.filter_cons_of_pos (by simpa using prio)]
    exact .cons call tail
  · rw [if_neg (mt hit.mp prio), List.filter_cons_of_neg (by simpa using prio)]
    exact tail

/-- If the called functions keep `P`, a pass from slot `i` of a page on looks at the slots as
`walkFrom` says, and calls the modules of that priority among the rest, in order. -/
theorem initPass_spec (kept : ∀ c call, P c → P (run call c)) {s fuel page i : Nat}
    {more : List Nat} {listed : List Bee} {c : Core}
    (reads : ∀ c, P c → Reads c.mem (page :: more) listed)
    (named : ∀ b ∈ listed, b.Named) (hi : i ≤ listed.length) (hpage : i < 14) (h : P c)
    (hfuel : listed.length - i < fuel) :
    ∃ c' calls, initPass run s fuel c page i =
        .ok (c', calls, walkFrom page i listed.length more) ∧ P c' ∧
      (Findable listed P Q →
        List.Forall₂ (InitCallOf Q) ((listed.drop i).filter fun b => b.priority = s) calls) := by
  induction fuel generalizing page i more listed c with
  | zero => omega
  | succ fuel ih =>
      by_cases hlt : i < listed.length
      · have holds := (reads c h).slot hlt hpage
        obtain ⟨c₁, hc₁, h₁⟩ : ∃ c₁, c₁ = (if priority c.mem (slotData c.mem page i) = s then
            run (initCall c page i) c else c) ∧ P c₁ := by
          refine ⟨_, rfl, ?_⟩
          split_ifs
          · exact kept c _ h
          · exact h
        rw [initPass, if_neg (holds.firstChar_ne (named _ (List.getElem_mem hlt)))]
        simp only [← hc₁]
        rw [walkFrom_step hlt hpage]
        by_cases last : i + 1 = 14
        · rw [if_pos last, last]
          cases more with
          | nil =>
              obtain ⟨hlen, _, _, link⟩ := reads c₁ h₁
              have full : listed.length = 14 := by omega
              refine ⟨c₁, _, by rw [if_pos (link full), full, walkFrom_full], h₁,
                fun findable => ?_⟩
              have none : listed.drop (i + 1) = [] := List.drop_eq_nil_of_le (by omega)
              have tail : List.Forall₂ (InitCallOf Q)
                  ((listed.drop (i + 1)).filter fun b => b.priority = s) [] := by
                rw [none]
                exact .nil
              have calls := findable.slot_calls h hlt holds [] tail
              rwa [List.append_nil] at calls
          | cons next more =>
              obtain ⟨hlen, _, link, hne, _⟩ := reads c₁ h₁
              have hdrop : (listed.drop 14).length = listed.length - 14 := List.length_drop
              obtain ⟨c', calls, rec, h', tail⟩ := @ih next 0 more (listed.drop 14) c₁
                (fun c h => (reads c h).2.2.2.2)
                (fun b hb => named b (List.mem_of_mem_drop hb)) (by omega) (by omega) h₁ (by omega)
              rw [hdrop] at rec
              refine ⟨c', _, ?_, h', fun findable => findable.slot_calls h hlt holds calls ?_⟩
              · rw [link, if_neg hne, rec, walkFrom_next]
                rfl
              · rw [last]
                simpa using tail (findable.drop 14)
        · rw [if_neg last]
          obtain ⟨c', calls, rec, h', tail⟩ := @ih page (i + 1) more listed c₁ reads named
            (by omega) (by omega) h₁ (by omega)
          exact ⟨c', _, by rw [rec]; rfl, h', fun findable =>
            findable.slot_calls h hlt holds calls (tail findable)⟩
      · obtain rfl : i = listed.length := by omega
        obtain ⟨rfl, stop⟩ := (reads c h).stop hpage
        refine ⟨c, [], ?_, h, ?_⟩
        · rw [initPass, if_pos stop, walkFrom_stop hpage]
        · intro _
          rw [List.drop_eq_nil_of_le (Nat.le_refl _)]
          exact .nil

end Inits

/-! ### `list-bees` -/

/-- Past the last slot the loop goes on at the next page. -/
theorem listBees_next {m : Mem} {page next fuel : Nat} (link : nextPage m page = next)
    (hne : next ≠ 0) :
    listBees m (fuel + 1) page 14 =
      (listBees m (fuel + 1) next 0).map fun events => .link page :: .follow next :: events := by
  have here : ¬ (14 = 14 ∧ nextPage m page = 0) := fun h => hne (link.symm.trans h.2)
  have there : ¬ (0 = 14 ∧ nextPage m next = 0) := by omega
  rw [listBees, if_neg here]
  conv_rhs => rw [listBees, if_neg there]
  simp only [link, if_true, show ¬ 0 = 14 by omega, if_false, List.nil_append]
  by_cases first : firstChar m next 0 = 0
  · rw [if_pos first, if_pos first]
    rfl
  · by_cases second : firstChar m next (0 + 1) = 0
    · rw [if_neg first, if_neg first, if_pos second, if_pos second]
      rfl
    · rw [if_neg first, if_neg first, if_neg second, if_neg second]
      cases listBees m fuel next (0 + 2) <;> rfl

/-- The loop, from an even slot of a page on. -/
theorem listBees_spec {m : Mem} {fuel page i : Nat} {more : List Nat} {listed : List Bee}
    (reads : Reads m (page :: more) listed) (named : ∀ b ∈ listed, b.Named)
    (hi : i ≤ listed.length) (hpage : i ≤ 14) (even : i % 2 = 0)
    (hfuel : listed.length - i < fuel) :
    listBees m fuel page i = .ok (walkFrom page i listed.length more) := by
  induction fuel generalizing page i more listed with
  | zero => omega
  | succ fuel ih =>
      -- Inside a page the loop takes two slots, or meets the end of the list.
      have inside : ∀ {page i : Nat} {more : List Nat} {listed : List Bee},
          Reads m (page :: more) listed → (∀ b ∈ listed, b.Named) → i ≤ listed.length →
          i < 14 → i % 2 = 0 → listed.length - i < fuel + 1 →
          listBees m (fuel + 1) page i = .ok (walkFrom page i listed.length more) := by
        intro page i more listed reads named hi hpage even hfuel
        rw [listBees, if_neg (by omega)]
        simp only [if_neg (show i ≠ 14 by omega), List.nil_append]
        by_cases first : i < listed.length
        · rw [if_neg ((reads.slot first hpage).firstChar_ne (named _ (List.getElem_mem first))),
            walkFrom_step first hpage]
          by_cases second : i + 1 < listed.length
          · rw [if_neg ((reads.slot second (by omega)).firstChar_ne
                (named _ (List.getElem_mem second))), walkFrom_step second (by omega),
              ih reads named (by omega) (by omega) (by omega) (by omega)]
            rfl
          · obtain hlen : listed.length = i + 1 := by omega
            obtain ⟨rfl, stop⟩ := reads.stop (by omega)
            rw [hlen] at stop ⊢
            rw [if_pos stop, walkFrom_stop (by omega)]
        · obtain rfl : i = listed.length := by omega
          obtain ⟨rfl, stop⟩ := reads.stop hpage
          rw [if_pos stop, walkFrom_stop hpage]
      by_cases hlt : i < 14
      · exact inside reads named hi hlt even hfuel
      · obtain rfl : i = 14 := by omega
        cases more with
        | nil =>
            obtain ⟨hlen, _, _, link⟩ := reads
            have full : listed.length = 14 := by omega
            rw [listBees, if_pos ⟨rfl, link full⟩, full, walkFrom_full]
        | cons next more =>
            obtain ⟨hlen, _, link, hne, tail⟩ := reads
            have hdrop : (listed.drop 14).length = listed.length - 14 := List.length_drop
            rw [listBees_next link hne, inside tail (fun b hb => named b (List.mem_of_mem_drop hb))
              (Nat.zero_le _) (by omega) rfl (by omega), walkFrom_next, hdrop]
            rfl

/-! ### Tours -/

/-- The slots that a walk used, in order. -/
def visits (events : List Event) : List (Nat × Nat) :=
  events.filterMap fun
    | .visit page i => some (page, i)
    | _ => none

/-- The first `n` slots of the pages. -/
def positions : List Nat → Nat → List (Nat × Nat)
  | [], _ => []
  | page :: rest, n => (List.range (min n 14)).map (fun i => (page, i)) ++ positions rest (n - 14)

/-- The number of slots that `main` has written to: the first one to start with, then with
the `n`-th module its slot, and the one behind it if that is in the same page. -/
def writtenSlots : Nat → Nat
  | 0 => 1
  | n + 1 => if n % 14 + 1 < 14 then n + 2 else n + 1

theorem writtenSlots_eq (n : Nat) :
    writtenSlots n = if n = 0 ∨ n % 14 ≠ 0 then n + 1 else n := by
  cases n with
  | zero => rfl
  | succ n =>
      rw [writtenSlots]
      by_cases inside : n % 14 + 1 < 14
      · rw [if_pos inside, if_pos (by omega)]
      · rw [if_neg inside, if_neg (by omega)]

/-- The walk used the slots of all modules in order, looked only at slots that were
written, and went on only at further pages of the registry. -/
structure Tour (pages : List Nat) (n : Nat) (events : List Event) : Prop where
  visits : visits events = positions pages n
  probes : ∀ page i, .probe page i ∈ events → (page, i) ∈ positions pages (writtenSlots n)
  links : ∀ page, .link page ∈ events → page ∈ pages
  follows : ∀ page, .follow page ∈ events → page ≠ 0 ∧ page ∈ pages

theorem positions_cons (page : Nat) (rest : List Nat) (n : Nat) :
    positions (page :: rest) n =
      (List.range (min n 14)).map (fun i => (page, i)) ++ positions rest (n - 14) := rfl

theorem positions_zero (pages : List Nat) : positions pages 0 = [] := by
  induction pages with
  | nil => rfl
  | cons page rest ih => exact ih

theorem visits_append (events events' : List Event) :
    visits (events ++ events') = visits events ++ visits events' := by
  simp [visits]

theorem visits_seen (page i n : Nat) :
    visits (seen page i n) = (List.range' i n).map fun i => (page, i) := by
  induction n generalizing i with
  | zero => rfl
  | succ n ih =>
      rw [List.range'_succ, List.map_cons, ← ih]
      rfl

theorem mem_seen {page i n : Nat} {event : Event} (h : event ∈ seen page i n) :
    ∃ j, j < i + n ∧ (event = .probe page j ∨ event = .visit page j) := by
  induction n generalizing i with
  | zero => exact absurd h (by simp [seen])
  | succ n ih =>
      simp only [seen, List.mem_cons] at h
      obtain rfl | rfl | h := h
      · exact ⟨i, by omega, .inl rfl⟩
      · exact ⟨i, by omega, .inr rfl⟩
      · obtain ⟨j, hj, heq⟩ := ih h
        exact ⟨j, by omega, heq⟩

theorem mem_positions_first {page i n : Nat} (rest : List Nat) (hn : i < n) (hi : i < 14) :
    (page, i) ∈ positions (page :: rest) n := by
  rw [positions]
  exact List.mem_append_left _ (List.mem_map.mpr ⟨i, List.mem_range.mpr (by omega), rfl⟩)

/-- A walk uses the slots of the modules it reads. -/
theorem visits_walk {m : Mem} {page : Nat} {more : List Nat} {bees : List Bee}
    (reads : Reads m (page :: more) bees) :
    visits (walk (page :: more) bees.length) = positions (page :: more) bees.length := by
  induction more generalizing page bees with
  | nil =>
      have hmin : min bees.length 14 = bees.length := Nat.min_eq_left reads.1
      have last : visits [lastEvent page bees.length] = [] := by
        unfold lastEvent
        split_ifs <;> rfl
      rw [walk, visits_append, visits_seen, last, positions, positions, hmin, List.range_eq_range']
  | cons next more ih =>
      obtain ⟨hlen, _, _, _, tail⟩ := reads
      have rest := ih tail
      rw [List.length_drop] at rest
      have hmin : min bees.length 14 = 14 := by omega
      have middle : visits (.link page :: .follow next :: walk (next :: more) (bees.length - 14)) =
          visits (walk (next :: more) (bees.length - 14)) := rfl
      rw [walk, visits_append, visits_seen, middle, rest,
        positions_cons page (next :: more), hmin, List.range_eq_range']

/-- What happens on the last page. -/
theorem mem_walk_last {page n : Nat} {event : Event} (h : event ∈ walk [page] n) :
    (∃ j < n, event = .probe page j ∨ event = .visit page j) ∨
      n < 14 ∧ event = .probe page n ∨ event = .link page := by
  obtain h | h := List.mem_append.mp h
  · obtain ⟨j, hj, heq⟩ := mem_seen h
    exact .inl ⟨j, by omega, heq⟩
  · rw [lastEvent, List.mem_singleton] at h
    split_ifs at h with short
    · exact .inr (.inl ⟨short, h⟩)
    · exact .inr (.inr h)

/-- What happens on a page before the last one, and behind it. -/
theorem mem_walk_cons {page next n : Nat} {more : List Nat} {event : Event}
    (h : event ∈ walk (page :: next :: more) n) :
    (∃ j < 14, event = .probe page j ∨ event = .visit page j) ∨ event = .link page ∨
      event = .follow next ∨ event ∈ walk (next :: more) (n - 14) := by
  obtain h | h := List.mem_append.mp h
  · obtain ⟨j, hj, heq⟩ := mem_seen h
    exact .inl ⟨j, by omega, heq⟩
  · simpa only [List.mem_cons] using Or.inr h

/-- The walk over the last page. -/
theorem tour_last {m : Mem} {page : Nat} {bees : List Bee} (names : NamesAt m [page] bees) :
    Tour [page] bees.length (walk [page] bees.length) := by
  have hlen : bees.length ≤ 14 := names.1
  refine ⟨visits_walk names.reads, fun p i hp => ?_, fun p hp => ?_, fun p hp => ?_⟩
  · obtain ⟨j, hj, heq | heq⟩ | ⟨short, heq⟩ | heq := mem_walk_last hp
    · obtain ⟨rfl, rfl⟩ := Event.probe.inj heq
      refine mem_positions_first [] ?_ (by omega)
      rw [writtenSlots_eq]
      split_ifs <;> omega
    · cases heq
    · obtain ⟨rfl, rfl⟩ := Event.probe.inj heq
      refine mem_positions_first [] ?_ short
      rw [writtenSlots_eq, if_pos (by omega)]
      omega
    · cases heq
  · obtain ⟨j, _, heq | heq⟩ | ⟨_, heq⟩ | heq := mem_walk_last hp
    · cases heq
    · cases heq
    · cases heq
    · obtain rfl := Event.link.inj heq
      exact List.mem_cons_self
  · obtain ⟨j, _, heq | heq⟩ | ⟨_, heq⟩ | heq := mem_walk_last hp <;> cases heq

/-- The walk over a full page, and behind it the walk over the others. -/
theorem tour_cons {m : Mem} {page next : Nat} {more : List Nat} {bees : List Bee}
    (names : NamesAt m (page :: next :: more) bees)
    (rest : Tour (next :: more) (bees.length - 14) (walk (next :: more) (bees.length - 14))) :
    Tour (page :: next :: more) bees.length (walk (page :: next :: more) bees.length) := by
  have reads := names.reads
  obtain ⟨hlen, -, -, hne, -⟩ := names
  have hwritten : writtenSlots (bees.length - 14) = writtenSlots bees.length - 14 := by
    rw [writtenSlots_eq, writtenSlots_eq]
    split_ifs <;> omega
  refine ⟨visits_walk reads, fun p i hp => ?_, fun p hp => ?_, fun p hp => ?_⟩
  · obtain ⟨j, hj, heq | heq⟩ | heq | heq | later := mem_walk_cons hp
    · obtain ⟨rfl, rfl⟩ := Event.probe.inj heq
      refine mem_positions_first _ ?_ hj
      rw [writtenSlots_eq]
      split_ifs <;> omega
    · cases heq
    · cases heq
    · cases heq
    · rw [positions, ← hwritten]
      exact List.mem_append_right _ (rest.probes p i later)
  · obtain ⟨j, _, heq | heq⟩ | heq | heq | later := mem_walk_cons hp
    · cases heq
    · cases heq
    · obtain rfl := Event.link.inj heq
      exact List.mem_cons_self
    · cases heq
    · exact List.mem_cons_of_mem _ (rest.links p later)
  · obtain ⟨j, _, heq | heq⟩ | heq | heq | later := mem_walk_cons hp
    · cases heq
    · cases heq
    · cases heq
    · obtain rfl := Event.follow.inj heq
      exact ⟨hne, List.mem_cons_of_mem _ List.mem_cons_self⟩
    · obtain ⟨nonnull, known⟩ := rest.follows p later
      exact ⟨nonnull, List.mem_cons_of_mem _ known⟩

theorem walk_tour {m : Mem} {page : Nat} {more : List Nat} {bees : List Bee}
    (names : NamesAt m (page :: more) bees) :
    Tour (page :: more) bees.length (walk (page :: more) bees.length) := by
  induction more generalizing page bees with
  | nil => exact tour_last names
  | cons next more ih =>
      have rest := ih names.2.2.2.2
      rw [List.length_drop] at rest
      exact tour_cons names rest

/-- The slots hold the modules in the order of registration. -/
theorem positions_hold {m : Mem} {page : Nat} {more : List Nat} {bees : List Bee}
    (reads : Reads m (page :: more) bees) :
    List.Forall₂ (fun at_ b => Holds m at_.1 at_.2 b) (positions (page :: more) bees.length)
      bees := by
  induction more generalizing page bees with
  | nil =>
      obtain ⟨hlen, slots, _⟩ := reads
      rw [positions, positions, List.append_nil, Nat.min_eq_left hlen]
      refine List.forall₂_iff_get.mpr ⟨by simp, fun i hi hi' => ?_⟩
      simpa using slots i hi'
  | cons next more ih =>
      obtain ⟨hlen, slots, _, _, tail⟩ := reads
      have rest := ih tail
      rw [List.length_drop] at rest
      have here : List.Forall₂ (fun at_ b => Holds m at_.1 at_.2 b)
          ((List.range (min bees.length 14)).map fun i => (page, i)) (bees.take 14) := by
        refine List.forall₂_iff_get.mpr ⟨by simp; omega, fun i hi hi' => ?_⟩
        simpa using slots i hi'
      have whole := List.rel_append here rest
      simp only [List.take_append_drop] at whole
      exact whole

/-- All positions are slots of the pages. -/
theorem mem_positions {pages : List Nat} {n : Nat} {at_ : Nat × Nat} (h : at_ ∈ positions pages n) :
    at_.1 ∈ pages ∧ at_.2 < 14 := by
  induction pages generalizing n with
  | nil => exact absurd h List.not_mem_nil
  | cons page rest ih =>
      obtain here | there := List.mem_append.mp h
      · obtain ⟨i, small, rfl⟩ := List.mem_map.mp here
        have bound := List.mem_range.mp small
        exact ⟨List.mem_cons_self, by omega⟩
      · exact ⟨List.mem_cons_of_mem _ (ih there).1, (ih there).2⟩

/-- No slot occurs twice. -/
theorem positions_nodup {pages : List Nat} (distinct : pages.Nodup) (n : Nat) :
    (positions pages n).Nodup := by
  induction pages generalizing n with
  | nil => exact List.nodup_nil
  | cons page rest ih =>
      obtain ⟨new, distinct⟩ := List.nodup_cons.mp distinct
      refine List.nodup_append.mpr ⟨?_, ih distinct _, ?_⟩
      · exact List.Nodup.map (fun i j h => (Prod.mk.inj h).2) List.nodup_range
      · rintro at_ h at_' h' rfl
        obtain ⟨i, _, rfl⟩ := List.mem_map.mp h
        exact new (mem_positions h').1

end HiveRK.Queen
