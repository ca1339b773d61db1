import HiveRK.Queen.Control.Screen
import HiveRK.Queen.Placement
import HiveRK.Queen.Ports

/-!
# `main` through the ports

The load loop of `main` with every sector read through the ports, and then the lookup array, the
init functions and the message that is not meant to be seen. Before a scan the bytes in the
buffer of `find_bee` may be whatever they will be behind it, so that a round is a round of the
load loop over the disk.
-/

namespace HiveRK.Queen.Ports

open Machine Control Canvas
open Display (ascii)

/-- The load loop. -/
def loadLoop (buf page0 : Nat) : Nat → Drive → Core → Nat → Exec (Drive × Core)
  | 0, _, _, _ => .error .fuel
  | fuel + 1, dr, c, pageIndex => do
      let (dr, c, address) ← beeScanAndLoad fuel buf dr c
      if address = 0 then .ok (dr, c)
      else loadLoop buf page0 fuel dr (registerBee c page0 pageIndex address) (pageIndex + 1)

/-- The lines of the message. -/
def message : List (List Byte) :=
  let wall := List.replicate 31 '#'
  let gap := ['#', '#', '#'] ++ List.replicate 25 ' ' ++ ['#', '#', '#']
  let line := ['!', '!', '!', ' ', 't', 'h', 'i', 's', ' ', 's', 'h', 'o', 'u', 'l', 'd', ' ', 'n',
    'o', 't', ' ', 'b', 'e', 'e', ' ', 's', 'e', 'e', ' ', '!', '!', '!']
  [wall, gap, line, gap, wall].map fun line => line.map ascii

/-- `main` up to its endless loop, with the calls of `run_inits`. -/
def main (run : Call → Core → Core) (fuel buf : Nat) (dr : Drive) (c : Core) :
    Exec (Drive × Core × List Call) := do
  let page0 := c.memory
  let (dr, c) ← loadLoop buf page0 fuel dr (prepare c) 0
  let (c, _) ← setupLookupArray fuel (publish c) page0 0
  let (c, calls) ← runInits run fuel c page0
  let m ← sysPrint fuel (fun _ i => (joined message).getD i 0) 0 0 0x40 c.mem
  .ok (dr, { c with mem := m }, calls)

/-! ### The load loop -/

/-- The core with other bytes in the buffer. -/
def Core.patched (c : Core) (m' : Mem) (buf : Nat) : Core :=
  { c with mem := Machine.patched c.mem m' buf 1024 }

section Scan

variable {d : Disk} {c : Core} {m m' : Mem} {s b k buf start stop : Nat}

theorem readSectors_patched (before : b + 512 * k ≤ buf) (fits : buf + 1024 ≤ 2 ^ 32) :
    Queen.readSectors d s b k (patched m m' buf 1024) =
      (patched (Queen.readSectors d s b k m).1 m' buf 1024, (Queen.readSectors d s b k m).2) := by
  induction k with
  | zero => rfl
  | succ k ih =>
      rw [Queen.readSectors, Queen.readSectors, ih (by omega)]
      obtain ⟨m₁, going⟩ := Queen.readSectors d s b k m
      cases going with
      | false => rfl
      | true =>
          cases read : ataReadSectorSafe d (s + k) with
          | none => rfl
          | some bytes =>
              have length := ataReadSectorSafe_length read
              exact congrArg (·, true) (storeBytes_patched (by omega) fits)

theorem loadModule_patched (before : c.memory + 512 * memoryUsed start stop ≤ buf)
    (fits : buf + 1024 ≤ 2 ^ 32) :
    Queen.loadModule d (Core.patched c m' buf) start stop =
      (Core.patched (Queen.loadModule d c start stop).1 m' buf,
        (Queen.loadModule d c start stop).2) := by
  have read : Queen.readSectors d (start / 512) c.memory (memoryUsed start stop)
      (patched c.mem m' buf 1024) = _ := readSectors_patched before fits
  simp only [Queen.loadModule, Core.patched, read]
  generalize Queen.readSectors d (start / 512) c.memory (memoryUsed start stop) c.mem = sectors
  obtain ⟨m₁, going⟩ := sectors
  split_ifs
  · rfl
  · cases going with
    | false => rfl
    | true => rfl

/-- A scan that loads a module leaves the buffer alone, and does not look at it. -/
theorem scan_patched (next : Loadable d c start stop)
    (before : c.memory + 512 * memoryUsed start stop ≤ buf) (fits : buf + 1024 ≤ 2 ^ 32) :
    Queen.beeScanAndLoad d (Core.patched c m' buf) =
      (Core.patched (Queen.beeScanAndLoad d c).1 m' buf, (Queen.beeScanAndLoad d c).2) := by
  have finish : u32 (Queen.findBee d (u32 (start + 4)) SEARCH_LIMIT + 4) = stop := by
    rw [u32_of_lt next.startFits, next.last, u32_of_lt next.stopFits]
  have here := beeScanAndLoad_found next.first next.found
  have there := beeScanAndLoad_found (c := Core.patched c m' buf) next.first next.found
  rw [finish] at here there
  rw [here, there]
  exact loadModule_patched before fits

/-- A scan through the ports, with the bytes that it leaves in the buffer. -/
theorem scan_leaves {dr : Drive} (c : Core) (fits : buf + 1024 ≤ 2 ^ 32) (ready : Ready d dr) :
    ∃ dr' m', Ready d dr' ∧ Returns (fun fuel => beeScanAndLoad fuel buf dr c)
      (dr', Core.patched (Queen.beeScanAndLoad d c).1 m' buf, (Queen.beeScanAndLoad d c).2) := by
  obtain ⟨dr', m', ready', apart, run⟩ := scan_returns c fits ready
  refine ⟨dr', m', ready', ?_⟩
  rw [Core.patched, apart.patched_eq]
  exact run

end Scan

section Rounds

variable {d : Disk} {dr : Drive} {c : Core} {m' : Mem} {a buf page0 : Nat} {rest : List Nat}
variable {bees : List Bee} {done ps : List Part} {b : Bee} {p : Part}

theorem patched_kept (below : c.memory ≤ buf) (m' : Mem) :
    ∀ x < c.memory, (Core.patched c m' buf).mem x = c.mem x :=
  fun x hx => patched_within c.mem m' buf 1024 x (.inl (by omega))

/-- The core behind a part of the load loop. -/
structure Loads (page0 : Nat) (rest : List Nat) (bees : List Bee) (done : List Part) (c : Core) :
    Prop where
  registered : Registered page0 bees c
  loaded : Loaded page0 rest bees c
  resident : List.Forall₂ (Resident (page0 :: rest) c) bees done

/-- The modules do not lie in the buffer. -/
theorem Loads.patched (loads : Loads page0 rest bees done c) (below : c.memory ≤ buf) (m' : Mem) :
    Loads page0 rest bees done (Core.patched c m' buf) := by
  obtain ⟨registered, loaded, resident⟩ := loads
  have kept := patched_kept below m'
  refine ⟨?_, loaded.above kept (Nat.le_refl _) loaded.fits, resident.imp fun b p h => ?_⟩
  · refine .elsewhere registered loaded.names (fun p hp x _ hx => kept x ?_)
      (fun b hb x _ hx => kept x ?_) (Nat.le_refl _) loaded.fits
    · have := loaded.pagesBelow p hp
      omega
    · have := loaded.dataBelow b hb
      omega
  · have inside := h.below
    exact h.keep (Nat.le_of_lt loaded.fits) (fun x _ hx => kept x (by omega)) (Nat.le_refl _)
      fun q hq => .inl hq

/-- A round over the disk adds a module whole. -/
theorem Loads.round (loads : Loads page0 rest bees done c) (h : Layout d a (p :: ps))
    (low : 512 ≤ a) (last : c.lastEnd = a) (whole : p.Whole)
    (room : c.memory + demand bees.length a (p :: ps) + 1024 ≤ 2 ^ 32) :
    ∃ rest', Loads page0 rest' (bees ++ [loadedBee d c]) (done ++ [p])
      (loadRound d page0 bees.length c) := by
  obtain ⟨registered, loaded, resident⟩ := loads
  obtain ⟨next, brings, -, -, demanded⟩ :=
    h.round low last registered whole (h.room_of_demand whole room)
  obtain ⟨rest', loaded', keep, add⟩ := next.resident registered loaded
  have positive : 0 < c.memory := by
    have grown := loaded.grown
    omega
  have long := p.length_image
  have hlen := length_contents_cons p ps
  have high := h.fits
  have used := memoryUsed_eq (show 0 < p.image.length by omega)
    (show a + p.gap.length + p.image.length < 2 ^ 32 by omega)
  obtain ⟨finds, -⟩ := h.scan_finds low last positive (by omega)
  have inside : (a + p.gap.length) % 512 + p.image.length ≤
      512 * memoryUsed (a + p.gap.length) (a + p.gap.length + p.image.length) := by
    rw [used, sectorsTouched]
    omega
  exact ⟨rest', registered.load next, loaded', List.rel_append
    (resident.imp fun b p => keep b p) (.cons (add p brings.manifest finds inside) .nil)⟩

/-- A round through the ports, in front of the others. -/
theorem Loads.round_returns (loads : Loads page0 rest bees done c) (h : Layout d a (p :: ps))
    (low : 512 ≤ a) (last : c.lastEnd = a) (ready : Ready d dr) (whole : p.Whole)
    (room : c.memory + demand bees.length a (p :: ps) ≤ buf) (fits : buf + 1024 ≤ 2 ^ 32) :
    ∃ dr' rest' b c', Ready d dr' ∧ Loads page0 rest' (bees ++ [b]) (done ++ [p]) c' ∧
      c'.lastEnd = a + p.gap.length + p.image.length ∧
      c'.memory + demand (bees.length + 1) (a + p.gap.length + p.image.length) ps =
        c.memory + demand bees.length a (p :: ps) ∧
      ∀ r, Returns (fun fuel => loadLoop buf page0 fuel dr' c' (bees.length + 1)) r →
        Returns (fun fuel => loadLoop buf page0 fuel dr c bees.length) r := by
  obtain ⟨dr', m', ready', scanned⟩ := scan_leaves c fits ready
  have space : c.memory + demand bees.length a (p :: ps) + 1024 ≤ 2 ^ 32 := by omega
  obtain ⟨before, -, -, -, demanded⟩ :=
    h.round low last loads.registered whole (h.room_of_demand whole space)
  have same : Queen.beeScanAndLoad d (Core.patched c m' buf) = _ :=
    scan_patched before (by omega) fits
  -- As if the buffer had held the bytes that the scan leaves in it before the scan.
  have scanned₁ : Returns (fun fuel => beeScanAndLoad fuel buf dr c)
      (dr', (Queen.beeScanAndLoad d (Core.patched c m' buf)).1,
        (Queen.beeScanAndLoad d (Core.patched c m' buf)).2) := by
    rw [same]
    exact scanned
  have loads₁ := loads.patched (show c.memory ≤ buf by omega) m'
  have last₁ : (Core.patched c m' buf).lastEnd = a := last
  have memory₁ : (Core.patched c m' buf).memory = c.memory := rfl
  generalize Core.patched c m' buf = c₁ at *
  rw [← memory₁] at space
  obtain ⟨next, -, stop, top, demanded⟩ :=
    h.round low last₁ loads₁.registered whole (h.room_of_demand whole space)
  obtain ⟨rest', loads'⟩ := loads₁.round h low last₁ whole space
  refine ⟨dr', rest', _, _, ready', loads', stop, by omega, fun r later => .succ ?_⟩
  refine scanned₁.bind ?_
  simp only [if_neg next.read]
  exact later

/-- The loop over the rest of a laid out disk. -/
theorem Loads.returns (loads : Loads page0 rest bees done c) (h : Layout d a ps) (low : 512 ≤ a)
    (last : c.lastEnd = a) (ready : Ready d dr) (whole : ∀ p ∈ ps, p.Whole)
    (room : c.memory + demand bees.length a ps ≤ buf) (fits : buf + 1024 ≤ 2 ^ 32) :
    ∃ dr' rest' more c', Ready d dr' ∧ Loads page0 rest' (bees ++ more) (done ++ ps) c' ∧
      c'.memory = c.memory + demand bees.length a ps ∧
      Returns (fun fuel => loadLoop buf page0 fuel dr c bees.length) (dr', c') := by
  induction ps generalizing a c dr bees done rest with
  | nil =>
      obtain ⟨dr', m', ready', scanned⟩ := scan_leaves c fits ready
      obtain ⟨none, same⟩ := h.scan_ends last
      simp only [Queen.scan] at none same
      rw [none, same] at scanned
      refine ⟨dr', rest, [], Core.patched c m' buf, ready', ?_, rfl, .succ (scanned.bind (.ok _))⟩
      rw [List.append_nil, List.append_nil]
      exact loads.patched room m'
  | cons p ps ih =>
      obtain ⟨wholeP, later⟩ := List.forall_mem_cons.mp whole
      obtain ⟨dr₁, rest₁, b, c₁, ready₁, loads₁, stop, top, first⟩ :=
        loads.round_returns h low last ready wholeP room fits
      have count : (bees ++ [b]).length = bees.length + 1 := List.length_append
      obtain ⟨dr', rest', more, c', ready', loads', memory, run⟩ :=
        ih loads₁ h.tail (by omega) stop ready₁ later (by rw [count]; omega)
      rw [List.append_assoc, List.append_assoc] at loads'
      rw [count] at memory run
      exact ⟨dr', rest', _, c', ready', loads', by omega, first _ run⟩

end Rounds

/-! ### `run_inits` with more fuel -/

section Inits

variable {run : Call → Core → Core}

theorem map_ok {α β : Type} {x y : Exec α} {f : α → β} {b : β}
    (same : ∀ a, x = .ok a → y = .ok a) (ran : x.map f = .ok b) : y.map f = .ok b := by
  cases x with
  | error stop => cases ran
  | ok a =>
      rw [same a rfl]
      exact ran

theorem bind_ok {α β : Type} {x : Exec α} {f : α → Exec β} {b : β} (ran : (x >>= f) = .ok b) :
    ∃ a, x = .ok a ∧ f a = .ok b := by
  cases x with
  | error stop => cases ran
  | ok a => exact ⟨a, rfl, ran⟩

theorem initPass_succ {s fuel : Nat} {c : Core} {cur i : Nat}
    {r : Core × List Call × List Event} (ran : initPass run s fuel c cur i = .ok r) :
    initPass run s (fuel + 1) c cur i = .ok r := by
  induction fuel generalizing c cur i r with
  | zero => cases ran
  | succ fuel ih =>
      rw [initPass] at ran ⊢
      simp only at ran ⊢
      generalize (if priority c.mem (slotData c.mem cur i) = s then run (initCall c cur i) c
        else c) = c' at ran ⊢
      generalize (if priority c.mem (slotData c.mem cur i) = s then [initCall c cur i]
        else []) = calls at ran ⊢
      split_ifs at ran ⊢
      · exact ran
      · exact ran
      · exact map_ok (fun a done => ih done) ran
      · exact map_ok (fun a done => ih done) ran

theorem initPasses_succ {fuel page k s : Nat} {c : Core} {r : Core × List Call}
    (ran : initPasses run fuel page k s c = .ok r) :
    initPasses run (fuel + 1) page k s c = .ok r := by
  induction k generalizing s c r with
  | zero => exact ran
  | succ k ih =>
      obtain ⟨pass, first, ran⟩ := bind_ok ran
      obtain ⟨rest, later, ran⟩ := bind_ok ran
      rw [initPasses, initPass_succ first]
      show (initPasses run (fuel + 1) page k (s + 1) pass.1 >>= fun rest => _) = _
      rw [ih later]
      exact ran

theorem runInits_returns {fuel page : Nat} {c : Core} {r : Core × List Call}
    (ran : runInits run fuel c page = .ok r) :
    Returns (fun fuel => runInits run fuel c page) r := by
  refine ⟨fuel, fun more long => ?_⟩
  induction more, long using Nat.le_induction with
  | base => exact ran
  | succ more _ ih => exact initPasses_succ ih

end Inits

/-! ### `main` -/

section Main

variable {dr : Drive} {parts : List Part} {c₀ : Core} {buf : Nat}

/-- The message over what is on the screen. -/
theorem message_shows (m : Mem) : ∃ m',
    Shows m' (writeLines (cellAt m) 0 0 (message.map (colored 0x04))) ∧
    Returns (fun fuel => sysPrint fuel (fun _ i => (joined message).getD i 0) 0 0 0x40 m) m' := by
  obtain ⟨m', shows, -, run⟩ := sysPrint_lines 0x40 (show ∀ line ∈ message, enter ∉ line by decide)
    (fun _ _ => (Display.CString.ofList (joined message) (by decide)).holds)
    (show Shows m (cellAt m) from fun _ _ _ _ => rfl) (show 0 + message.length ≤ 25 by decide)
    (show ∀ line ∈ message, 0 + line.length ≤ 80 by decide)
  exact ⟨m', shows, run⟩

/-- The word that is stored for the modules and their nodes leave what was loaded as it is. -/
theorem setUp_published {rest : List Nat} {bees : List Bee} {c : Core}
    (loaded : Loaded 0x4000 rest bees c) (below : c.memory ≤ CORE_GLOBAL_MEMORY)
    (build : ∀ b ∈ bees, Buildable b) (tables : CORE_GLOBAL_MEMORY + nodesSize bees < 2 ^ 32) :
    ∃ c₁, SetUp 0x4000 rest bees (publish c) c₁ ∧ Loaded 0x4000 rest bees c₁ ∧
      ∀ x < c.memory, c₁.mem x = c.mem x := by
  have published : ∀ x < c.memory, (publish c).mem x = c.mem x := fun x hx =>
    store_outside (by decide) (.inl (Nat.lt_of_lt_of_le hx below))
  have loaded' : Loaded 0x4000 rest bees (publish c) :=
    loaded.above published (Nat.le_refl _) loaded.fits
  have room : (publish c).memory + nodesSize bees < 2 ^ 32 :=
    Nat.lt_of_le_of_lt (Nat.add_le_add_right below _) tables
  obtain ⟨c₁, setUp⟩ := loaded'.setUp build room
  have kept : ∀ x < c.memory, c₁.mem x = c.mem x := fun x hx =>
    (setUp.written x (.inl hx)).trans (published x hx)
  exact ⟨c₁, setUp,
    loaded.above kept (setUp.memory ▸ Nat.le_add_right _ _) (setUp.memory ▸ room), kept⟩

theorem resident_manifests {pages : List Nat} {bees : List Bee} {c : Core}
    (resident : List.Forall₂ (Resident pages c) bees parts) :
    bees.map Bee.manifest = parts.map Part.manifest := by
  have each := resident.imp fun _ _ h => h.manifest
  exact List.forall₂_eq_eq_eq ▸
    List.forall₂_map_left_iff.mpr (List.forall₂_map_right_iff.mpr each)

/-- All modules of a well formed disk are loaded. -/
theorem wellFormed_loads (formed : WellFormed dr.disk parts) (idle : dr.busy = 0)
    (start : c₀.memory = 0x4000) (first : c₀.lastEnd = 512)
    (above : 0x4200 + demand 0 512 parts ≤ buf) (fits : buf + 1024 ≤ 2 ^ 32) :
    ∃ dr' rest bees c, Ready dr.disk dr' ∧ Loaded 0x4000 rest bees c ∧
      List.Forall₂ (Resident (0x4000 :: rest) c) bees parts ∧
      c.memory = 0x4200 + demand 0 512 parts ∧
      Returns (fun fuel => loadLoop buf 0x4000 fuel dr (prepare c₀) 0) (dr', c) := by
  have none : Loads 0x4000 [] [] [] (prepare c₀) :=
    ⟨.prepare start (by decide), start ▸ loaded_prepare (by omega), .nil⟩
  have memory₀ : (prepare c₀).memory = 0x4200 := by
    show u32 (c₀.memory + 512) = 0x4200
    rw [start]
    rfl
  obtain ⟨dr', rest, bees, c, ready, ⟨-, loaded, resident⟩, memory, loop⟩ :=
    none.returns formed.layout (Nat.le_refl _) (show (prepare c₀).lastEnd = 512 from first)
      ⟨rfl, idle⟩ formed.whole (by rw [memory₀]; exact above) fits
  rw [memory₀] at memory
  exact ⟨dr', rest, bees, c, ready, loaded, resident, memory, loop⟩

/-- The rest of `main` behind the lookup array. -/
theorem inits_return {rest : List Nat} {bees : List Bee} {c c₁ : Core}
    (setUp : SetUp 0x4000 rest bees c c₁) (loaded : Loaded 0x4000 rest bees c₁)
    (named : ∀ b ∈ bees, b.Named) (few : bees.length ≤ MAX_BEES)
    (distinct : bees.Pairwise fun b b' => b.id ≠ b'.id) {run : Call → Core → Core}
    (keeps : ∀ s call, Undisturbed (0x4000 :: rest) bees c₁ s →
      Undisturbed (0x4000 :: rest) bees c₁ (run call s)) :
    ∃ s m', Shows m' (writeLines (cellAt s.mem) 0 0 (message.map (colored 0x04))) ∧
      Returns (fun fuel => runInits run fuel c₁ 0x4000)
        (s, (List.range 256).flatMap (callsAt c₁ bees)) ∧
      Returns (fun fuel => sysPrint fuel (fun _ i => (joined message).getD i 0) 0 0 0x40 s.mem)
        m' := by
  have bytes : ∀ b ∈ bees, b.priority < 256 := fun b hb => (loaded.data b hb).priority_lt
  obtain ⟨s, ran⟩ :=
    setUp.runInits_eq loaded named few distinct keeps (Nat.lt_succ_self bees.length)
  rw [initOrder_eq_flatMap bytes, List.map_flatMap] at ran
  obtain ⟨m', shows, shown⟩ := message_shows s.mem
  exact ⟨s, m', shows, runInits_returns ran, shown⟩

/-- Whatever times the drive takes: `main` loads all modules of a well formed disk whole and in
their order. From then on each of their commands resolves to its function, and with init functions
that leave the records of the core alone, they are initialised by their priorities. Then the
message is shown. -/
theorem main_returns (formed : WellFormed dr.disk parts) (idle : dr.busy = 0)
    (start : c₀.memory = 0x4000) (first : c₀.lastEnd = 512)
    (low : 0x4200 + demand 0 512 parts ≤ CORE_GLOBAL_MEMORY)
    (above : 0x4200 + demand 0 512 parts ≤ buf) (fits : buf + 1024 ≤ 2 ^ 32) :
    ∃ dr' rest bees c₁, dr'.disk = dr.disk ∧ dr'.busy = 0 ∧
      NamesAt c₁.mem (0x4000 :: rest) bees ∧
      bees.map Bee.manifest = parts.map Part.manifest ∧
      List.Forall₂ (fun b p => loadBytes c₁.mem b.base p.image.length = p.image) bees parts ∧
      (∀ (j : Nat) (hj : j < bees.length) (s : Core) (CMD : Nat) (e : Export), Later bees c₁ s →
        bees[j].lastExport CMD = some e → Resolves s bees[j] (c₁.idNodes j) CMD e.offset) ∧
      ∀ run, (∀ s call, Undisturbed (0x4000 :: rest) bees c₁ s →
          Undisturbed (0x4000 :: rest) bees c₁ (run call s)) →
        ∃ (s : Core) (m' : Mem), Returns (fun fuel => main run fuel buf dr c₀)
            (dr', { s with mem := m' }, (List.range 256).flatMap (callsAt c₁ bees)) ∧
          Shows m' (writeLines (cellAt s.mem) 0 0 (message.map (colored 0x04))) := by
  obtain ⟨dr', rest, bees, c, ready, loaded, resident, memory, loop⟩ :=
    wellFormed_loads formed idle start first above fits
  have manifests := resident_manifests resident
  obtain ⟨few, named, distinct, nonzero, nonneg, tables⟩ := formed.serves manifests
  have below : c.memory ≤ CORE_GLOBAL_MEMORY := memory ▸ low
  obtain ⟨c₁, setUp, loaded₁, kept⟩ :=
    setUp_published loaded below (fun b hb => ⟨named b hb, nonneg b hb⟩) tables
  have top := loaded.fits
  refine ⟨dr', rest, bees, c₁, ready.1, ready.2, loaded₁.names, manifests, ?_, ?_, ?_⟩
  · refine resident.imp fun b p h => ?_
    have inside := h.below
    have same : AgreeOn c.mem c₁.mem b.base p.image.length := fun x _ hi => kept x (by omega)
    exact (same.loadBytes (by omega) (Nat.le_refl _) (Nat.le_refl _)).trans h.bytes
  · intro j hj s CMD e later found
    have all := (setUp.servesAll loaded₁.fits).later later
    have resolves := all.resolves few distinct hj (nonzero _ (List.getElem_mem hj)) found
    rwa [later.array j hj] at resolves
  · intro run keeps
    obtain ⟨s, m', shows, ran, shown⟩ := inits_return setUp loaded₁ named few distinct keeps
    have walked : Returns (fun fuel => setupLookupArray fuel (publish c) 0x4000 0) _ :=
      ⟨bees.length + 1, fun fuel more => setUp.run fuel more⟩
    refine ⟨s, m', ?_, shows⟩
    simp only [main, start]
    exact loop.bind (walked.bind (ran.bind (shown.bind (.ok _))))

end Main

/-- A drive that takes longer each time. -/
def slowDrive : Drive where
  disk := diskOf oneTwo
  count := 0
  low := 0
  mid := 0
  high := 0
  device := 0
  busy := 0
  failed := false
  words := []
  delays k := k

theorem main_returns_oneTwo : ∃ (dr' : Drive) (bees : List Bee) (c₁ s : Core) (m' : Mem),
    bees.map Bee.manifest = oneTwo.map Part.manifest ∧
    Returns (fun fuel => main (fun _ s => s) fuel 0x80000 slowDrive emptyCore)
      (dr', { s with mem := m' }, (List.range 256).flatMap (callsAt c₁ bees)) ∧
    Shows m' (writeLines (cellAt s.mem) 0 0 (message.map (colored 0x04))) := by
  have demanded : demand 0 512 oneTwo ≤ 0x1E00 := by decide +kernel
  have low : 0x4200 + demand 0 512 oneTwo ≤ CORE_GLOBAL_MEMORY := by
    rw [CORE_GLOBAL_MEMORY]
    omega
  obtain ⟨dr', rest, bees, c₁, -, -, -, manifests, -, -, inits⟩ :=
    main_returns (show WellFormed slowDrive.disk oneTwo from oneTwo_formed) rfl
      (show emptyCore.memory = 0x4000 from rfl) rfl low
      (show 0x4200 + demand 0 512 oneTwo ≤ 0x80000 by omega) (by decide)
  obtain ⟨s, m', run, shows⟩ := inits (fun _ s => s) fun _ _ same => same
  exact ⟨dr', bees, c₁, s, m', manifests, run, shows⟩

end HiveRK.Queen.Ports
