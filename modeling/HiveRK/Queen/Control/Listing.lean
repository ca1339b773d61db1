import HiveRK.Queen.Control.Screen
import HiveRK.Queen.Unnamed

/-!
# The command `list-bees`

The command walks the names pages and prints two names to a row, each row at the bottom of the
screen above the input line, and behind them the number of the modules. A name ends with a NUL.
One of 32 characters has none in its slot; behind it comes the pointer to the data page.
-/

namespace HiveRK.Control

open Machine Util Canvas Numeral Queen
open Display (TextAt textAt_of_getD)

/-- The characters from `page->names[i].name` on. -/
def nameAt (page i : Nat) (m : Mem) (k : Nat) : Byte := m (u32 (slot page i + k))

/-- The loop, with the final `total`. -/
def listLoop : Nat → Nat → Nat → Nat → Mem → Exec (Nat × Mem)
  | 0, _, _, _, _ => .error .fuel
  | fuel + 1, cur, s, total, m =>
      if s = 14 ∧ nextPage m cur = 0 then .ok (total, m)
      else
        let cur := if s = 14 then nextPage m cur else cur
        let s := if s = 14 then 0 else s
        if firstChar m cur s = 0 then .ok (total, m)
        else do
          let m ← sysPrint fuel (nameAt cur s) 0 23 0x50 (sysShift m)
          let total := total + 1
          if firstChar m cur (s + 1) = 0 then .ok (total, m)
          else do
            let m ← sysPrint fuel (nameAt cur (s + 1)) 33 23 0x50 m
            listLoop fuel cur (s + 2) (total + 1) m

def beesLoaded : List Char := ['B', 'e', 'e', 's', ' ', 'L', 'o', 'a', 'd', 'e', 'd', ':', ' ']

/-- The command, with the buffer of `SYSprintI`. -/
def listBees (fuel page : Nat) (buf : Buffer) (m : Mem) : Exec Mem := do
  let (total, m) ← listLoop fuel page 0 0 m
  let m ← sysPrint fuel (fun _ => literal beesLoaded) 0 23 0x20 (sysShift m)
  sysPrintI fuel total buf 13 23 0x20 m

/-! ### What is listed -/

/-- The name up to its NUL. -/
def title (b : Bee) : List Byte := b.name.takeWhile (· ≠ 0)

/-- The name is shown as it is: it has no line break, and a NUL, or the low byte of the pointer
behind it is one. -/
structure Titled (b : Bee) : Prop where
  line : enter ∉ b.name
  ends : 0 ∈ b.name ∨ b.data % 256 = 0

instance (b : Bee) : Decidable (Titled b) :=
  decidable_of_iff (enter ∉ b.name ∧ (0 ∈ b.name ∨ b.data % 256 = 0))
    ⟨fun h => ⟨h.1, h.2⟩, fun h => ⟨h.line, h.ends⟩⟩

def pairs {α : Type} : List α → List (List α)
  | [] => []
  | [a] => [[a]]
  | a :: b :: as => [a, b] :: pairs as

/-- One name or two in a row. -/
def pairRow (names : List (List Byte)) : Nat → Cell :=
  overlay (overlay (fun _ => dark) 0 (colored 0x05 (names.getD 0 []))) 33
    (colored 0x05 (names.getD 1 []))

def countRow (n : Nat) : Nat → Cell :=
  overlay (fun _ => dark) 0
    (colored 0x02 (beesLoaded.map Display.ascii ++ decimal.intString minus n))

/-- The rows for modules with these names. -/
def listing (names : List (List Byte)) : List (Nat → Cell) :=
  (pairs names).map pairRow ++ [countRow names.length]

/-- The page is in memory, and not on the screen. -/
def OffScreen (page : Nat) : Prop :=
  page + 512 ≤ vidmem ∨ vidmem + 4000 ≤ page ∧ page + 512 ≤ 2 ^ 32

section Names

variable {m m' : Mem} {page i : Nat} {b : Bee}

theorem OffScreen.fits (off : OffScreen page) : page + 512 ≤ 2 ^ 32 := by
  obtain low | ⟨-, high⟩ := off
  · rw [vidmem] at low
    omega
  · exact high

theorem OffScreen.agree (off : OffScreen page) (within : WritesWithin m m' vidmem 4000) :
    AgreeOn m m' page 512 :=
  within.agreeOn (off.imp_right And.left)

theorem length_title_le (name : b.name.length = 32) : (title b).length ≤ 32 :=
  name ▸ (List.takeWhile_sublist _).length_le

theorem name_byte (holds : Holds m page i b) {k : Nat} (inside : k < 32) :
    nameAt page i m k = b.name.getD k 0 := by
  have short : k < (loadBytes m (slot page i) 32).length := by simpa using inside
  rw [← holds.name, List.getD_eq_getElem _ _ short, getElem_loadBytes short, nameAt]

/-- The byte behind the name is the low one of the pointer. -/
theorem data_byte (holds : Holds m page i b) (aligned : b.data % 256 = 0) :
    nameAt page i m 32 = 0 := by
  have low : (m (u32 (slot page i + 32))).toNat = b.data % 256 := by
    rw [← holds.data]
    show _ = ((m (u32 (slot page i + 32))).toNat + 256 * load 3 m (slot page i + 32 + 1)) % 256
    rw [Nat.add_mul_mod_self_left, Nat.mod_eq_of_lt (BitVec.isLt _)]
  exact BitVec.eq_of_toNat_eq (low.trans aligned)

/-- `SYSprint` reads the title. -/
theorem title_text (holds : Holds m page i b) (titled : Titled b) :
    TextAt (nameAt page i m) 0 (title b) := by
  have name : b.name.length = 32 := by rw [← holds.name, loadBytes_length]
  have some : 0 ∉ title b := fun nul => by simpa using List.mem_takeWhile_imp nul
  have split : title b ++ b.name.dropWhile (· ≠ 0) = b.name := List.takeWhile_append_dropWhile
  have last := List.head?_dropWhile_not (· ≠ (0 : Byte)) b.name
  refine textAt_of_getD some fun j hj => ?_
  rw [Nat.zero_add]
  cases behind : b.name.dropWhile (· ≠ 0) with
  | nil =>
      rw [behind, List.append_nil] at split
      rw [split] at some hj ⊢
      obtain inside | rfl := Nat.lt_or_eq_of_le hj
      · exact name_byte holds (name ▸ inside)
      · rw [name, data_byte holds (titled.ends.resolve_left some),
          List.getD_eq_default _ _ (Nat.le_of_eq name)]
  | cons ch rest =>
      rw [behind] at split last
      have nul : ch = 0 := by simpa using last
      have inside : j < 32 := by
        rw [← name, ← split, List.length_append, List.length_cons]
        omega
      rw [name_byte holds inside, ← split]
      obtain before | rfl := Nat.lt_or_eq_of_le hj
      · rw [List.getD_append _ _ _ _ before]
      · rw [List.getD_append_right _ _ _ _ (Nat.le_refl _), Nat.sub_self, nul,
          List.getD_eq_default _ _ (Nat.le_refl _)]
        rfl

/-- One name, in whatever column. -/
theorem name_shows {g : Nat → Nat → Cell} {x : Nat} (holds : Holds m page i b) (small : i < 14)
    (off : OffScreen page) (titled : Titled b) (shows : Shows m g) (column : x ≤ 48) :
    ∃ m', Shows m' (write g 23 x (colored 0x05 (title b))) ∧ WritesWithin m m' vidmem 4000 ∧
      Returns (fun fuel => sysPrint fuel (nameAt page i) x 23 0x50 m) m' := by
  have fits := off.fits
  have name : b.name.length = 32 := by rw [← holds.name, loadBytes_length]
  have short := length_title_le name
  have plain : enter ∉ title b := fun line => titled.line ((List.takeWhile_sublist _).subset line)
  have text (m' : Mem) (within : WritesWithin m m' vidmem 4000) :
      TextAt (nameAt page i m') 0 (title b) :=
    title_text (holds.agree ((off.agree within).mono (by rw [slot]; omega) (by rw [slot]; omega))
      (by rw [slot]; omega)) titled
  exact sysPrint_shows 0x50 plain text shows (by decide) (by omega)

end Names

/-! ### The walk -/

/-- What the loop finds from `page` on. -/
structure Lists (m : Mem) (page : Nat) (more : List Nat) (listed : List Bee) : Prop where
  reads : Reads m (page :: more) listed
  off : ∀ p ∈ page :: more, OffScreen p
  named : ∀ b ∈ listed, b.Named
  titled : ∀ b ∈ listed, Titled b

section Walk

variable {m m' : Mem} {page i n total : Nat} {more : List Nat} {listed : List Bee}
variable {g : Nat → Nat → Cell} {rows : List (Nat → Cell)}

theorem Lists.agree (lists : Lists m page more listed) (within : WritesWithin m m' vidmem 4000) :
    Lists m' page more listed :=
  ⟨lists.reads.agree (fun p hp => (lists.off p hp).agree within) fun p hp => (lists.off p hp).fits,
    lists.off, lists.named, lists.titled⟩

theorem Lists.next {next : Nat} (lists : Lists m page (next :: more) listed) :
    Lists m next more (listed.drop 14) :=
  ⟨lists.reads.2.2.2.2, fun p hp => lists.off p (List.mem_cons_of_mem _ hp),
    fun b hb => lists.named b (List.mem_of_mem_drop hb),
    fun b hb => lists.titled b (List.mem_of_mem_drop hb)⟩

theorem listLoop_next {fuel next : Nat} (link : nextPage m page = next) (some : next ≠ 0) :
    listLoop (fuel + 1) page 14 total m = listLoop (fuel + 1) next 0 total m := by
  have here : ¬ (14 = 14 ∧ nextPage m page = 0) := fun h => some (link.symm.trans h.2)
  have there : ¬ (0 = 14 ∧ nextPage m next = 0) := by omega
  rw [listLoop, listLoop, if_neg here, if_neg there]
  simp only [link, if_true, show ¬ 0 = 14 by omega, if_false]

/-- A name begins a row. -/
theorem first_shows (empty : g 24 = fun _ => dark) (lists : Lists m page more listed)
    (hi : i < listed.length) (hpage : i < 14) (shows : Shows m (scrolled 24 g rows)) :
    ∃ m', Shows m' (scrolled 24 g (rows ++ [pairRow [title listed[i]]])) ∧
      WritesWithin m m' vidmem 4000 ∧
      Returns (fun fuel => sysPrint fuel (nameAt page i) 0 23 0x50 (sysShift m)) m' := by
  obtain ⟨shifted, within⟩ := sysShift_shows shows
  have lists' := lists.agree within
  obtain ⟨m', shows', within', run⟩ := name_shows (x := 0) (lists'.reads.slot hi hpage) hpage
    (lists.off page List.mem_cons_self) (lists.titled _ (List.getElem_mem hi)) shifted (by decide)
  refine ⟨m', ?_, within.trans within', run⟩
  rw [write_shift, empty] at shows'
  have row : pairRow [title listed[i]] =
      overlay (fun _ => dark) 0 (colored 0x05 (title listed[i])) := overlay_nil _ 33
  rwa [row]

/-- Another one ends it. -/
theorem second_shows {name : List Byte} (lists : Lists m page more listed) (hi : i < listed.length)
    (hpage : i < 14) (shows : Shows m (scrolled 24 g (rows ++ [pairRow [name]]))) :
    ∃ m', Shows m' (scrolled 24 g (rows ++ [pairRow [name, title listed[i]]])) ∧
      WritesWithin m m' vidmem 4000 ∧
      Returns (fun fuel => sysPrint fuel (nameAt page i) 33 23 0x50 m) m' := by
  obtain ⟨m', shows', within, run⟩ := name_shows (x := 33) (lists.reads.slot hi hpage) hpage
    (lists.off page List.mem_cons_self) (lists.titled _ (List.getElem_mem hi)) shows (by decide)
  refine ⟨m', ?_, within, run⟩
  rw [write_scrolled] at shows'
  have row : pairRow [name] = overlay (fun _ => dark) 0 (colored 0x05 name) := overlay_nil _ 33
  rwa [row] at shows'

/-- From a slot on the loop shows these modules, below what it has shown. -/
def Walks (g : Nat → Nat → Cell) (rows : List (Nat → Cell)) (m : Mem) (page i total : Nat)
    (bees : List Bee) : Prop :=
  ∃ m', Shows m' (scrolled 24 g (rows ++ (pairs (bees.map title)).map pairRow)) ∧
    WritesWithin m m' vidmem 4000 ∧
    Returns (fun fuel => listLoop fuel page i total m) (total + bees.length, m')

theorem walks_stop (inside : i < 14) (stop : firstChar m page i = 0)
    (shows : Shows m (scrolled 24 g rows)) : Walks g rows m page i total [] := by
  refine ⟨m, ?_, .refl m _ _, .succ ?_⟩
  · rwa [List.map_nil, pairs, List.map_nil, List.append_nil]
  · simp only [listLoop, show ¬ i = 14 by omega, false_and, if_false, stop, if_true]
    exact .ok _

theorem walks_end (link : nextPage m page = 0) (shows : Shows m (scrolled 24 g rows)) :
    Walks g rows m page 14 total [] := by
  refine ⟨m, ?_, .refl m _ _, .succ ?_⟩
  · rwa [List.map_nil, pairs, List.map_nil, List.append_nil]
  · simp only [listLoop, link, and_self, if_true]
    exact .ok _

theorem Walks.next {next : Nat} {bees : List Bee} (link : nextPage m page = next) (some : next ≠ 0)
    (walks : Walks g rows m next 0 total bees) : Walks g rows m page 14 total bees := by
  obtain ⟨m', shows, within, enough, run⟩ := walks
  refine ⟨m', shows, within, .succ ⟨enough, fun fuel long => ?_⟩⟩
  show listLoop (fuel + 1) page 14 total m = _
  rw [listLoop_next link some]
  exact run (fuel + 1) (Nat.le_succ_of_le long)

/-- The last module has a row to itself. -/
theorem Lists.walks_last (lists : Lists m page more listed) (empty : g 24 = fun _ => dark)
    (last : listed.length = i + 1) (hpage : i + 1 < 14) (shows : Shows m (scrolled 24 g rows)) :
    Walks g rows m page i total [listed[i]] := by
  have first : i < listed.length := by omega
  obtain ⟨m₁, shows₁, within₁, run₁⟩ := first_shows empty lists first (by omega) shows
  have visible := (lists.reads.slot first (by omega)).firstChar_ne
    (lists.named _ (List.getElem_mem first))
  have stop := ((lists.agree within₁).reads.stop (by omega)).2
  rw [last] at stop
  refine ⟨m₁, shows₁, within₁, .succ ?_⟩
  simp only [listLoop, show ¬ i = 14 by omega, false_and, if_false, visible]
  refine run₁.bind ?_
  simp only [stop, if_true]
  exact .ok _

/-- Two modules make a row, and the loop goes on behind them. -/
theorem Lists.walks_pair {bees : List Bee} (lists : Lists m page more listed)
    (empty : g 24 = fun _ => dark) (second : i + 1 < listed.length) (hpage : i + 1 < 14)
    (shows : Shows m (scrolled 24 g rows))
    (later : ∀ m' rows, Lists m' page more listed → Shows m' (scrolled 24 g rows) →
      Walks g rows m' page (i + 2) (total + 1 + 1) bees) :
    Walks g rows m page i total (listed[i] :: listed[i + 1] :: bees) := by
  have first : i < listed.length := by omega
  obtain ⟨m₁, shows₁, within₁, run₁⟩ := first_shows empty lists first (by omega) shows
  have lists₁ := lists.agree within₁
  obtain ⟨m₂, shows₂, within₂, run₂⟩ := second_shows lists₁ second hpage shows₁
  have visible := (lists.reads.slot first (by omega)).firstChar_ne
    (lists.named _ (List.getElem_mem first))
  have visible' := (lists₁.reads.slot second hpage).firstChar_ne
    (lists₁.named _ (List.getElem_mem second))
  obtain ⟨m', shows', within', run⟩ := later m₂ _ (lists₁.agree within₂) shows₂
  refine ⟨m', ?_, (within₁.trans within₂).trans within', .succ ?_⟩
  · rw [List.append_assoc] at shows'
    exact shows'
  · simp only [listLoop, show ¬ i = 14 by omega, false_and, if_false, visible]
    refine run₁.bind ?_
    simp only [visible', if_false]
    refine run₂.bind ?_
    rwa [List.length_cons, List.length_cons,
      show total + (bees.length + 1 + 1) = total + 1 + 1 + bees.length by omega]

/-- Inside a page the loop shows one row, or meets the end of the list. -/
theorem Lists.walks_row (lists : Lists m page more listed) (empty : g 24 = fun _ => dark)
    (hi : i ≤ listed.length) (hpage : i < 14) (even : i % 2 = 0)
    (shows : Shows m (scrolled 24 g rows))
    (later : i + 2 ≤ listed.length → ∀ m' rows, Lists m' page more listed →
      Shows m' (scrolled 24 g rows) →
      Walks g rows m' page (i + 2) (total + 1 + 1) (listed.drop (i + 2))) :
    Walks g rows m page i total (listed.drop i) := by
  by_cases second : i + 1 < listed.length
  · rw [List.drop_eq_getElem_cons (Nat.lt_of_succ_lt second), List.drop_eq_getElem_cons second]
    exact lists.walks_pair empty second (by omega) shows (later second)
  · by_cases first : i < listed.length
    · rw [List.drop_eq_getElem_cons first, List.drop_eq_nil_of_le (by omega)]
      exact lists.walks_last empty (by omega) (by omega) shows
    · obtain rfl : i = listed.length := by omega
      rw [List.drop_eq_nil_of_le (Nat.le_refl _)]
      exact walks_stop hpage (lists.reads.stop hpage).2 shows

/-- The loop from an even slot of a page on. -/
theorem Lists.walks (empty : g 24 = fun _ => dark) (lists : Lists m page more listed)
    (bound : listed.length - i < n) (hi : i ≤ listed.length) (hpage : i ≤ 14) (even : i % 2 = 0)
    (shows : Shows m (scrolled 24 g rows)) : Walks g rows m page i total (listed.drop i) := by
  induction n generalizing m page i more listed rows total with
  | zero => exact absurd bound (Nat.not_lt_zero _)
  | succ n ih =>
      by_cases small : i < 14
      · refine lists.walks_row empty hi small even shows fun some m' rows lists' shows' => ?_
        exact ih lists' (by omega) some (by omega) (by omega) shows'
      · obtain rfl : i = 14 := by omega
        cases more with
        | nil =>
            obtain ⟨hlen, -, -, link⟩ := lists.reads
            have full : listed.length = 14 := by omega
            rw [List.drop_eq_nil_of_le (Nat.le_of_eq full)]
            exact walks_end (link full) shows
        | cons next more =>
            obtain ⟨-, -, link, some, -⟩ := lists.reads
            have count : (listed.drop 14).length = listed.length - 14 := List.length_drop
            refine .next link some ?_
            refine lists.next.walks_row empty (Nat.zero_le _) (by decide) rfl shows
              fun some m' rows lists' shows' => ?_
            exact ih lists' (by omega) some (by decide) rfl shows'

/-- The whole command, on a screen whose input line is empty. -/
theorem listBees_returns (empty : g 24 = fun _ => dark) (lists : Lists m page more listed)
    (few : listed.length < 2 ^ 31) (buf : Buffer) (shows : Shows m g) :
    ∃ m', Shows m' (scrolled 24 g (listing (listed.map title))) ∧
      WritesWithin m m' vidmem 4000 ∧ Returns (fun fuel => listBees fuel page buf m) m' := by
  rw [← scrolled_nil 24 g] at shows
  have walks : Walks g [] m page 0 0 (listed.drop 0) :=
    lists.walks empty (Nat.lt_succ_self _) (Nat.zero_le _) (by decide) rfl shows
  obtain ⟨m₁, shows₁, within₁, run₁⟩ := walks
  obtain ⟨shifted, within₂⟩ := sysShift_shows shows₁
  obtain ⟨m₃, shows₃, within₃, run₃⟩ := sysPrint_fixed 0x20
    (Display.CString.ofList (beesLoaded.map Display.ascii) (by decide)).holds (by decide) shifted
    (show 23 < 25 by decide) (show 0 + 13 ≤ 80 by decide)
  have short := intString_length (v := listed.length) (by omega)
  obtain ⟨m₄, shows₄, within₄, run₄⟩ := sysPrintI_shows (show -2147483648 < (listed.length : Int) by
    omega) (by omega) buf 0x20 shows₃ (show 23 < 25 by decide) (show 13 + _ ≤ 80 by omega)
  refine ⟨m₄, ?_, ((within₁.trans within₂).trans within₃).trans within₄, ?_⟩
  · rw [write_shift, write_scrolled, empty] at shows₄
    have bottom := overlay_append (fun _ => dark) 0 (colored 0x02 (beesLoaded.map Display.ascii))
      (colored 0x02 (decimal.intString minus listed.length))
    rw [listing, List.length_map, countRow, colored, List.map_append]
    exact bottom ▸ shows₄
  · rw [Nat.zero_add, List.drop_zero] at run₁
    exact run₁.bind (run₃.bind run₄)

end Walk

/-- The walk meets the modules in front of the first one without a name. -/
theorem registered_lists {page0 : Nat} {bees : List Bee} {c : Core}
    (registered : Registered page0 bees c) (off : c.memory ≤ vidmem ∨ vidmem + 4000 ≤ page0)
    (titled : ∀ b ∈ namedPrefix bees, Titled b) :
    ∃ more, Lists c.mem page0 more (namedPrefix bees) ∧ (namedPrefix bees).length < 2 ^ 31 := by
  obtain ⟨rest, loaded⟩ := registered.loaded
  obtain ⟨more, inside, reads⟩ := loaded.reads_namedPrefix
  have pages : ∀ p ∈ page0 :: more, p ∈ page0 :: rest :=
    fun p hp => List.cons_subset_cons page0 (fun p => inside p) hp
  have first : ∀ p ∈ page0 :: rest, page0 ≤ p := by
    intro p hp
    obtain rfl | later := List.mem_cons.mp hp
    · exact Nat.le_refl _
    · have := List.rel_of_pairwise_cons loaded.pagesApart later
      omega
  have grown := loaded.grown
  have top := loaded.fits
  have hidden : ∀ p ∈ page0 :: more, OffScreen p := by
    intro p hp
    have below := loaded.pagesBelow p (pages p hp)
    have above := first p (pages p hp)
    exact off.imp (fun low => Nat.le_trans below low) fun high => by omega
  have few := length_namedPrefix_le bees
  exact ⟨more, ⟨reads, hidden, fun _ hb => named_of_mem_namedPrefix hb, titled⟩, by omega⟩

/-- Whatever the loader registered: `list-bees` shows the modules in front of the first one without
a name, all of their names in full and in order, two to a row, and behind them their number. -/
theorem listBees_shows {page0 : Nat} {bees : List Bee} {c : Core} {m : Mem}
    {g : Nat → Nat → Cell} (registered : Registered page0 bees c)
    (off : c.memory ≤ vidmem ∨ vidmem + 4000 ≤ page0) (kept : WritesWithin c.mem m vidmem 4000)
    (titled : ∀ b ∈ namedPrefix bees, Titled b) (buf : Buffer) (shows : Shows m g)
    (empty : g 24 = fun _ => dark) :
    ∃ m', Returns (fun fuel => listBees fuel page0 buf m) m' ∧
      Shows m' (scrolled 24 g (listing ((namedPrefix bees).map title))) ∧
      WritesWithin m m' vidmem 4000 := by
  obtain ⟨more, lists, few⟩ := registered_lists registered off titled
  obtain ⟨m', shows', within, run⟩ := listBees_returns empty (lists.agree kept) few buf shows
  exact ⟨m', run, shows', within⟩

theorem listBees_shows_threeFive : ∃ m',
    Returns (fun fuel => listBees fuel 0x4000 ⟨fun _ => 0, []⟩ (sysClear coreThreeFive.mem)) m' ∧
      Shows m' (scrolled 24 (fun _ _ => dark)
        (listing ((namedPrefix [beeThree, beeFive]).map title))) ∧
      WritesWithin (sysClear coreThreeFive.mem) m' vidmem 4000 := by
  obtain ⟨shows, kept⟩ := sysClear_shows coreThreeFive.mem
  exact listBees_shows registered_three_five (.inl (by decide)) kept (by decide) _ shows rfl

end HiveRK.Control
