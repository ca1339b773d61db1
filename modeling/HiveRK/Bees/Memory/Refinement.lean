import HiveRK.Bees.Memory.Basic
import HiveRK.FirstFit.Basic

/-!
# The header list implements a first-fit arena

`BlockList m a bs stop` reads the headers at `a` and behind it as the arena `bs`: every
block's header holds its length and its flag, and its `next` is the address of the
following block, the last one's being `stop`. The lemmas about `kmallocLoop`,
`mergeNext` and `mergeLast` then say that the three edits of memory.c are the list
operations `allocate` and `release`, and which bytes they write.
-/

namespace HiveRK.Memory

open Machine FirstFit

variable {m m' : Mem} {a stop : Nat} {b c : Block} {bs pre post : List Block}

/-- The header at `a`: its length, its flag and its link. -/
structure HeaderAt (m : Mem) (a n : Nat) (isFree : Bool) (link : Nat) : Prop where
  units : units m a = n
  free : free m a = if isFree then 1 else 0
  next : next m a = link

/-- The address of the block list `bs` that starts at `a`, or `stop` when it is empty. -/
def cursor (stop a : Nat) : List Block → Nat
  | [] => stop
  | _ :: _ => a

/-- The headers from `a` on are the block list `bs`, the last one linking to `stop`. -/
def BlockList (m : Mem) : Nat → List Block → Nat → Prop
  | _, [], _ => True
  | a, b :: bs, stop =>
      HeaderAt m a b.units b.free (cursor stop (a + 64 * b.units) bs) ∧
        BlockList m (a + 64 * b.units) bs stop

@[simp] theorem cursor_nil (stop a : Nat) : cursor stop a [] = stop := rfl

@[simp] theorem cursor_cons (stop a : Nat) (b : Block) (bs : List Block) :
    cursor stop a (b :: bs) = a := rfl

theorem cursor_append (stop a : Nat) (pre : List Block) (hpost : post ≠ []) :
    cursor stop a (pre ++ post) = a := by
  obtain ⟨b, bs, heq⟩ :=
    List.exists_cons_of_ne_nil (List.append_ne_nil_of_right_ne_nil pre hpost)
  rw [heq, cursor_cons]

@[simp] theorem blockList_nil : BlockList m a [] stop := trivial

theorem blockList_cons :
    BlockList m a (b :: bs) stop ↔
      HeaderAt m a b.units b.free (cursor stop (a + 64 * b.units) bs) ∧
        BlockList m (a + 64 * b.units) bs stop := Iff.rfl

/-- A list splits at any block: the front part links to the first block of the rest. -/
theorem blockList_append :
    BlockList m a (pre ++ post) stop ↔
      BlockList m a pre (cursor stop (a + 64 * span pre) post) ∧
        BlockList m (a + 64 * span pre) post stop := by
  induction pre generalizing a with
  | nil => simp
  | cons b pre ih =>
      have seam : cursor stop (a + 64 * b.units) (pre ++ post) =
          cursor (cursor stop (a + 64 * span (b :: pre)) post) (a + 64 * b.units) pre := by
        cases pre <;> simp
      have shift : a + 64 * span (b :: pre) = a + 64 * b.units + 64 * span pre := by
        rw [span_cons]
        omega
      rw [List.cons_append, blockList_cons, blockList_cons, ih, ← seam, shift, and_assoc]

/-- A header is read from its first eight bytes only. -/
theorem HeaderAt.agree {n link : Nat} {f : Bool} (h : HeaderAt m a n f link)
    (same : AgreeOn m m' a 8) (fits : a + 8 ≤ 2 ^ 32) : HeaderAt m' a n f link :=
  ⟨(same.load (by omega) (by omega) (by omega)).trans h.units,
    (same.load (by omega) (by omega) (by omega)).trans h.free,
    (same.load (by omega) (by omega) (by omega)).trans h.next⟩

/-- A block list depends on its headers alone. -/
theorem BlockList.agree_headers (h : BlockList m a bs stop)
    (same : ∀ pre b post, bs = pre ++ b :: post → AgreeOn m m' (a + 64 * span pre) 8)
    (pos : ∀ b ∈ bs, 0 < b.units) (fits : a + 64 * span bs ≤ 2 ^ 32) :
    BlockList m' a bs stop := by
  induction bs generalizing a with
  | nil => trivial
  | cons b bs ih =>
      obtain ⟨hb, hbs⟩ := List.forall_mem_cons.mp pos
      rw [span_cons] at fits
      refine ⟨h.1.agree (same [] b bs rfl) (by omega), ih h.2 ?_ hbs (by omega)⟩
      intro pre c post heq
      have shifted := same (b :: pre) c post (by rw [heq]; rfl)
      rwa [span_cons, Nat.mul_add, ← Nat.add_assoc] at shifted

/-- A list of nonempty blocks survives every change outside the range it covers. -/
theorem BlockList.agree (h : BlockList m a bs stop) (pos : ∀ b ∈ bs, 0 < b.units)
    (same : AgreeOn m m' a (64 * span bs)) (fits : a + 64 * span bs ≤ 2 ^ 32) :
    BlockList m' a bs stop := by
  refine h.agree_headers ?_ pos fits
  rintro pre b post rfl
  have hb : 0 < b.units := pos b (by simp)
  rw [span_append, span_cons] at same
  exact same.mono (by omega) (by omega)

/-! ### The allocation step -/

/-- Setting the flag keeps the rest of the header. -/
theorem headerAt_setFree {n link : Nat} {f : Bool} (h : HeaderAt m a n f link) {v : Nat} (f' : Bool)
    (hv : v = if f' then 1 else 0) (fits : a + 8 ≤ 2 ^ 32) :
    HeaderAt (setFree m a v) a n f' link ∧ WritesWithin m (setFree m a v) a 8 := by
  subst hv
  refine ⟨⟨?_, ?_, ?_⟩, WritesWithin.store (by omega) (by omega) (by omega)⟩
  · rw [← h.units]
    exact load_store_of_disjoint m (by omega) (by omega) (by omega)
  · exact load_store_self m (by omega) (by cases f' <;> decide)
  · rw [← h.next]
    exact load_store_of_disjoint m (by omega) (by omega) (by omega)

/-- Splitting leaves two adjacent headers: the taken block in front, the rest of the
free block behind it, and no other byte changed. -/
theorem headerAt_split {n req link : Nat} {f : Bool} (h : HeaderAt m a n f link)
    (hlink : link < 2 ^ 32) (hreq : 0 < req) (hlt : req < n) (hn : n < 2 ^ 16)
    (fits : a + 64 * n ≤ 2 ^ 32) :
    HeaderAt (setFree (splitBlock m a req) a 0) a req false (a + 64 * req) ∧
      HeaderAt (setFree (splitBlock m a req) a 0) (a + 64 * req) (n - req) true link ∧
      WritesWithin m (setFree (splitBlock m a req) a 0) a (64 * n) := by
  obtain ⟨hunits, _, hnext⟩ := h
  have hs : u32 (a + req * 64) = a + 64 * req := by
    rw [u32_of_lt (by omega)]
    omega
  simp only [units, next] at hunits hnext
  simp only [splitBlock, hs]
  refine ⟨⟨?_, ?_, ?_⟩, ⟨?_, ?_, ?_⟩, ?_⟩
  · simp (disch := omega) only [units, setFree, setNext, setUnits, load_store_of_disjoint,
      load_store_self]
  · simp (disch := omega) only [free, setFree, load_store_self]
    rfl
  · simp (disch := omega) only [next, setFree, setNext, load_store_of_disjoint, load_store_self]
  · simp (disch := omega) only [units, setFree, setNext, setUnits, load_store_of_disjoint,
      load_store_self, hunits]
  · simp (disch := omega) only [free, setFree, setNext, setUnits, load_store_of_disjoint,
      load_store_self]
    rfl
  · simp (disch := omega) only [next, setFree, setNext, setUnits, load_store_of_disjoint,
      load_store_self, hnext]
  · have written := WritesWithin.refl m a (64 * n)
    iterate 6 refine WritesWithin.andStore ?_ (by omega) (by omega) (by omega)
    exact written

/-- The loop steps over a free-list prefix in which no block is long enough. -/
theorem kmallocLoop_skip {req : Nat} (list : BlockList m a (pre ++ post) stop)
    (small : ∀ b ∈ pre, ¬ (b.free = true ∧ req ≤ b.units)) (ha : pre ≠ [] → a ≠ 0) (fuel : Nat) :
    kmallocLoop req (fuel + pre.length) m (cursor stop a (pre ++ post)) =
      kmallocLoop req fuel m (cursor stop (a + 64 * span pre) post) := by
  induction pre generalizing a with
  | nil => simp
  | cons b pre ih =>
      rw [List.cons_append, blockList_cons] at list
      obtain ⟨head, tail⟩ := list
      obtain ⟨hb, hpre⟩ := List.forall_mem_cons.mp small
      have nonzero : a ≠ 0 := ha (List.cons_ne_nil b pre)
      have guard : ¬ (free m a ≠ 0 ∧ req ≤ units m a) := by
        rw [head.free, head.units]
        cases hf : b.free
        · simp
        · simpa [hf] using hb
      have step : kmallocLoop req (fuel + (pre.length + 1)) m a =
          kmallocLoop req (fuel + pre.length) m (next m a) := by
        rw [← Nat.add_assoc, kmallocLoop, if_neg nonzero, if_neg guard]
      rw [List.cons_append, cursor_cons, List.length_cons, step, head.next,
        ih tail hpre (fun _ => by omega), span_cons, Nat.mul_add, Nat.add_assoc]

/-- A fitting block under the cursor is taken. -/
theorem kmallocLoop_take {req : Nat} (list : BlockList m a (b :: post) stop) (ha : a ≠ 0)
    (hreq : 0 < req) (hfree : b.free = true) (hfit : req ≤ b.units) (hb : b.units < 2 ^ 16)
    (hstop : stop < 2 ^ 32) (pos : ∀ c ∈ post, 0 < c.units)
    (fits : a + 64 * span (b :: post) < 2 ^ 32) (fuel : Nat) :
    ∃ m', kmallocLoop req (fuel + 1) m a = .ok (m', a + 8) ∧
      BlockList m' a (split req b post) stop ∧ WritesWithin m m' a (64 * b.units) := by
  obtain ⟨head, tail⟩ := list
  rw [span_cons] at fits
  have hunits := head.units
  have guard : free m a ≠ 0 ∧ req ≤ units m a := by
    rw [head.free, hunits, hfree]
    exact ⟨by decide, hfit⟩
  have hptr : u32 (a + 8) = a + 8 := u32_of_lt (by omega)
  have hlink : cursor stop (a + 64 * b.units) post < 2 ^ 32 := by
    cases post
    · exact hstop
    · rw [cursor_cons]
      omega
  rw [kmallocLoop, if_neg ha, if_pos guard, hunits, hptr]
  by_cases hlt : req < b.units
  · obtain ⟨taken, rest, written⟩ := headerAt_split head hlink hreq hlt hb (by omega)
    refine ⟨_, by rw [if_pos hlt], ?_, written⟩
    have behind : a + 64 * req + 64 * (b.units - req) = a + 64 * b.units := by omega
    rw [split, if_pos hlt, blockList_cons, blockList_cons]
    refine ⟨taken, ?_, ?_⟩
    · simpa only [behind] using rest
    · simp only [behind]
      exact tail.agree pos (written.agreeOn (by omega)) (by omega)
  · obtain ⟨taken, written⟩ := headerAt_setFree head false (rfl : 0 = _) (by omega)
    have exact : req = b.units := by omega
    refine ⟨_, by rw [if_neg hlt], ?_, written.mono (Nat.le_refl _) (by omega)⟩
    rw [split, if_neg hlt, exact, blockList_cons]
    exact ⟨taken, tail.agree pos (written.agreeOn (by omega)) (by omega)⟩

/-- With no fitting block the loop runs off the list and changes nothing. -/
theorem kmallocLoop_none {req fuel : Nat} (list : BlockList m a bs 0) (ha : a ≠ 0)
    (none : allocate req bs = none) (hfuel : bs.length < fuel) :
    kmallocLoop req fuel m (cursor 0 a bs) = .ok (m, 0) := by
  obtain ⟨rest, rfl⟩ : ∃ rest, fuel = rest + 1 + bs.length := ⟨fuel - bs.length - 1, by omega⟩
  have whole : BlockList m a (bs ++ []) 0 := by simpa using list
  have skipped := kmallocLoop_skip whole (allocate_eq_none.mp none) (fun _ => ha) (rest + 1)
  rw [List.append_nil, cursor_nil] at skipped
  rw [skipped, kmallocLoop, if_pos rfl]

/-- The loop performs `allocate`, and writes only inside the free block it found. -/
theorem kmallocLoop_some {req off fuel : Nat} {bs' : List Block} (list : BlockList m a bs 0)
    (ha : a ≠ 0) (some : allocate req bs = some (off, bs')) (hreq : 0 < req)
    (wf : WellFormed bs) (hspan : span bs < 2 ^ 16) (fits : a + 64 * span bs < 2 ^ 32)
    (hfuel : bs.length < fuel) :
    ∃ m' pre b post, kmallocLoop req fuel m (cursor 0 a bs) = .ok (m', a + 64 * off + 8) ∧
      BlockList m' a bs' 0 ∧ bs = pre ++ b :: post ∧ b.free = true ∧ off = span pre ∧
      WritesWithin m m' (a + 64 * span pre) (64 * b.units) := by
  obtain ⟨pre, b, post, rfl, small, hfree, hfit, rfl, rfl⟩ := allocate_eq_some some
  obtain ⟨front, back⟩ := blockList_append.mp list
  obtain ⟨prewf, postwf, _⟩ := wellFormed_append.mp wf
  rw [span_append, span_cons] at hspan fits
  rw [List.length_append, List.length_cons] at hfuel
  obtain ⟨rest, rfl⟩ : ∃ rest, fuel = rest + 1 + pre.length := ⟨fuel - pre.length - 1, by omega⟩
  obtain ⟨m', taken, done, written⟩ := kmallocLoop_take back (by omega) hreq hfree hfit (by omega)
    (by decide) (wellFormed_cons.mp postwf).2.2.pos (by rw [span_cons]; omega) rest
  refine ⟨m', pre, b, post, ?_, ?_, rfl, hfree, rfl, written⟩
  · rw [kmallocLoop_skip list small (fun _ => ha), cursor_cons, taken]
  · refine blockList_append.mpr ⟨front.agree prewf.pos (written.agreeOn (by omega)) (by omega), ?_⟩
    exact done

/-! ### The release steps -/

theorem cursor_lt (h : a + 64 * span bs < 2 ^ 32) : cursor 0 a bs < 2 ^ 32 := by
  cases bs
  · exact Nat.two_pow_pos 32
  · rw [cursor_cons]
    omega

/-- `absorb` writes one header, which then spans both blocks. -/
theorem headerAt_absorb {p q n k lp lq : Nat} (hp : HeaderAt m p n true lp)
    (hq : HeaderAt m q k true lq) (apart : p + 8 ≤ q) (hsum : n + k < 2 ^ 16)
    (hlink : lq < 2 ^ 32) (fits : q + 8 ≤ 2 ^ 32) :
    HeaderAt (absorb m p q) p (n + k) true lq ∧ WritesWithin m (absorb m p q) p 8 := by
  have link : next (setUnits m p (n + k)) q = lq := by
    rw [← hq.next]
    exact load_store_of_disjoint m (by omega) (by omega) (by omega)
  have hfree := hp.free
  simp only [free] at hfree
  simp only [absorb, hp.units, hq.units, link]
  refine ⟨⟨?_, ?_, ?_⟩, ?_⟩
  · simp (disch := omega) only [units, setNext, setUnits, load_store_of_disjoint, load_store_self]
  · simp (disch := omega) only [free, setNext, setUnits, load_store_of_disjoint, hfree]
  · simp (disch := omega) only [next, setNext, load_store_self]
  · have written := WritesWithin.refl m p 8
    iterate 2 refine WritesWithin.andStore ?_ (by omega) (by omega) (by omega)
    exact written

/-- The forward merge is `joinNext`; it writes at most the freed block's own header. -/
theorem blockList_mergeNext {n : Nat} (head : HeaderAt m a n true (cursor 0 (a + 64 * n) post))
    (tail : BlockList m (a + 64 * n) post 0) (hn : 0 < n) (pos : ∀ b ∈ post, 0 < b.units)
    (hspan : n + span post < 2 ^ 16) (fits : a + 64 * (n + span post) < 2 ^ 32) :
    BlockList (mergeNext m a) a (joinNext n post) 0 ∧ WritesWithin m (mergeNext m a) a 8 := by
  cases post with
  | nil =>
      have stays : mergeNext m a = m := by
        rw [mergeNext, head.next, if_neg (by simp)]
      rw [stays, joinNext]
      exact ⟨⟨head, trivial⟩, WritesWithin.refl m a 8⟩
  | cons c cs =>
      obtain ⟨nextHead, nextTail⟩ := tail
      obtain ⟨hc, hcs⟩ := List.forall_mem_cons.mp pos
      rw [span_cons] at hspan fits
      have hlink : next m a = a + 64 * n := head.next
      cases hfree : c.free
      · have stays : mergeNext m a = m := by
          rw [mergeNext, hlink, nextHead.free, hfree, if_neg (by simp)]
        rw [stays, joinNext, if_neg (by simp [hfree])]
        exact ⟨⟨head, nextHead, nextTail⟩, WritesWithin.refl m a 8⟩
      · have guard : next m a ≠ 0 ∧ free m (next m a) ≠ 0 := by
          rw [hlink, nextHead.free, hfree]
          exact ⟨by omega, by decide⟩
        have merges : mergeNext m a = absorb m a (a + 64 * n) := by
          rw [mergeNext, if_pos guard, hlink]
        rw [hfree] at nextHead
        obtain ⟨joined, written⟩ := headerAt_absorb head nextHead (by omega) (by omega)
          (cursor_lt (by omega)) (by omega)
        have behind : a + 64 * n + 64 * c.units = a + 64 * (n + c.units) := by omega
        rw [behind] at joined nextTail
        rw [merges, joinNext, if_pos hfree]
        exact ⟨⟨joined, nextTail.agree hcs (written.agreeOn (by omega)) (by omega)⟩, written⟩

/-- The search stops at `block` and returns the block before it, or `last` if there is none. -/
theorem findLast_eq (last : Nat) {fuel : Nat} (list : BlockList m a (pre ++ post) stop)
    (pos : ∀ b ∈ pre, 0 < b.units) (hpost : post ≠ []) (hfuel : pre.length < fuel) :
    findLast (a + 64 * span pre) fuel m last a =
      .ok (if pre = [] then last else a + 64 * span pre.dropLast) := by
  induction pre generalizing a last fuel with
  | nil =>
      obtain ⟨fuel, rfl⟩ : ∃ k, fuel = k + 1 := ⟨fuel - 1, by simp at hfuel; omega⟩
      simp [findLast]
  | cons b pre ih =>
      obtain ⟨fuel, rfl⟩ : ∃ k, fuel = k + 1 := ⟨fuel - 1, by simp at hfuel; omega⟩
      rw [List.cons_append, blockList_cons] at list
      obtain ⟨head, tail⟩ := list
      obtain ⟨hb, hpre⟩ := List.forall_mem_cons.mp pos
      have more := cursor_append stop (a + 64 * b.units) pre hpost
      have shift : a + 64 * span (b :: pre) = a + 64 * b.units + 64 * span pre := by
        rw [span_cons]
        omega
      rw [findLast, if_neg (by rw [span_cons]; omega), head.next, more, shift,
        ih _ tail hpre (by simpa using hfuel), if_neg (List.cons_ne_nil b pre)]
      cases pre with
      | nil => simp
      | cons c cs =>
          rw [if_neg (List.cons_ne_nil c cs), List.dropLast_cons_cons, span_cons]
          congr 1
          omega

/-- From `cur`, the search of `kfree` comes to `block` in fewer than `k` links, and
before it comes to null. -/
def Meets (m : Mem) (block : Nat) : Nat → Nat → Prop
  | 0, _ => False
  | k + 1, cur => cur = block ∨ cur ≠ 0 ∧ Meets m block k (next m cur)

theorem meets_blockList {k : Nat} (list : BlockList m a (pre ++ post) stop) (ha : a ≠ 0)
    (hpost : post ≠ []) (hk : pre.length < k) : Meets m (a + 64 * span pre) k a := by
  induction pre generalizing a k with
  | nil =>
      obtain ⟨k, rfl⟩ : ∃ j, k = j + 1 := ⟨k - 1, by simp at hk; omega⟩
      exact .inl rfl
  | cons b pre ih =>
      obtain ⟨k, rfl⟩ : ∃ j, k = j + 1 := ⟨k - 1, by simp at hk; omega⟩
      rw [List.cons_append, blockList_cons] at list
      obtain ⟨head, tail⟩ := list
      have more := cursor_append stop (a + 64 * b.units) pre hpost
      have shift : a + 64 * span (b :: pre) = a + 64 * b.units + 64 * span pre := by
        rw [span_cons]
        omega
      refine .inr ⟨ha, ?_⟩
      rw [head.next, more, shift]
      exact ih tail (by omega) (by simpa using hk)

/-- The backward merge is `joinPrev`; it writes at most the header of the block before. -/
theorem blockList_mergeLast {pre cs : List Block} {n : Nat}
    (list : BlockList m a (pre ++ ⟨n, true⟩ :: cs) 0) (ha : a ≠ 0)
    (pos : ∀ b ∈ pre ++ ⟨n, true⟩ :: cs, 0 < b.units)
    (hspan : span pre + (n + span cs) < 2 ^ 16)
    (fits : a + 64 * (span pre + (n + span cs)) < 2 ^ 32) {last : Nat}
    (hlast : last = if pre = [] then 0 else a + 64 * span pre.dropLast) :
    BlockList (mergeLast m last (a + 64 * span pre)) a (joinPrev pre (⟨n, true⟩ :: cs)) 0 ∧
      WritesWithin m (mergeLast m last (a + 64 * span pre)) (a + 64 * span pre.dropLast) 8 := by
  obtain rfl | ⟨init, l, rfl⟩ := List.eq_nil_or_concat' pre
  · have stays : mergeLast m last (a + 64 * span []) = m := by
      rw [hlast, mergeLast, if_pos rfl, if_neg (by simp)]
    rw [stays, joinPrev_nil]
    exact ⟨list, WritesWithin.refl _ _ _⟩
  · rw [if_neg (by simp), List.dropLast_concat] at hlast
    have posInit : ∀ b ∈ init, 0 < b.units := fun b hb => pos b (by simp [hb])
    have posRest : ∀ b ∈ cs, 0 < b.units := fun b hb => pos b (by simp [hb])
    have hl : 0 < l.units := pos l (by simp)
    have hn : 0 < n := pos ⟨n, true⟩ (by simp)
    obtain ⟨front, back⟩ := blockList_append.mp (List.append_assoc init _ _ ▸ list)
    obtain ⟨lastHead, freedHead, rest⟩ := back
    simp only [span_append, span_cons, span_nil, Nat.add_zero] at hspan fits freedHead rest ⊢
    have block : a + 64 * (span init + l.units) = a + 64 * span init + 64 * l.units := by omega
    rw [List.dropLast_concat, block, hlast]
    cases hfree : l.free
    · have stays : mergeLast m (a + 64 * span init) (a + 64 * span init + 64 * l.units) = m := by
        rw [mergeLast, lastHead.free, hfree, if_neg (by simp)]
      rw [stays, joinPrev_concat_used hfree]
      exact ⟨by simpa using list, WritesWithin.refl _ _ _⟩
    · have guard : a + 64 * span init ≠ 0 ∧ free m (a + 64 * span init) ≠ 0 := by
        rw [lastHead.free, hfree]
        exact ⟨by omega, by decide⟩
      rw [hfree] at lastHead
      obtain ⟨joined, written⟩ := headerAt_absorb lastHead freedHead (by omega)
        (by omega) (cursor_lt (by omega)) (by omega)
      have behind : a + 64 * span init + 64 * l.units + 64 * n =
          a + 64 * span init + 64 * (l.units + n) := by omega
      rw [behind] at joined rest
      rw [mergeLast, if_pos guard, joinPrev_concat_free hfree]
      refine ⟨blockList_append.mpr ⟨?_, joined, ?_⟩, written⟩
      · exact front.agree posInit (written.agreeOn (by omega)) (by omega)
      · exact rest.agree posRest (written.agreeOn (by omega)) (by omega)

end HiveRK.Memory
