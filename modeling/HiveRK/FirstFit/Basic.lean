import Mathlib.Algebra.GroupWithZero.Nat
import Mathlib.Data.List.Basic
import Mathlib.Data.List.Chain
import Mathlib.Data.List.Perm.Basic
import Mathlib.Tactic.Common

/-!
# First-fit allocation in a tiled arena

An arena is a list of adjacent blocks, each some number of units long and either
free or in use. Positions are unit offsets, implied by the lengths in front, so a
gap or an overlap cannot be expressed. `allocate` takes the first free block that
is long enough and keeps the rest of it as a free block; `release` frees a block
and joins it with a free neighbour on either side.

`WellFormed` says that no block is empty and that no two neighbours are both
free. It is what makes one join per side enough. `used` lists the blocks in use,
which is all that an owner of the arena observes.
-/

namespace FirstFit

/-- A stretch of `units` units. -/
structure Block where
  units : Nat
  free : Bool
deriving DecidableEq, Repr

/-- The number of units a list of blocks covers. -/
def span : List Block → Nat
  | [] => 0
  | b :: bs => b.units + span bs

@[simp] theorem span_nil : span [] = 0 := rfl

@[simp] theorem span_cons (b : Block) (bs : List Block) : span (b :: bs) = b.units + span bs := rfl

@[simp] theorem span_append (as bs : List Block) : span (as ++ bs) = span as + span bs := by
  induction as with
  | nil => simp
  | cons a as ih => simp [ih, Nat.add_assoc]

/-- Offset and length of every block in use, from offset `a` on. -/
def used : Nat → List Block → List (Nat × Nat)
  | _, [] => []
  | a, b :: bs => if b.free then used (a + b.units) bs else (a, b.units) :: used (a + b.units) bs

@[simp] theorem used_nil (a : Nat) : used a [] = [] := rfl

theorem used_cons_free {b : Block} (h : b.free = true) (a : Nat) (bs : List Block) :
    used a (b :: bs) = used (a + b.units) bs := by
  simp [used, h]

theorem used_cons_used {b : Block} (h : b.free = false) (a : Nat) (bs : List Block) :
    used a (b :: bs) = (a, b.units) :: used (a + b.units) bs := by
  simp [used, h]

@[simp] theorem used_append (a : Nat) (as bs : List Block) :
    used a (as ++ bs) = used a as ++ used (a + span as) bs := by
  induction as generalizing a with
  | nil => simp
  | cons b as ih =>
      cases h : b.free
      · simp [used_cons_used h, ih, Nat.add_assoc]
      · simp [used_cons_free h, ih, Nat.add_assoc]

/-- The offsets at which the blocks begin. -/
def starts : Nat → List Block → List Nat
  | _, [] => []
  | a, b :: bs => a :: starts (a + b.units) bs

@[simp] theorem starts_nil (a : Nat) : starts a [] = [] := rfl

@[simp] theorem starts_cons (a : Nat) (b : Block) (bs : List Block) :
    starts a (b :: bs) = a :: starts (a + b.units) bs := rfl

@[simp] theorem starts_append (a : Nat) (as bs : List Block) :
    starts a (as ++ bs) = starts a as ++ starts (a + span as) bs := by
  induction as generalizing a with
  | nil => simp
  | cons b as ih => simp [ih, Nat.add_assoc]

theorem mem_starts {a x : Nat} {bs : List Block} :
    x ∈ starts a bs ↔ ∃ pre b post, bs = pre ++ b :: post ∧ x = a + span pre := by
  constructor
  · intro h
    induction bs generalizing a with
    | nil => simp at h
    | cons b bs ih =>
        obtain rfl | h := List.mem_cons.mp h
        · exact ⟨[], b, bs, rfl, rfl⟩
        · obtain ⟨pre, c, post, rfl, rfl⟩ := ih h
          exact ⟨b :: pre, c, post, rfl, by rw [span_cons, Nat.add_assoc]⟩
  · rintro ⟨pre, b, post, rfl, rfl⟩
    simp

/-- The units in free blocks. -/
def freeUnits : List Block → Nat
  | [] => 0
  | b :: bs => (if b.free then b.units else 0) + freeUnits bs

/-- Free units and used units make up the whole arena. -/
theorem freeUnits_add_used (a : Nat) (bs : List Block) :
    freeUnits bs + ((used a bs).map Prod.snd).sum = span bs := by
  induction bs generalizing a with
  | nil => rfl
  | cons b bs ih =>
      have tail := ih (a + b.units)
      cases h : b.free
      · simp only [freeUnits, used_cons_used h, h, List.map_cons, List.sum_cons, span_cons,
          Bool.false_eq_true, if_false]
        omega
      · simp only [freeUnits, used_cons_free h, h, span_cons, if_true]
        omega

/-- Two free neighbours, which ought to be one block. -/
def Joinable (b c : Block) : Prop := b.free = true ∧ c.free = true

/-- No empty block, and no two free neighbours. -/
structure WellFormed (bs : List Block) : Prop where
  pos : ∀ b ∈ bs, 0 < b.units
  joined : bs.IsChain fun b c => ¬ Joinable b c

theorem wellFormed_nil : WellFormed [] := ⟨by simp, List.isChain_nil⟩

theorem wellFormed_cons {b : Block} {bs : List Block} :
    WellFormed (b :: bs) ↔
      0 < b.units ∧ (∀ c ∈ bs.head?, ¬ Joinable b c) ∧ WellFormed bs := by
  constructor
  · rintro ⟨pos, joined⟩
    have head := List.isChain_cons.mp joined
    exact ⟨pos b List.mem_cons_self, head.1,
      ⟨fun c hc => pos c (List.mem_cons_of_mem _ hc), head.2⟩⟩
  · rintro ⟨hb, apart, pos, joined⟩
    exact ⟨List.forall_mem_cons.mpr ⟨hb, pos⟩, List.isChain_cons.mpr ⟨apart, joined⟩⟩

/-- Well-formed pieces fit together when the blocks at the seam are not both free. -/
theorem wellFormed_append {as bs : List Block} :
    WellFormed (as ++ bs) ↔
      WellFormed as ∧ WellFormed bs ∧ ∀ x ∈ as.getLast?, ∀ y ∈ bs.head?, ¬ Joinable x y := by
  constructor
  · rintro ⟨pos, joined⟩
    have parts := List.isChain_append.mp joined
    exact ⟨⟨fun c hc => pos c (List.mem_append_left _ hc), parts.1⟩,
      ⟨fun c hc => pos c (List.mem_append_right _ hc), parts.2.1⟩, parts.2.2⟩
  · rintro ⟨left, right, seam⟩
    refine ⟨?_, List.isChain_append.mpr ⟨left.joined, right.joined, seam⟩⟩
    intro c hc
    obtain hc | hc := List.mem_append.mp hc
    · exact left.pos c hc
    · exact right.pos c hc

/-- A well-formed arena that is one free block. -/
theorem wellFormed_single {b : Block} (h : 0 < b.units) : WellFormed [b] :=
  wellFormed_cons.mpr ⟨h, by simp, wellFormed_nil⟩

theorem not_joinable_of_used_left {b c : Block} (h : b.free = false) : ¬ Joinable b c := by
  simp [Joinable, h]

theorem not_joinable_of_used_right {b c : Block} (h : c.free = false) : ¬ Joinable b c := by
  simp [Joinable, h]

/-! ### Allocation -/

/-- The block list once `req` units are taken from the front of the free block `b`. -/
def split (req : Nat) (b : Block) (bs : List Block) : List Block :=
  ⟨req, false⟩ :: if req < b.units then ⟨b.units - req, true⟩ :: bs else bs

/-- Take the first free block of at least `req` units: its offset and the new blocks. -/
def allocate (req : Nat) : List Block → Option (Nat × List Block)
  | [] => none
  | b :: bs =>
      if b.free ∧ req ≤ b.units then some (0, split req b bs)
      else (allocate req bs).map fun r => (b.units + r.1, b :: r.2)

/-- Every successful allocation splits the first block that fits and keeps the others. -/
theorem allocate_eq_some {req off : Nat} {bs bs' : List Block}
    (h : allocate req bs = some (off, bs')) :
    ∃ pre b post, bs = pre ++ b :: post ∧ (∀ c ∈ pre, ¬ (c.free = true ∧ req ≤ c.units)) ∧
      b.free = true ∧ req ≤ b.units ∧ off = span pre ∧ bs' = pre ++ split req b post := by
  induction bs generalizing off bs' with
  | nil => simp [allocate] at h
  | cons b bs ih =>
      rw [allocate] at h
      split_ifs at h with fit
      · cases h
        exact ⟨[], b, bs, rfl, by simp, fit.1, fit.2, rfl, rfl⟩
      · obtain ⟨⟨off₀, bs₀⟩, rest, heq⟩ := Option.map_eq_some_iff.mp h
        cases heq
        obtain ⟨pre, c, post, rfl, small, hfree, hfit, rfl, rfl⟩ := ih rest
        exact ⟨b :: pre, c, post, rfl, List.forall_mem_cons.mpr ⟨fit, small⟩, hfree, hfit, rfl, rfl⟩

theorem allocate_eq_none {req : Nat} {bs : List Block} :
    allocate req bs = none ↔ ∀ b ∈ bs, ¬ (b.free = true ∧ req ≤ b.units) := by
  induction bs with
  | nil => simp [allocate]
  | cons b bs ih =>
      rw [allocate, List.forall_mem_cons]
      split_ifs with fit
      · exact iff_of_false (by simp) (fun h => h.1 fit)
      · rw [Option.map_eq_none_iff, ih]
        exact (and_iff_right fit).symm

@[simp] theorem span_split {req : Nat} {b : Block} (h : req ≤ b.units) (bs : List Block) :
    span (split req b bs) = b.units + span bs := by
  unfold split
  split_ifs <;> simp <;> omega

theorem used_split {req : Nat} {b : Block} (h : req ≤ b.units) (a : Nat) (bs : List Block) :
    used a (split req b bs) = (a, req) :: used (a + b.units) bs := by
  unfold split
  rw [used_cons_used rfl]
  split_ifs with hlt
  · rw [used_cons_free rfl]
    simp only [Nat.add_assoc, Nat.add_sub_of_le h]
  · rw [show req = b.units by omega]

/-- A split begins one new block, behind the units taken. -/
theorem starts_split {req : Nat} {b : Block} (h : req ≤ b.units) (a : Nat) (bs : List Block) :
    starts a (split req b bs) =
      a :: ((if req < b.units then [a + req] else []) ++ starts (a + b.units) bs) := by
  unfold split
  split_ifs with hlt
  · simp [Nat.add_assoc, Nat.add_sub_of_le h]
  · simp [show req = b.units by omega]

theorem WellFormed.split {req : Nat} {b : Block} {pre post : List Block}
    (h : WellFormed (pre ++ b :: post)) (hfree : b.free = true) (hreq : 0 < req) :
    WellFormed (pre ++ FirstFit.split req b post) := by
  obtain ⟨hpre, hb, _⟩ := wellFormed_append.mp h
  obtain ⟨_, apart, hpost⟩ := wellFormed_cons.mp hb
  have suffix : WellFormed (FirstFit.split req b post) := by
    unfold FirstFit.split
    split_ifs with hlt
    · refine wellFormed_cons.mpr ⟨hreq, fun _ _ => not_joinable_of_used_left rfl,
        wellFormed_cons.mpr ⟨Nat.sub_pos_of_lt hlt, ?_, hpost⟩⟩
      exact fun c hc hjoin => apart c hc ⟨hfree, hjoin.2⟩
    · exact wellFormed_cons.mpr ⟨hreq, fun _ _ => not_joinable_of_used_left rfl, hpost⟩
  refine wellFormed_append.mpr ⟨hpre, suffix, ?_⟩
  intro x _ y hy
  obtain rfl : ⟨req, false⟩ = y := by simpa [FirstFit.split] using hy
  exact not_joinable_of_used_right rfl

section Allocate

variable {req off : Nat} {bs bs' : List Block} {b : Block}

theorem span_allocate (h : allocate req bs = some (off, bs')) : span bs' = span bs := by
  obtain ⟨pre, b, post, rfl, _, _, hfit, _, rfl⟩ := allocate_eq_some h
  simp [span_split hfit]

theorem WellFormed.allocate (wf : WellFormed bs) (hreq : 0 < req)
    (h : allocate req bs = some (off, bs')) : WellFormed bs' := by
  obtain ⟨pre, b, post, rfl, _, hfree, _, _, rfl⟩ := allocate_eq_some h
  exact wf.split hfree hreq

/-- Beside the blocks that were there, at most the remainder of the split begins anew. -/
theorem mem_starts_split {pre post : List Block} {b : Block} (hfit : req ≤ b.units) (a x : Nat) :
    x ∈ starts a (pre ++ split req b post) ↔
      x ∈ starts a (pre ++ b :: post) ∨ req < b.units ∧ x = a + span pre + req := by
  rw [starts_append, starts_append, starts_split hfit, starts_cons]
  split_ifs with hlt
  · simp only [List.mem_append, List.mem_cons, List.not_mem_nil, or_false, hlt, true_and]
    tauto
  · simp [hlt]

/-- Behind the units taken a block begins, or the arena ends. -/
theorem split_boundary (hfit : req ≤ b.units) (pre post : List Block) :
    span pre + req ∈ starts 0 (pre ++ split req b post) ∨
      span pre + req = span (pre ++ b :: post) := by
  by_cases hlt : req < b.units
  · exact .inl (mem_starts.mpr ⟨pre ++ [⟨req, false⟩], ⟨b.units - req, true⟩, post, by
      rw [split, if_pos hlt, List.append_assoc]
      rfl, by simp⟩)
  · have exact : req = b.units := by omega
    cases post with
    | nil => exact .inr (by simp [exact])
    | cons c cs =>
        exact .inl (mem_starts.mpr ⟨pre ++ [⟨req, false⟩], c, cs, by
          rw [split, if_neg hlt, List.append_assoc]
          rfl, by simp⟩)

/-- Allocation adds exactly the new block to the blocks in use. -/
theorem used_allocate (h : allocate req bs = some (off, bs')) (a : Nat) :
    (used a bs').Perm ((a + off, req) :: used a bs) := by
  obtain ⟨pre, b, post, rfl, _, hfree, hfit, rfl, rfl⟩ := allocate_eq_some h
  simp only [used_append, used_split hfit, used_cons_free hfree]
  exact List.perm_middle

end Allocate

/-! ### Release -/

/-- A block of `units` units becomes free in front of `bs`; it takes in a free successor. -/
def joinNext (units : Nat) : List Block → List Block
  | c :: cs => if c.free then ⟨units + c.units, true⟩ :: cs else ⟨units, true⟩ :: c :: cs
  | [] => [⟨units, true⟩]

/-- The free block at the head of `bs` is absorbed by a free predecessor. -/
def joinPrev (pre bs : List Block) : List Block :=
  match pre.getLast?, bs with
  | some l, c :: cs =>
      if l.free then pre.dropLast ++ ⟨l.units + c.units, true⟩ :: cs else pre ++ c :: cs
  | _, _ => pre ++ bs

/-- Free the block of `units` units between `pre` and `post`. -/
def release (pre : List Block) (units : Nat) (post : List Block) : List Block :=
  joinPrev pre (joinNext units post)

@[simp] theorem joinPrev_nil (bs : List Block) : joinPrev [] bs = bs := by
  simp [joinPrev]

theorem joinPrev_concat_free {l : Block} (h : l.free = true) (init : List Block) (c : Block)
    (cs : List Block) :
    joinPrev (init ++ [l]) (c :: cs) = init ++ ⟨l.units + c.units, true⟩ :: cs := by
  simp [joinPrev, h]

theorem joinPrev_concat_used {l : Block} (h : l.free = false) (init bs : List Block) :
    joinPrev (init ++ [l]) bs = init ++ l :: bs := by
  cases bs <;> simp [joinPrev, h]

/-- The freed block and what follows it, as a head and a tail. -/
theorem joinNext_eq_cons (units : Nat) (post : List Block) :
    ∃ total rest, joinNext units post = ⟨total, true⟩ :: rest := by
  unfold joinNext
  split
  · split_ifs <;> exact ⟨_, _, rfl⟩
  · exact ⟨_, _, rfl⟩

@[simp] theorem span_joinNext (units : Nat) (post : List Block) :
    span (joinNext units post) = units + span post := by
  unfold joinNext
  split
  · split_ifs <;> simp [Nat.add_assoc]
  · simp

theorem used_joinNext (a units : Nat) (post : List Block) :
    used a (joinNext units post) = used (a + units) post := by
  unfold joinNext
  split
  · split_ifs with h
    · rw [used_cons_free rfl, used_cons_free h, Nat.add_assoc]
    · rw [used_cons_free rfl]
  · rfl

@[simp] theorem span_joinPrev (pre bs : List Block) :
    span (joinPrev pre bs) = span pre + span bs := by
  obtain rfl | ⟨init, l, rfl⟩ := List.eq_nil_or_concat' pre
  · simp
  · cases h : l.free
    · simp [joinPrev_concat_used h, Nat.add_assoc]
    · cases bs with
      | nil => simp [joinPrev]
      | cons c cs => simp [joinPrev_concat_free h, Nat.add_assoc]

theorem used_joinPrev {c : Block} (hc : c.free = true) (a : Nat) (pre cs : List Block) :
    used a (joinPrev pre (c :: cs)) = used a pre ++ used (a + span pre + c.units) cs := by
  obtain rfl | ⟨init, l, rfl⟩ := List.eq_nil_or_concat' pre
  · simp [used_cons_free hc]
  · cases h : l.free
    · simp [joinPrev_concat_used h, used_cons_used h, used_cons_free hc, Nat.add_assoc]
    · simp [joinPrev_concat_free h, used, h, Nat.add_assoc]

/-- A block that is freed stays well formed with what follows: the only free
successor it can have is taken in. -/
theorem WellFormed.joinNext {u : Block} {post : List Block} (h : WellFormed (u :: post)) :
    WellFormed (FirstFit.joinNext u.units post) := by
  obtain ⟨hu, _, hpost⟩ := wellFormed_cons.mp h
  cases post with
  | nil => exact wellFormed_single hu
  | cons c cs =>
      obtain ⟨hc, apart, hcs⟩ := wellFormed_cons.mp hpost
      rw [FirstFit.joinNext]
      split_ifs with hfree
      · refine wellFormed_cons.mpr ⟨by simp only; omega, ?_, hcs⟩
        exact fun d hd hjoin => apart d hd ⟨hfree, hjoin.2⟩
      · refine wellFormed_cons.mpr ⟨hu, ?_, hpost⟩
        intro d hd
        obtain rfl : c = d := by simpa using hd
        exact not_joinable_of_used_right (by simpa using hfree)

/-- Absorbing into a free predecessor restores the seam. One step is enough,
because that predecessor has no free block in front of it. -/
theorem WellFormed.joinPrev {pre cs : List Block} {c : Block} (hpre : WellFormed pre)
    (hc : WellFormed (c :: cs)) (hfree : c.free = true) :
    WellFormed (FirstFit.joinPrev pre (c :: cs)) := by
  obtain rfl | ⟨init, l, rfl⟩ := List.eq_nil_or_concat' pre
  · simpa using hc
  · obtain ⟨hinit, hl, seam⟩ := wellFormed_append.mp hpre
    have hlpos := (wellFormed_cons.mp hl).1
    obtain ⟨_, apart, hcs⟩ := wellFormed_cons.mp hc
    cases h : l.free
    · rw [joinPrev_concat_used h]
      refine wellFormed_append.mpr ⟨hinit, wellFormed_cons.mpr ⟨hlpos, ?_, hc⟩, ?_⟩
      · exact fun _ _ => not_joinable_of_used_left h
      · intro x hx y hy
        obtain rfl : l = y := by simpa using hy
        exact seam x hx l (by simp)
    · rw [joinPrev_concat_free h]
      refine wellFormed_append.mpr ⟨hinit, wellFormed_cons.mpr ⟨by simp only; omega, ?_, hcs⟩, ?_⟩
      · exact fun d hd hjoin => apart d hd ⟨hfree, hjoin.2⟩
      · intro x hx y _ hjoin
        exact seam x hx l (by simp) ⟨hjoin.1, h⟩

section Release

variable {pre post : List Block} {u : Block}

@[simp] theorem span_release (pre : List Block) (units : Nat) (post : List Block) :
    span (release pre units post) = span pre + (units + span post) := by
  simp [release]

theorem WellFormed.release (h : WellFormed (pre ++ u :: post)) :
    WellFormed (FirstFit.release pre u.units post) := by
  obtain ⟨hpre, hu, _⟩ := wellFormed_append.mp h
  obtain ⟨total, rest, heq⟩ := joinNext_eq_cons u.units post
  have hnext := hu.joinNext
  rw [heq] at hnext
  rw [FirstFit.release, heq]
  exact hpre.joinPrev hnext rfl

/-- Releasing a block removes exactly that block from the blocks in use. -/
theorem used_release (a : Nat) (pre : List Block) (units : Nat) (post : List Block) :
    used a (release pre units post) = used a pre ++ used (a + span pre + units) post := by
  obtain ⟨total, rest, heq⟩ := joinNext_eq_cons units post
  have hnext := used_joinNext (a + span pre) units post
  rw [heq, used_cons_free rfl] at hnext
  rw [release, heq, used_joinPrev rfl, hnext]

theorem starts_joinNext (a units : Nat) (post : List Block) :
    (starts a (joinNext units post)).Sublist (a :: starts (a + units) post) := by
  unfold joinNext
  split
  · split_ifs
    · simp [Nat.add_assoc]
    · exact List.Sublist.refl _
  · exact List.Sublist.refl _

theorem starts_joinPrev (a : Nat) (pre : List Block) (c : Block) (cs : List Block) :
    (starts a (joinPrev pre (c :: cs))).Sublist (starts a (pre ++ c :: cs)) := by
  obtain rfl | ⟨init, l, rfl⟩ := List.eq_nil_or_concat' pre
  · simp
  · cases h : l.free
    · simp [joinPrev_concat_used h]
    · rw [joinPrev_concat_free h, List.append_assoc, starts_append, starts_append]
      refine (List.Sublist.refl _).append ?_
      simp [Nat.add_assoc]

/-- Releasing a block begins no block anew. -/
theorem starts_release (a : Nat) (pre : List Block) (u : Block) (post : List Block) :
    (starts a (release pre u.units post)).Sublist (starts a (pre ++ u :: post)) := by
  obtain ⟨total, rest, heq⟩ := joinNext_eq_cons u.units post
  have hnext := starts_joinNext (a + span pre) u.units post
  rw [heq] at hnext
  have hprev := starts_joinPrev a pre ⟨total, true⟩ rest
  rw [← heq] at hprev
  refine hprev.trans ?_
  rw [heq, starts_append, starts_append]
  exact (List.Sublist.refl _).append hnext

/-- The block in front of a released one still begins where it began. -/
theorem starts_release_before (h : pre ≠ []) (units : Nat) (post : List Block) :
    span pre.dropLast ∈ starts 0 (release pre units post) := by
  obtain ⟨init, l, rfl⟩ := (List.eq_nil_or_concat' pre).resolve_left h
  obtain ⟨total, rest, heq⟩ := joinNext_eq_cons units post
  rw [List.dropLast_concat, release, heq]
  cases hfree : l.free
  · rw [joinPrev_concat_used hfree]
    simp
  · rw [joinPrev_concat_free hfree]
    simp

end Release

/-- Two blocks of one arena are the same block or do not overlap. -/
theorem span_le_of_append_eq {pre pre' post post' : List Block} {b c : Block}
    (h : pre ++ b :: post = pre' ++ c :: post') :
    (pre = pre' ∧ b = c) ∨ span pre + b.units ≤ span pre' ∨ span pre' + c.units ≤ span pre := by
  obtain ⟨mid, rfl, tail⟩ | ⟨mid, rfl, tail⟩ := List.append_eq_append_iff.mp h
  · cases mid with
    | nil =>
        obtain ⟨rfl, _⟩ := List.cons.inj tail
        exact .inl ⟨by simp, rfl⟩
    | cons d mid =>
        obtain ⟨rfl, _⟩ := List.cons.inj tail
        exact .inr (.inl (by simp only [span_append, span_cons]; omega))
  · cases mid with
    | nil =>
        obtain ⟨rfl, _⟩ := List.cons.inj tail
        exact .inl ⟨by simp, rfl⟩
    | cons d mid =>
        obtain ⟨rfl, _⟩ := List.cons.inj tail
        exact .inr (.inr (by simp only [span_append, span_cons]; omega))

/-- A block in use sits at its offset. -/
theorem exists_of_mem_used {a x n : Nat} {bs : List Block} (h : (x, n) ∈ used a bs) :
    ∃ pre post, bs = pre ++ ⟨n, false⟩ :: post ∧ x = a + span pre := by
  induction bs generalizing a with
  | nil => simp at h
  | cons b bs ih =>
      cases hfree : b.free
      · rw [used_cons_used hfree, List.mem_cons] at h
        obtain heq | h := h
        · obtain ⟨rfl, rfl⟩ := Prod.mk.inj heq
          exact ⟨[], bs, by rw [← hfree]; rfl, rfl⟩
        · obtain ⟨pre, post, rfl, rfl⟩ := ih h
          exact ⟨b :: pre, post, rfl, by simp [Nat.add_assoc]⟩
      · rw [used_cons_free hfree] at h
        obtain ⟨pre, post, rfl, rfl⟩ := ih h
        exact ⟨b :: pre, post, rfl, by simp [Nat.add_assoc]⟩

/-- Every block in use begins at or behind the start. -/
theorem le_of_mem_used {a : Nat} {bs : List Block} {u : Nat × Nat} (h : u ∈ used a bs) :
    a ≤ u.1 := by
  obtain ⟨pre, _, _, hx⟩ := exists_of_mem_used (show (u.1, u.2) ∈ used a bs from h)
  omega

/-- The blocks in use follow each other without overlap. -/
theorem used_pairwise (a : Nat) (bs : List Block) :
    (used a bs).Pairwise fun u v => u.1 + u.2 ≤ v.1 := by
  induction bs generalizing a with
  | nil => exact List.Pairwise.nil
  | cons b bs ih =>
      cases hfree : b.free
      · rw [used_cons_used hfree]
        exact List.pairwise_cons.mpr ⟨fun _ hv => le_of_mem_used hv, ih _⟩
      · rw [used_cons_free hfree]
        exact ih _

/-! ### Free runs -/

/-- The `n` units from offset `u` on lie in the arena, and no block in use has any of them. -/
structure FreeRun (bs : List Block) (u n : Nat) : Prop where
  inside : u + n ≤ span bs
  free : ∀ b ∈ used 0 bs, b.1 + b.2 ≤ u ∨ u + n ≤ b.1

section FreeRuns

variable {n u off : Nat} {bs bs' : List Block}

/-- A run of free units lies in one block, because two free blocks are never neighbours. -/
theorem WellFormed.block_of_run (wf : WellFormed bs) {a : Nat} (hn : 0 < n) (lo : a ≤ u)
    (hi : u + n ≤ a + span bs) (free : ∀ b ∈ used a bs, b.1 + b.2 ≤ u ∨ u + n ≤ b.1) :
    ∃ pre b post, bs = pre ++ b :: post ∧ b.free = true ∧ a + span pre ≤ u ∧
      u + n ≤ a + span pre + b.units := by
  induction bs generalizing a with
  | nil =>
      rw [span_nil] at hi
      omega
  | cons b bs ih =>
      obtain ⟨_, apart, tail⟩ := wellFormed_cons.mp wf
      rw [span_cons] at hi
      by_cases later : a + b.units ≤ u
      · have free' : ∀ c ∈ used (a + b.units) bs, c.1 + c.2 ≤ u ∨ u + n ≤ c.1 := by
          intro c hc
          apply free c
          cases h : b.free
          · rw [used_cons_used h]
            exact List.mem_cons_of_mem _ hc
          · rwa [used_cons_free h]
        obtain ⟨pre, c, post, rfl, hfree, first, last⟩ := ih tail later (by omega) free'
        exact ⟨b :: pre, c, post, rfl, hfree, by rw [span_cons]; omega, by rw [span_cons]; omega⟩
      · have hfree : b.free = true := by
          by_contra h
          have own := free (a, b.units) (by
            rw [used_cons_used (by simpa using h)]
            exact List.mem_cons_self)
          simp only at own
          omega
        refine ⟨[], b, bs, rfl, hfree, lo, ?_⟩
        -- Otherwise the run goes on in the next block, which is in use.
        by_contra beyond
        cases bs with
        | nil =>
            simp only [span_nil] at hi beyond
            omega
        | cons c cs =>
            obtain ⟨hc, _, _⟩ := wellFormed_cons.mp tail
            have usedNext : c.free = false := by
              by_contra h
              exact apart c rfl ⟨hfree, by simpa using h⟩
            have own := free (a + b.units, c.units) (by
              rw [used_cons_free hfree, used_cons_used usedNext]
              exact List.mem_cons_self)
            simp only [span_nil] at own beyond
            omega

/-- A block that ends in front of another one is among the blocks in front of it. -/
theorem mem_of_span_le {pre pre' post post' : List Block} {b c : Block}
    (h : pre ++ b :: post = pre' ++ c :: post') (hc : 0 < c.units)
    (before : span pre' + c.units ≤ span pre) : c ∈ pre := by
  obtain ⟨mid, rfl, _⟩ | ⟨mid, rfl, tail⟩ := List.append_eq_append_iff.mp h
  · rw [span_append] at before
    omega
  · cases mid with
    | nil =>
        rw [List.append_nil] at before
        omega
    | cons d mid =>
        obtain ⟨rfl, _⟩ := List.cons.inj tail
        exact List.mem_append_right _ List.mem_cons_self

/-- What `allocate` takes is a free run, and no free run of that length starts before it. -/
theorem WellFormed.allocate_first (wf : WellFormed bs) (hn : 0 < n)
    (h : FirstFit.allocate n bs = some (off, bs')) :
    FreeRun bs off n ∧ ∀ u, FreeRun bs u n → off ≤ u := by
  obtain ⟨pre, b, post, rfl, small, hfree, hfit, rfl, _⟩ := allocate_eq_some h
  refine ⟨⟨?_, ?_⟩, ?_⟩
  · rw [span_append, span_cons]
    omega
  · rintro ⟨x, k⟩ hx
    obtain ⟨pre', post', heq, hpos⟩ := exists_of_mem_used hx
    obtain ⟨_, rfl⟩ | behind | before := span_le_of_append_eq heq
    · exact absurd hfree (by simp)
    · exact .inr (by simp only; omega)
    · simp only at before
      exact .inl (by simp only; omega)
  · intro u run
    obtain ⟨pre', c, post', heq, cfree, first, last⟩ :=
      wf.block_of_run hn (Nat.zero_le u) (by rw [Nat.zero_add]; exact run.inside) run.free
    rw [Nat.zero_add] at first last
    obtain ⟨rfl, _⟩ | behind | before := span_le_of_append_eq heq
    · exact first
    · omega
    · have cpos : 0 < c.units := wf.pos c (by simp [heq])
      exact absurd ⟨cfree, by omega⟩ (small c (mem_of_span_le heq cpos before))

/-- `allocate` fails only if there is no free run at all. -/
theorem WellFormed.allocate_none (wf : WellFormed bs) (hn : 0 < n)
    (h : FirstFit.allocate n bs = none) (u : Nat) : ¬ FreeRun bs u n := by
  intro run
  obtain ⟨pre, b, post, rfl, hfree, first, last⟩ :=
    wf.block_of_run hn (Nat.zero_le u) (by rw [Nat.zero_add]; exact run.inside) run.free
  exact allocate_eq_none.mp h b (by simp) ⟨hfree, by omega⟩

end FreeRuns

end FirstFit
