import HiveRK.FirstFit.Basic

/-!
# The blocks in use determine the arena

A well-formed arena has no choice in how its free space is cut into blocks: what lies
between two blocks in use is one free block. Two arenas of one length with the same blocks
in use are therefore equal, whatever sequence of splits and joins led to them.
-/

namespace FirstFit

attribute [ext] Block

/-- Where the first block in use begins, or the arena ends. -/
def firstUsed (a : Nat) (bs : List Block) : Nat :=
  ((used a bs).head?.map Prod.fst).getD (a + span bs)

theorem firstUsed_cons_used {b : Block} (h : b.free = false) (a : Nat) (bs : List Block) :
    firstUsed a (b :: bs) = a := by
  rw [firstUsed, used_cons_used h]
  rfl

theorem firstUsed_cons_free {b : Block} (h : b.free = true) (a : Nat) (bs : List Block) :
    firstUsed a (b :: bs) = firstUsed (a + b.units) bs := by
  rw [firstUsed, firstUsed, used_cons_free h, span_cons, Nat.add_assoc]

section WellFormed

variable {bs bs' : List Block} {b : Block}

/-- A free block reaches up to the first block in use. -/
theorem WellFormed.firstUsed_eq (wf : WellFormed (b :: bs)) (hfree : b.free = true) (a : Nat) :
    firstUsed a (b :: bs) = a + b.units := by
  obtain ⟨_, apart, _⟩ := wellFormed_cons.mp wf
  rw [firstUsed_cons_free hfree]
  cases bs with
  | nil => rfl
  | cons c cs =>
      apply firstUsed_cons_used
      by_contra h
      exact apart c rfl ⟨hfree, by simpa using h⟩

/-- Well-formed arenas of one length with the same blocks in use are the same. -/
theorem WellFormed.ext (wf : WellFormed bs) (wf' : WellFormed bs') {a : Nat}
    (same : used a bs = used a bs') (total : span bs = span bs') : bs = bs' := by
  induction bs generalizing a bs' with
  | nil =>
      cases bs' with
      | nil => rfl
      | cons c cs =>
          have hc := (wellFormed_cons.mp wf').1
          rw [span_nil, span_cons] at total
          omega
  | cons b bs ih =>
      cases bs' with
      | nil =>
          have hb := (wellFormed_cons.mp wf).1
          rw [span_nil, span_cons] at total
          omega
      | cons c cs =>
          obtain ⟨hb, _, tail⟩ := wellFormed_cons.mp wf
          obtain ⟨hc, _, tail'⟩ := wellFormed_cons.mp wf'
          have first : firstUsed a (b :: bs) = firstUsed a (c :: cs) := by
            rw [firstUsed, firstUsed, same, total]
          rw [span_cons, span_cons] at total
          cases hfree : b.free with
          | false =>
              cases hfree' : c.free with
              | false =>
                  rw [used_cons_used hfree, used_cons_used hfree'] at same
                  obtain ⟨heq, rest⟩ := List.cons.inj same
                  have units : b.units = c.units := congrArg Prod.snd heq
                  rw [← units] at rest
                  rw [ih tail tail' rest (by omega), Block.ext units (hfree.trans hfree'.symm)]
              | true =>
                  rw [firstUsed_cons_used hfree, wf'.firstUsed_eq hfree'] at first
                  omega
          | true =>
              cases hfree' : c.free with
              | false =>
                  rw [firstUsed_cons_used hfree', wf.firstUsed_eq hfree] at first
                  omega
              | true =>
                  rw [wf.firstUsed_eq hfree, wf'.firstUsed_eq hfree'] at first
                  have units : b.units = c.units := by omega
                  rw [used_cons_free hfree, used_cons_free hfree', ← units] at same
                  rw [ih tail tail' same (by omega), Block.ext units (hfree.trans hfree'.symm)]

end WellFormed

/-- With the offsets in order, the blocks in use are known from their set. -/
theorem used_eq_of_perm {bs bs' : List Block} (pos : ∀ b ∈ bs, 0 < b.units) {a : Nat}
    (same : (used a bs).Perm (used a bs')) : used a bs = used a bs' := by
  refine List.Perm.eq_of_pairwise ?_ (used_pairwise a bs) (used_pairwise a bs') same
  intro u v hu _ h h'
  obtain ⟨pre, post, heq, _⟩ := exists_of_mem_used (show (u.1, u.2) ∈ used a bs from hu)
  have hpos : 0 < u.2 := pos ⟨u.2, false⟩ (by simp [heq])
  omega

end FirstFit
