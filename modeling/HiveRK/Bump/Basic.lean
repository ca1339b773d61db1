import Mathlib.Algebra.GroupWithZero.Nat
import Mathlib.Data.List.Basic
import Mathlib.Tactic.Common

/-!
# Bump allocation

Memory is carved into regions from a pointer that only moves up. A step declares what it
carves, which bytes of older regions it fills, and how far it writes above the new pointer
for nothing; it is sound if it keeps to that. In a history of sound steps the regions are
apart, and an older region changes only where a step declared it.
-/

namespace Bump

universe u v

/-- A range of cells that was reserved for something. -/
structure Region (κ : Type u) where
  kind : κ
  start : Nat
  size : Nat
deriving DecidableEq, Repr

def Region.Has {κ : Type u} (r : Region κ) (x : Nat) : Prop := r.start ≤ x ∧ x < r.start + r.size

/-- No cell is in both regions. -/
def Region.Apart {κ : Type u} (r r' : Region κ) : Prop := ∀ x, r.Has x → ¬ r'.Has x

/-- A step from the pointer `top` and the contents `mem` to `top'` and `mem'`. -/
structure Step (κ : Type u) (β : Type v) where
  top : Nat
  top' : Nat
  mem : Nat → β
  mem' : Nat → β
  carved : Option (Region κ)
  shared : Nat → Prop
  scratch : Nat

section Steps

variable {κ : Type u} {β : Type v}

/-- The step keeps to its declarations. -/
structure Step.Sound (s : Step κ β) : Prop where
  grows : s.top ≤ s.top'
  room : ∀ r ∈ s.carved, s.top ≤ r.start ∧ r.start + r.size ≤ s.top'
  written : ∀ x, s.mem' x ≠ s.mem x →
    (∃ r ∈ s.carved, r.Has x) ∨ s.shared x ∨ s.top' ≤ x ∧ x < s.top' + s.scratch

/-- Consecutive sound steps. -/
inductive History (top : Nat) (mem : Nat → β) : List (Step κ β) → Nat → (Nat → β) → Prop where
  | nil : History top mem [] top mem
  | snoc {steps : List (Step κ β)} {s : Step κ β} (before : History top mem steps s.top s.mem)
      (sound : s.Sound) : History top mem (steps ++ [s]) s.top' s.mem'

/-- What a history ensures. -/
structure Integrity (steps : List (Step κ β)) : Prop where
  grows : ∀ s ∈ steps, s.top ≤ s.top'
  apart : (steps.filterMap Step.carved).Pairwise Region.Apart
  written : ∀ s ∈ steps, ∀ x, s.mem' x ≠ s.mem x →
    (∃ r ∈ s.carved, r.Has x) ∨ s.shared x ∨ s.top' ≤ x ∧ x < s.top' + s.scratch
  kept : steps.Pairwise fun s s' =>
    ∀ r ∈ s.carved, ∀ x, r.Has x → ¬ s'.shared x → s'.mem' x = s'.mem x

variable {top top' top'' : Nat} {mem mem' mem'' : Nat → β} {steps steps' : List (Step κ β)}

theorem History.append (h : History top mem steps top' mem')
    (h' : History top' mem' steps' top'' mem'') :
    History top mem (steps ++ steps') top'' mem'' := by
  induction h' with
  | nil => rwa [List.append_nil]
  | snoc before sound ih =>
      rw [← List.append_assoc]
      exact .snoc ih sound

theorem History.single {s : Step κ β} (sound : s.Sound) : History s.top s.mem [s] s.top' s.mem' :=
  .snoc .nil sound

theorem History.cons {s : Step κ β} (sound : s.Sound) (h : History s.top' s.mem' steps top' mem') :
    History s.top s.mem (s :: steps) top' mem' :=
  (History.single sound).append h

theorem History.le (h : History top mem steps top' mem') : top ≤ top' := by
  induction h with
  | nil => exact Nat.le_refl _
  | snoc _ sound ih => exact Nat.le_trans ih sound.grows

theorem History.sound (h : History top mem steps top' mem') : ∀ s ∈ steps, s.Sound := by
  induction h with
  | nil => exact fun s hs => absurd hs List.not_mem_nil
  | snoc _ sound ih =>
      intro s hs
      obtain hs | hs := List.mem_append.mp hs
      · exact ih s hs
      · obtain rfl := List.mem_singleton.mp hs
        exact sound

/-- All regions lie between the first and the last pointer. -/
theorem History.within (h : History top mem steps top' mem') :
    ∀ s ∈ steps, ∀ r ∈ s.carved, top ≤ r.start ∧ r.start + r.size ≤ top' := by
  induction h with
  | nil => exact fun s hs => absurd hs List.not_mem_nil
  | snoc before sound ih =>
      intro s hs r hr
      have low := before.le
      have grows := sound.grows
      obtain hs | hs := List.mem_append.mp hs
      · have := ih s hs r hr
        omega
      · obtain rfl := List.mem_singleton.mp hs
        have := sound.room r hr
        omega

theorem History.integrity (h : History top mem steps top' mem') : Integrity steps := by
  induction h with
  | nil => exact ⟨by simp, .nil, by simp, .nil⟩
  | @snoc steps s before sound ih =>
      refine ⟨?_, ?_, ?_, ?_⟩
      · exact fun t ht => ((before.snoc sound).sound t ht).grows
      · rw [List.filterMap_append]
        refine List.pairwise_append.mpr ⟨ih.apart, ?_, ?_⟩
        · cases hcarved : s.carved <;> simp [hcarved]
        · intro r hr r' hr' x hx hx'
          obtain ⟨t, ht, hrt⟩ := List.mem_filterMap.mp hr
          obtain ⟨t', ht', hrt'⟩ := List.mem_filterMap.mp hr'
          obtain rfl := List.mem_singleton.mp ht'
          have old := before.within t ht r hrt
          have new := sound.room r' hrt'
          simp only [Region.Has] at hx hx'
          omega
      · exact fun t ht => ((before.snoc sound).sound t ht).written
      · refine List.pairwise_append.mpr ⟨ih.kept, by simp, ?_⟩
        intro t ht t' ht' r hr x hx unshared
        obtain rfl := List.mem_singleton.mp ht'
        -- The region is older, so it lies below all that the step carves and scribbles on.
        have old := before.within t ht r hr
        have grows := sound.grows
        simp only [Region.Has] at hx
        by_contra changed
        obtain ⟨r', hr', hx'⟩ | fill | above := sound.written x changed
        · have new := sound.room r' hr'
          simp only [Region.Has] at hx'
          omega
        · exact unshared fill
        · omega

/-- If every step carves all cells with `P` that it passes, a history does. -/
theorem History.covers {P : Nat → Prop} (h : History top mem steps top' mem')
    (each : ∀ s ∈ steps, ∀ x, P x → s.top ≤ x → x < s.top' → ∃ r ∈ s.carved, r.Has x) :
    ∀ x, P x → top ≤ x → x < top' → ∃ s ∈ steps, ∃ r ∈ s.carved, r.Has x := by
  induction h with
  | nil => exact fun x _ lo hi => by omega
  | @snoc steps s before sound ih =>
      intro x hx lo hi
      by_cases old : x < s.top
      · obtain ⟨t, ht, r, hr, has⟩ :=
          ih (fun t ht => each t (List.mem_append_left _ ht)) x hx lo old
        exact ⟨t, List.mem_append_left _ ht, r, hr, has⟩
      · have last : s ∈ steps ++ [s] := List.mem_append_right _ List.mem_cons_self
        exact ⟨s, last, each s last x hx (by omega) hi⟩

end Steps

/-! ### A cell that nobody reserved -/

section Stacked

variable {κ : Type u} {extent : Region κ → Nat} {limit : Nat}

/-- The regions are carved one behind the other from `top` on, each with the room `extent`,
and one that passes the cell `limit` has it. What comes behind such a region is not looked at. -/
def Stacked (extent : Region κ → Nat) (limit : Nat) : Nat → List (Region κ) → Prop
  | _, [] => True
  | top, r :: rs =>
      r.start = top ∧ r.size ≤ extent r ∧ (limit < top + extent r → limit < top + r.size) ∧
        (top + extent r ≤ limit → Stacked extent limit (top + extent r) rs)

/-- The room that the regions take. -/
def carvedSize (extent : Region κ → Nat) (rs : List (Region κ)) : Nat := (rs.map extent).sum

@[simp] theorem carvedSize_nil : carvedSize extent [] = 0 := rfl

@[simp] theorem carvedSize_cons (r : Region κ) (rs : List (Region κ)) :
    carvedSize extent (r :: rs) = extent r + carvedSize extent rs := List.sum_cons

@[simp] theorem carvedSize_append (rs rs' : List (Region κ)) :
    carvedSize extent (rs ++ rs') = carvedSize extent rs + carvedSize extent rs' := by
  rw [carvedSize, List.map_append, List.sum_append]
  rfl

variable {top : Nat} {rs rs' : List (Region κ)}

theorem Stacked.append (h : Stacked extent limit top rs) (low : top ≤ limit)
    (h' : top + carvedSize extent rs ≤ limit →
      Stacked extent limit (top + carvedSize extent rs) rs') :
    Stacked extent limit top (rs ++ rs') := by
  induction rs generalizing top with
  | nil => exact h' low
  | cons r rs ih =>
      obtain ⟨start, room, passes, more⟩ := h
      rw [carvedSize_cons, ← Nat.add_assoc] at h'
      exact ⟨start, room, passes, fun fits => ih (more fits) fits h'⟩

/-- No region has the cell exactly if they all fit below it. -/
theorem Stacked.clear_iff (h : Stacked extent limit top rs) (low : top ≤ limit) :
    (∀ r ∈ rs, ¬ r.Has limit) ↔ top + carvedSize extent rs ≤ limit := by
  induction rs generalizing top with
  | nil => exact iff_of_true (fun _ hr => absurd hr List.not_mem_nil) low
  | cons r rs ih =>
      obtain ⟨start, room, passes, more⟩ := h
      rw [carvedSize_cons, ← Nat.add_assoc, List.forall_mem_cons]
      by_cases fits : top + extent r ≤ limit
      · have clear : ¬ r.Has limit := by
          simp only [Region.Has]
          omega
        rw [← ih (more fits) fits]
        exact ⟨And.right, fun rest => ⟨clear, rest⟩⟩
      · have has : r.Has limit := by
          have := passes (by omega)
          simp only [Region.Has]
          omega
        exact iff_of_false (fun clear => clear.1 has) (by omega)

/-- If they fit below it, all regions end there. -/
theorem Stacked.below (h : Stacked extent limit top rs)
    (fits : top + carvedSize extent rs ≤ limit) : ∀ r ∈ rs, r.start + r.size ≤ limit := by
  induction rs generalizing top with
  | nil => exact fun _ hr => absurd hr List.not_mem_nil
  | cons r rs ih =>
      obtain ⟨start, room, _, more⟩ := h
      rw [carvedSize_cons, ← Nat.add_assoc] at fits
      refine List.forall_mem_cons.mpr ⟨by omega, ih (more (by omega)) fits⟩

end Stacked

end Bump
