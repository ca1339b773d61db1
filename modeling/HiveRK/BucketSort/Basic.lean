import Mathlib.Data.List.Sort

/-!
# Sorting by passes

A list is sorted by a bounded key when one pass per key value collects the elements with
that key. No element is compared with another, and elements with equal keys keep their
order: the result is the stable sort.
-/

namespace BucketSort

section Buckets

variable {α β : Type*} (key : α → Nat)

/-- The results of `k` passes over `l`, for the keys from `s` on. -/
def buckets : Nat → Nat → List α → List α
  | 0, _, _ => []
  | k + 1, s, l => (l.filter fun a => key a = s) ++ buckets k (s + 1) l

variable {key} {k s : Nat} {l l' : List α}

/-- A pass sees only the elements with its own key. -/
theorem buckets_congr
    (same : ∀ t, s ≤ t → t < s + k →
      (l.filter fun a => key a = t) = l'.filter fun a => key a = t) :
    buckets key k s l = buckets key k s l' := by
  induction k generalizing s with
  | zero => rfl
  | succ k ih =>
      rw [buckets, buckets, same s (Nat.le_refl s) (by omega)]
      rw [ih fun t lo hi => same t (by omega) (by omega)]

theorem buckets_map (f : β → α) (l : List β) :
    (buckets (fun b => key (f b)) k s l).map f = buckets key k s (l.map f) := by
  induction k generalizing s with
  | zero => rfl
  | succ k ih =>
      rw [buckets, buckets, List.map_append, ih, List.filter_map]
      rfl

theorem buckets_eq_flatMap :
    buckets key k s l = (List.range' s k).flatMap fun t => l.filter fun a => key a = t := by
  induction k generalizing s with
  | zero => rfl
  | succ k ih => rw [buckets, ih, List.range'_succ, List.flatMap_cons]

theorem mem_buckets {a : α} :
    a ∈ buckets key k s l ↔ a ∈ l ∧ s ≤ key a ∧ key a < s + k := by
  induction k generalizing s with
  | zero =>
      simp only [buckets, List.not_mem_nil, false_iff]
      omega
  | succ k ih =>
      simp only [buckets, List.mem_append, ih, List.mem_filter, decide_eq_true_eq]
      constructor
      · rintro (⟨ha, heq⟩ | ⟨ha, lo, hi⟩)
        · exact ⟨ha, by omega, by omega⟩
        · exact ⟨ha, by omega, by omega⟩
      · rintro ⟨ha, lo, hi⟩
        by_cases heq : key a = s
        · exact .inl ⟨ha, heq⟩
        · exact .inr ⟨ha, by omega, by omega⟩

/-- The result is in the order of the keys, and within a key in the given order. -/
theorem pairwise_buckets {R : α → α → Prop} (ordered : l.Pairwise R) :
    (buckets key k s l).Pairwise fun a b => key a < key b ∨ key a = key b ∧ R a b := by
  induction k generalizing s with
  | zero => exact .nil
  | succ k ih =>
      refine List.pairwise_append.mpr ⟨?_, ih, ?_⟩
      · have bucket : (l.filter fun a => key a = s).Pairwise R := ordered.filter _
        refine bucket.imp_of_mem fun {a b} ha hb related => .inr ⟨?_, related⟩
        have hka : key a = s := by simpa using (List.mem_filter.mp ha).2
        have hkb : key b = s := by simpa using (List.mem_filter.mp hb).2
        rw [hka, hkb]
      · intro a ha b hb
        have hka : key a = s := by simpa using (List.mem_filter.mp ha).2
        have later := (mem_buckets.mp hb).2.1
        exact .inl (by omega)

/-- The first bucket of a sorted list is its start. -/
theorem filter_append_of_sorted (sorted : l.Pairwise fun a b => key a ≤ key b)
    (low : ∀ a ∈ l, s ≤ key a) :
    (l.filter fun a => key a = s) ++ (l.filter fun a => s < key a) = l := by
  induction l with
  | nil => rfl
  | cons a l ih =>
      obtain ⟨head, tail⟩ := List.pairwise_cons.mp sorted
      by_cases here : key a = s
      · rw [List.filter_cons_of_pos (by simpa using here), List.filter_cons_of_neg (by simp [here]),
          List.cons_append, ih tail fun b hb => low b (List.mem_cons_of_mem _ hb)]
      · -- The smallest key is larger already: the bucket is empty.
        have above : ∀ b ∈ a :: l, s < key b := by
          intro b hb
          have ha := low a List.mem_cons_self
          obtain rfl | hb := List.mem_cons.mp hb
          · omega
          · have := head b hb
            omega
        have none : ((a :: l).filter fun b => key b = s) = [] := by
          refine List.filter_eq_nil_iff.mpr fun b hb => ?_
          have := above b hb
          simp only [decide_eq_true_eq]
          omega
        have all : ((a :: l).filter fun b => s < key b) = a :: l :=
          List.filter_eq_self.mpr fun b hb => by simpa using above b hb
        rw [none, all, List.nil_append]

/-- Passes over a sorted list leave it as it is. -/
theorem buckets_of_sorted (sorted : l.Pairwise fun a b => key a ≤ key b)
    (low : ∀ a ∈ l, s ≤ key a) (high : ∀ a ∈ l, key a < s + k) : buckets key k s l = l := by
  induction k generalizing s l with
  | zero =>
      refine (List.eq_nil_iff_forall_not_mem.mpr fun a ha => ?_).symm
      have := low a ha
      have := high a ha
      omega
  | succ k ih =>
      have seen : buckets key k (s + 1) l =
          buckets key k (s + 1) (l.filter fun a => s < key a) := by
        refine buckets_congr fun t lo _ => ?_
        rw [List.filter_filter]
        refine List.filter_congr fun a _ => ?_
        by_cases heq : key a = t
        · simp [heq, show s < t by omega]
        · simp [heq]
      have rest : buckets key k (s + 1) (l.filter fun a => s < key a) =
          l.filter fun a => s < key a := by
        refine ih (sorted.filter _) (fun a ha => ?_) (fun a ha => ?_)
        · exact Nat.succ_le_of_lt (by simpa using (List.mem_filter.mp ha).2)
        · have := high a (List.mem_filter.mp ha).1
          omega
      rw [buckets, seen, rest, filter_append_of_sorted sorted low]

theorem key_trans (a b c : α) (hab : decide (key a ≤ key b) = true)
    (hbc : decide (key b ≤ key c) = true) : decide (key a ≤ key c) = true := by
  simp only [decide_eq_true_eq] at hab hbc ⊢
  omega

theorem key_total (a b : α) : (decide (key a ≤ key b) || decide (key b ≤ key a)) = true := by
  simp only [Bool.or_eq_true, decide_eq_true_eq]
  omega

/-- One pass per key is the stable sort. -/
theorem buckets_eq_mergeSort (bounded : ∀ a ∈ l, key a < k) :
    buckets key k 0 l = l.mergeSort fun a b => key a ≤ key b := by
  have sorted : (l.mergeSort fun a b => key a ≤ key b).Pairwise fun a b => key a ≤ key b :=
    (List.pairwise_mergeSort key_trans key_total l).imp fun {a b} h => by simpa using h
  have kept : buckets key k 0 (l.mergeSort fun a b => key a ≤ key b) =
      l.mergeSort fun a b => key a ≤ key b := by
    refine buckets_of_sorted sorted (fun _ _ => Nat.zero_le _) fun a ha => ?_
    have := bounded a (List.mem_mergeSort.mp ha)
    omega
  rw [← kept]
  refine buckets_congr fun t _ _ => ?_
  -- Stability: the elements with one key are sorted already, so they keep their order.
  have part : (l.filter fun a => key a = t).Sublist (l.mergeSort fun a b => key a ≤ key b) := by
    refine List.sublist_mergeSort key_trans key_total ?_ List.filter_sublist
    refine List.pairwise_of_forall_mem_list fun a ha b hb => ?_
    have hka : key a = t := by simpa using (List.mem_filter.mp ha).2
    have hkb : key b = t := by simpa using (List.mem_filter.mp hb).2
    simp [hka, hkb]
  have filtered := part.filter fun a => key a = t
  rw [List.filter_filter] at filtered
  simp only [Bool.and_self] at filtered
  exact filtered.eq_of_length ((List.mergeSort_perm l _).filter _).length_eq.symm

end Buckets

end BucketSort
