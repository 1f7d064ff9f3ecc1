import PhpInternals.Zend.ZendSort.InsertSort

/-!
# Partitioning a range

What `zend_sort` and `zend_qsort` know while they partition a range around a pivot.
-/

namespace PhpInternals.Zend.ZendSort

open PhpInternals.Found

variable {α : Type} {c : SortCall α} {le : α → α → Prop} {pivot hi i j : ℤ} {m₀ m1 m2 : Mem α}

/-- The elements behind the pivot and below `i` are not greater than it, those from `j` on and below
`hi` are not smaller. -/
structure Partitioned (c : SortCall α) (le : α → α → Prop) (pivot hi : ℤ) (m₀ : Mem α) (i j : ℤ)
    (m : Mem α) : Prop where
  perm : PermOn (Set.Ico (pivot + 1) hi) m₀.arr m.arr
  below : Ordered c le → ∀ k, pivot + 1 ≤ k → k < i → le (m.arr k) (m.arr pivot)
  above : Ordered c le → ∀ k, j ≤ k → k < hi → le (m.arr pivot) (m.arr k)

namespace Partitioned

lemma extend {i' j' : ℤ} (h : Partitioned c le pivot hi m₀ i j m1) (ha : m2.arr = m1.arr)
    (hup : Ordered c le → ∀ k, i ≤ k → k < i' → le (m1.arr k) (m1.arr pivot))
    (hdw : Ordered c le → ∀ k, j' ≤ k → k < j → le (m1.arr pivot) (m1.arr k)) :
    Partitioned c le pivot hi m₀ i' j' m2 := by
  refine ⟨ha ▸ h.perm, fun ho k h1 h2 => ?_, fun ho k h1 h2 => ?_⟩
  · rw [ha]
    rcases lt_or_ge k i with hk | hk
    · exact h.below ho k h1 hk
    · exact hup ho k hk h2
  · rw [ha]
    rcases lt_or_ge k j with hk | hk
    · exact hdw ho k h1 hk
    · exact h.above ho k hk h2

lemma exchange (h : Partitioned c le pivot hi m₀ i (j + 1) m1) (ha : m2.arr = swapAt m1.arr i j)
    (hi1 : pivot + 1 ≤ i) (hij : i < j) (hj : j < hi)
    (hgt : Ordered c le → le (m1.arr pivot) (m1.arr i))
    (hle : Ordered c le → le (m1.arr j) (m1.arr pivot)) :
    Partitioned c le pivot hi m₀ (i + 1) j m2 := by
  have hp : m2.arr pivot = m1.arr pivot := by
    rw [ha, swapAt_of_ne (by omega) (by omega)]
  refine ⟨?_, fun ho k h1 h2 => ?_, fun ho k h1 h2 => ?_⟩
  · rw [ha]
    exact h.perm.trans (.swapAt _ ⟨by omega, by omega⟩ ⟨by omega, by omega⟩)
  · rw [hp, ha]
    rcases eq_or_lt_of_le (show k ≤ i by omega) with rfl | hk
    · rw [swapAt_left]
      exact hle ho
    · rw [swapAt_of_ne (by omega) (by omega)]
      exact h.below ho k h1 hk
  rw [hp, ha]
  rcases eq_or_lt_of_le h1 with rfl | hk
  · rw [swapAt_right]
    exact hgt ho
  · rw [swapAt_of_ne (by omega) (by omega)]
    exact h.above ho k (by omega) h2

lemma splitAt (h : Partitioned c le pivot hi m₀ i i m1) (hi1 : pivot + 1 ≤ i)
    (ha : m2.arr = swapAt m1.arr pivot (i - 1)) (ho : Ordered c le) :
    SplitAt le pivot (i - 1) hi m2.arr := by
  have hp : m2.arr (i - 1) = m1.arr pivot := by rw [ha, swapAt_right]
  refine ⟨fun k h1 h2 => ?_, fun k h1 h2 => ?_⟩
  · rw [hp, ha]
    by_cases hk : k = pivot
    · rw [hk, swapAt_left]
      exact h.below ho _ (by omega) (by omega)
    · rw [swapAt_of_ne hk (by omega)]
      exact h.below ho _ (by omega) (by omega)
  · rw [hp, ha, swapAt_of_ne (by omega) (by omega)]
    exact h.above ho k (by omega) h2

end Partitioned

end PhpInternals.Zend.ZendSort
