/-
# Sorting in place

`quick_sort` of `qsort.h` once more, with the recursion as it stands and with checked
subscripts: an access at an index that is not in the bounds stops it.  The grid of
`render_windows` is sorted by the same function with a bound on the depth, and the two agree.
-/
import AuroraOS.Render

namespace AuroraOS

open CheckedArray Machine

variable {b : Bounds} {arr : ℤ → ℤ} {low high : ℤ}

/-- `quick_sort` of the elements `low .. high` of an array with these bounds. -/
def quickSortChecked (b : Bounds) (arr : ℤ → ℤ) (low high : ℤ) : Except OutOfBounds (ℤ → ℤ) :=
  QuickSort.sortRec b arr low high

/-- **Around the range no subscript is out of bounds**, and the result is that with a bound on
the depth. -/
theorem quickSortChecked_eq (hlow : b.first ≤ low) (hhigh : high ≤ b.last) (arr : ℤ → ℤ) :
    quickSortChecked b arr low high = .ok (quickSort arr low high) := by
  rw [quickSortChecked, QuickSort.sortRec_eq (high - low + 1).toNat arr low high (by omega),
    QuickSort.sortChecked_eq _ arr low high hlow hhigh, quickSort]

/-- **`quick_sort` sorts in place.**  It comes to an end with every subscript in `low .. high`;
the elements there are in order and the same as before, each as often, and the others are as
they were. -/
theorem quickSort_inPlace (arr : ℤ → ℤ) (low high : ℤ) :
    ∃ arr', quickSortChecked ⟨low, high⟩ arr low high = .ok arr' ∧
      (QuickSort.elements arr' low high).Pairwise (· ≤ ·) ∧
      (QuickSort.elements arr' low high).Perm (QuickSort.elements arr low high) ∧
      ∀ k, k < low ∨ high < k → arr' k = arr k := by
  have hre := quickSort_rearranges arr low high
  refine ⟨quickSort arr low high, quickSortChecked_eq le_rfl le_rfl arr, ?_, hre.perm, ?_⟩
  · exact (quickSort_sortedOn arr low high).pairwise
  · exact fun k hk => hre.outside hk

end AuroraOS
