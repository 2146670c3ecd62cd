import ConcurrencyCourse.Sorting.Model

/-!
# What single_threaded_sort leaves

A divided range is sorted when its parts are, for the pivot stands between them.  The result is the
only sorted permutation of the range, so it does not depend on the choices of `std::nth_element`.
-/

namespace ConcurrencyCourse
namespace Sorting

open Slice

variable {Value : Type*} [LinearOrder Value] {data chosen : Contents Value}
  {first nth last : Nat}

theorem first_lt_dividePoint (wide : 1 < last - first) : first < dividePoint first last := by
  unfold dividePoint
  omega

theorem dividePoint_lt_last (wide : 1 < last - first) : dividePoint first last < last := by
  unfold dividePoint
  omega

/-- A range is sorted when its two parts have been sorted after `std::nth_element`. -/
theorem Selected.sorted_of_parts {entry : List Value}
    (selected : Selected entry chosen first nth last)
    (lower : first ≤ nth) (upper : nth < last) (pivot : data nth = chosen nth)
    (left : (slice data first nth).SortedLE ∧ (slice data first nth).Perm (slice chosen first nth))
    (right : (slice data (nth + 1) last).SortedLE ∧
      (slice data (nth + 1) last).Perm (slice chosen (nth + 1) last)) :
    (slice data first last).SortedLE ∧ (slice data first last).Perm entry := by
  obtain ⟨leftSorted, leftPerm⟩ := left
  obtain ⟨rightSorted, rightPerm⟩ := right
  constructor
  · rw [sortedLE_iff_parts lower upper, pivot]
    refine ⟨⟨leftSorted, rightSorted⟩, fun value member => ?_, fun value member => ?_⟩
    · exact selected.before value (leftPerm.mem_iff.mp member)
    · exact selected.after value (rightPerm.mem_iff.mp member)
  · exact (perm_of_parts lower upper leftPerm pivot rightPerm).trans selected.perm

/-- The range has been sorted in place. -/
structure SortedFrom (data result : Contents Value) (first last : Nat) : Prop where
  sorted : (slice result first last).SortedLE
  perm : (slice result first last).Perm (slice data first last)
  outside : ∀ index, index < first ∨ last ≤ index → result index = data index

theorem SortedFrom.unique {result result' : Contents Value}
    (sorts : SortedFrom data result first last) (sorts' : SortedFrom data result' first last) :
    result = result' := by
  funext index
  by_cases inside : first ≤ index ∧ index < last
  · have same := (sorts.perm.trans sorts'.perm.symm).eq_of_sortedLE sorts.sorted sorts'.sorted
    exact eq_of_slice_eq same inside.1 inside.2
  · have outside : index < first ∨ last ≤ index := by omega
    rw [sorts.outside index outside, sorts'.outside index outside]

/-- Sorting the two parts in turn after `std::nth_element` sorts the range in place. -/
theorem SortedFrom.of_parts {divided result : Contents Value} (lower : first ≤ nth)
    (upper : nth < last) (selected : Selected (slice data first last) chosen first nth last)
    (outside : ∀ index, index < first ∨ last ≤ index → chosen index = data index)
    (left : SortedFrom chosen divided first nth)
    (right : SortedFrom divided result (nth + 1) last) : SortedFrom data result first last := by
  -- the call on each part leaves the pivot and the other part alone
  have pivot : result nth = chosen nth := by
    rw [right.outside nth (by omega), left.outside nth (by omega)]
  have leftKept : slice result first nth = slice divided first nth :=
    slice_congr fun index _ above => right.outside index (by omega)
  have rightKept : slice divided (nth + 1) last = slice chosen (nth + 1) last :=
    slice_congr fun index below _ => left.outside index (by omega)
  obtain ⟨sorted, perm⟩ := selected.sorted_of_parts lower upper pivot
    (by rw [leftKept]; exact ⟨left.sorted, left.perm⟩)
    ⟨right.sorted, by rw [← rightKept]; exact right.perm⟩
  refine ⟨sorted, perm, fun index away => ?_⟩
  rw [right.outside index (by omega), left.outside index (by omega), outside index away]

theorem singleThreadedSort_sortedFrom
    {nthElement : Contents Value → Nat → Nat → Nat → Contents Value}
    (lawful : LawfulNthElement nthElement) (data : Contents Value) (first last : Nat) :
    SortedFrom data (singleThreadedSort nthElement data first last) first last := by
  fun_induction singleThreadedSort nthElement data first last with
  | case1 data first last short =>
      exact ⟨sortedLE_of_length short, List.Perm.refl _, fun _ _ => rfl⟩
  | case2 data first last short chosen divided left _ right =>
      have wide : 1 < last - first := by omega
      have lower := first_lt_dividePoint wide
      have upper := dividePoint_lt_last wide
      exact .of_parts lower.le upper (lawful.selected data lower.le upper)
        (fun index => lawful.outside data) left right

/-- An `nth_element` that sorts its whole range. -/
def sortingNthElement (data : Contents Value) (first _nth last : Nat) : Contents Value :=
  store data first ((slice data first last).insertionSort (· ≤ ·))

theorem sortingNthElement_lawful :
    LawfulNthElement (sortingNthElement : Contents Value → Nat → Nat → Nat → Contents Value) := by
  have length (data : Contents Value) (first last : Nat) :
      ((slice data first last).insertionSort (· ≤ ·)).length = last - first := by
    simp [slice]
  constructor
  · intro data first nth last lower upper
    have whole : slice (sortingNthElement data first nth last) first last = _ :=
      slice_store (length data first last)
    have sorted : (slice (sortingNthElement data first nth last) first last).SortedLE := by
      rw [whole]
      exact (List.pairwise_insertionSort _ _).sortedLE
    obtain ⟨-, before, after⟩ := (sortedLE_iff_parts lower upper).mp sorted
    exact ⟨by rw [whole]; exact List.perm_insertionSort _ _, before, after⟩
  · intro data first nth last index outside
    refine store_outside ?_
    rw [length]
    omega

end Sorting
end ConcurrencyCourse
