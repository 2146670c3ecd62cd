import Mathlib.Data.List.GetD
import Mathlib.Data.List.Sort

/-!
# Ranges of an indexed store

The contents of a half-open range of indices, as a list.  A range falls into the part before an
index, the element at that index and the part after it; permutations and sortedness of the range
follow from those of the parts.
-/

namespace Slice

variable {Value : Type*} {data data' : Nat → Value} {first nth last index : Nat}

/-- Contents of the indices from `first` up to and without `last`. -/
def slice (data : Nat → Value) (first last : Nat) : List Value :=
  (List.range' first (last - first)).map data

theorem slice_congr (agree : ∀ index, first ≤ index → index < last → data index = data' index) :
    slice data first last = slice data' first last := by
  refine List.map_congr_left fun index member => ?_
  rw [List.mem_range'_1] at member
  exact agree index member.1 (by omega)

theorem eq_of_slice_eq (same : slice data first last = slice data' first last)
    (lower : first ≤ index) (upper : index < last) : data index = data' index :=
  List.map_inj_left.mp same index (List.mem_range'_1.mpr ⟨lower, by omega⟩)

theorem slice_split (lower : first ≤ nth) (upper : nth < last) :
    slice data first last = slice data first nth ++ data nth :: slice data (nth + 1) last := by
  have widths : last - first = (nth - first) + ((last - (nth + 1)) + 1) := by omega
  rw [slice, widths, ← List.range'_append_1, List.range'_succ, List.map_append, List.map_cons]
  have index : first + (nth - first) = nth := by omega
  rw [index]
  rfl

theorem perm_of_parts (lower : first ≤ nth) (upper : nth < last)
    (left : (slice data first nth).Perm (slice data' first nth)) (pivot : data nth = data' nth)
    (right : (slice data (nth + 1) last).Perm (slice data' (nth + 1) last)) :
    (slice data first last).Perm (slice data' first last) := by
  rw [slice_split lower upper, slice_split lower upper, pivot]
  exact left.append (right.cons _)

theorem sortedLE_of_length [LinearOrder Value] (short : last - first ≤ 1) :
    (slice data first last).SortedLE := by
  refine List.Pairwise.sortedLE ?_
  have length : (slice data first last).length ≤ 1 := by simpa [slice] using short
  match slice data first last, length with
  | [], _ => exact .nil
  | [_], _ => exact List.pairwise_singleton _ _

theorem sortedLE_iff_parts [LinearOrder Value] (lower : first ≤ nth) (upper : nth < last) :
    (slice data first last).SortedLE ↔
      ((slice data first nth).SortedLE ∧ (slice data (nth + 1) last).SortedLE) ∧
        (∀ value ∈ slice data first nth, value ≤ data nth) ∧
          ∀ value ∈ slice data (nth + 1) last, data nth ≤ value := by
  simp only [List.sortedLE_iff_pairwise, slice_split lower upper, List.pairwise_append,
    List.pairwise_cons, List.forall_mem_cons]
  constructor
  · rintro ⟨left, ⟨above, right⟩, cross⟩
    exact ⟨⟨left, right⟩, fun value member => (cross value member).1, above⟩
  · rintro ⟨⟨left, right⟩, below, above⟩
    exact ⟨left, ⟨above, right⟩, fun value member =>
      ⟨below value member, fun other member' => (below value member).trans (above other member')⟩⟩

/-- Store a list from an index on. -/
def store (data : Nat → Value) (first : Nat) (values : List Value) : Nat → Value := fun index =>
  if first ≤ index then values.getD (index - first) (data index) else data index

theorem slice_store {values : List Value} (fits : values.length = last - first) :
    slice (store data first values) first last = values := by
  refine List.ext_getElem (by simp [slice, fits]) fun position _ inside => ?_
  simp [slice, store, inside]

theorem store_outside {values : List Value}
    (outside : index < first ∨ first + values.length ≤ index) :
    store data first values index = data index := by
  unfold store
  split
  · exact List.getD_eq_default _ _ (by omega)
  · rfl

end Slice
