import ConcurrencyCourse.Sorting.SingleThreaded
import ConcurrencyCourse.Library.TransitionSystem
import Mathlib.Algebra.Order.Ring.Int
import Mathlib.Data.Int.ConditionallyCompleteOrder
import Mathlib.Order.ConditionallyCompleteLattice.Basic

/-!
# Every run of single_threaded_sort

`std::nth_element` may leave any arrangement that its contract allows, and another one on each call.
A state of the recursion is the vector with the ranges of the calls still to be made, the next one
first: a call returns at once, or divides its range and leaves the calls on the two parts.
-/

namespace ConcurrencyCourse
namespace Sorting

open Slice

variable {Value : Type*} [LinearOrder Value]

/-- The arrangements that `std::nth_element` may leave. -/
structure NthElement (data : Contents Value) (first nth last : Nat) (chosen : Contents Value) :
    Prop where
  selected : Selected (slice data first last) chosen first nth last
  outside : ∀ index, index < first ∨ last ≤ index → chosen index = data index

/-- What the next call does. -/
inductive CallStep
  /-- It returns after the test of the distance. -/
  | returns
  /-- It calls `std::nth_element`. -/
  | nthElement (first nth last : Nat)
  deriving DecidableEq

/-- The vector, and the ranges of the calls of `single_threaded_sort` still to be made. -/
structure Recursion (Value : Type*) where
  data : Contents Value
  pending : List (Nat × Nat)

/-- One step of the recursion. -/
inductive RecursionStep : Recursion Value → CallStep → Recursion Value → Prop
  | returns {data : Contents Value} {first last : Nat} {pending : List (Nat × Nat)} :
      last - first ≤ 1 →
      RecursionStep ⟨data, (first, last) :: pending⟩ .returns ⟨data, pending⟩
  | divide {data chosen : Contents Value} {first last : Nat} {pending : List (Nat × Nat)} :
      ¬ last - first ≤ 1 → NthElement data first (dividePoint first last) last chosen →
      RecursionStep ⟨data, (first, last) :: pending⟩
        (.nthElement first (dividePoint first last) last)
        ⟨chosen, (first, dividePoint first last) :: (dividePoint first last + 1, last) :: pending⟩

/-- A call of `single_threaded_sort`, for every choice of `std::nth_element`. -/
def recursion (data : Contents Value) (first last : Nat) :
    TransitionSystem (Recursion Value) CallStep where
  Initial state := state = ⟨data, [(first, last)]⟩
  Step := RecursionStep

variable {data : Contents Value} {first last : Nat} {state after : Recursion Value}
  {trace : List CallStep}

/-! ## Every run ends -/

omit [LinearOrder Value] in
/-- The number of steps still to be made at most. -/
def Recursion.remaining (state : Recursion Value) : Nat :=
  (state.pending.map fun range => 2 * (range.2 - range.1) + 1).sum

theorem RecursionStep.remaining_lt {before after : Recursion Value} {label : CallStep}
    (step : RecursionStep before label after) : after.remaining < before.remaining := by
  cases step with
  | returns => simp [Recursion.remaining]
  | divide wide =>
      simp only [Recursion.remaining, List.map_cons, List.sum_cons, dividePoint]
      omega

theorem exists_nthElement {nth : Nat} (data : Contents Value) (lower : first ≤ nth)
    (upper : nth < last) : ∃ chosen, NthElement data first nth last chosen :=
  ⟨_, sortingNthElement_lawful.selected data lower upper,
    fun _ => sortingNthElement_lawful.outside data⟩

theorem exists_recursionStep {before : Recursion Value} (waiting : before.pending ≠ []) :
    ∃ label after, RecursionStep before label after := by
  obtain ⟨data, pending⟩ := before
  obtain ⟨⟨first, last⟩, rest, rfl⟩ := List.exists_cons_of_ne_nil waiting
  by_cases short : last - first ≤ 1
  · exact ⟨_, _, .returns short⟩
  · have wide : 1 < last - first := by omega
    obtain ⟨chosen, chooses⟩ := exists_nthElement data (first_lt_dividePoint wide).le
      (dividePoint_lt_last wide)
    exact ⟨_, _, .divide short chooses⟩

/-! ## Every call stays inside the range -/

/-- The calls still to be made lie in the range, and nothing outside has changed. -/
structure Inside (data : Contents Value) (first last : Nat) (state : Recursion Value) : Prop where
  pending : ∀ range ∈ state.pending, first ≤ range.1 ∧ range.2 ≤ last
  outside : ∀ index, index < first ∨ last ≤ index → state.data index = data index

/-- The position is strictly inside the range given to `std::nth_element`. -/
def CallStep.Proper (first last : Nat) : CallStep → Prop
  | .returns => True
  | .nthElement first' nth last' => first ≤ first' ∧ first' < nth ∧ nth < last' ∧ last' ≤ last

theorem Inside.step {before after : Recursion Value} {label : CallStep}
    (inside : Inside data first last before) (step : RecursionStep before label after) :
    Inside data first last after ∧ label.Proper first last := by
  obtain ⟨pending, outside⟩ := inside
  cases step with
  | returns =>
      exact ⟨⟨fun range member => pending range (List.mem_cons_of_mem _ member), outside⟩, trivial⟩
  | @divide _ chosen first' last' rest wide chooses =>
      obtain ⟨lower, upper⟩ := pending _ List.mem_cons_self
      have left := first_lt_dividePoint (Nat.lt_of_not_le wide)
      have right := dividePoint_lt_last (Nat.lt_of_not_le wide)
      refine ⟨⟨?_, fun index away => ?_⟩, lower, left, right, upper⟩
      · intro range member
        rcases List.mem_cons.mp member with rfl | member
        · exact ⟨lower, right.le.trans upper⟩
        · rcases List.mem_cons.mp member with rfl | member
          · exact ⟨by dsimp only at lower ⊢; omega, upper⟩
          · exact pending range (List.mem_cons_of_mem _ member)
      · dsimp only at lower upper
        exact (chooses.outside index (by omega)).trans (outside index away)

theorem inside_of_run (run : (recursion data first last).Run ⟨data, [(first, last)]⟩ trace after) :
    Inside data first last after ∧ ∀ label ∈ trace, label.Proper first last := by
  induction run with
  | nil =>
      refine ⟨⟨fun range member => ?_, fun _ _ => rfl⟩, fun _ member => by simp at member⟩
      obtain rfl := List.mem_singleton.mp member
      exact ⟨le_rfl, le_rfl⟩
  | snoc _ step ih =>
      obtain ⟨inside, proper⟩ := ih.1.step step
      refine ⟨inside, fun label member => ?_⟩
      rcases List.mem_append.mp member with earlier | last
      · exact ih.2 label earlier
      · obtain rfl := List.mem_singleton.mp last
        exact proper

/-! ## A call that has returned has sorted its range -/

/-- A run that makes all pending calls comes to the return of the first one, which has sorted its
range by then. -/
theorem exists_returned {original : Contents Value} {first' last' : Nat}
    {pending : List (Nat × Nat)}
    (run : (recursion original first' last').Run ⟨data, (first, last) :: pending⟩ trace after)
    (done : after.pending = []) :
    ∃ sorted rest, (recursion original first' last').Run ⟨sorted, pending⟩ rest after ∧
      SortedFrom data sorted first last := by
  -- by induction on the length of the range, over all vectors and pending calls
  induction distance : last - first using Nat.strong_induction_on
    generalizing data first last pending trace with
  | _ distance ih =>
      rcases run.eq_or_exists_cons with ⟨-, rfl⟩ | ⟨label, middle, rest, -, step, later⟩
      · simp at done
      cases step with
      | returns short =>
          exact ⟨data, rest, later, sortedLE_of_length short, List.Perm.refl _, fun _ _ => rfl⟩
      | @divide _ chosen _ _ _ wide chooses =>
          have lower := first_lt_dividePoint (Nat.lt_of_not_le wide)
          have upper := dividePoint_lt_last (Nat.lt_of_not_le wide)
          obtain ⟨divided, _, later, left⟩ := ih _ (by omega) later rfl
          obtain ⟨sorted, rest, later, right⟩ := ih _ (by omega) later rfl
          exact ⟨sorted, rest, later,
            .of_parts lower.le upper chooses.selected chooses.outside left right⟩

/-- The function that a fixed choice makes of `single_threaded_sort` is one of its runs. -/
theorem exists_run_singleThreadedSort {original : Contents Value} {first' last' : Nat}
    {nthElement : Contents Value → Nat → Nat → Nat → Contents Value}
    (lawful : LawfulNthElement nthElement) (data : Contents Value) (first last : Nat)
    (pending : List (Nat × Nat)) :
    ∃ trace, (recursion original first' last').Run ⟨data, (first, last) :: pending⟩ trace
      ⟨singleThreadedSort nthElement data first last, pending⟩ := by
  fun_induction singleThreadedSort nthElement data first last generalizing pending with
  | case1 data first last short => exact ⟨_, .cons (.returns short) .nil⟩
  | case2 data first last wide chosen divided left _ right =>
      have lower := first_lt_dividePoint (Nat.lt_of_not_le wide)
      have upper := dividePoint_lt_last (Nat.lt_of_not_le wide)
      obtain ⟨before, runLeft⟩ := left ((dividePoint first last + 1, last) :: pending)
      obtain ⟨after, runRight⟩ := right pending
      exact ⟨_, .cons (.divide wide ⟨lawful.selected data lower.le upper,
        fun _ => lawful.outside data⟩) (runLeft.append runRight)⟩

/-- Whatever `std::nth_element` chooses, every run of `single_threaded_sort` is finite and calls it
with a position strictly inside a part of the range; nothing outside the range changes; and a run
that can go no further has returned and has sorted the range in place. -/
theorem sorts_of_run (run : (recursion data first last).Run ⟨data, [(first, last)]⟩ trace after) :
    trace.length ≤ 2 * (last - first) + 1 ∧
    (∀ first' nth last', .nthElement first' nth last' ∈ trace →
      first ≤ first' ∧ first' < nth ∧ nth < last' ∧ last' ≤ last) ∧
    (∀ index, index < first ∨ last ≤ index → after.data index = data index) ∧
    ((∀ label next, ¬ (recursion data first last).Step after label next) →
      after.pending = [] ∧ (slice after.data first last).SortedLE ∧
        (slice after.data first last).Perm (slice data first last)) := by
  obtain ⟨inside, proper⟩ := inside_of_run run
  refine ⟨?_, fun _ _ _ => proper _, inside.outside, fun stuck => ?_⟩
  · have bound := (run.length_add_rank_le (motive := fun _ => True) trivial fun _ step =>
      ⟨trivial, RecursionStep.remaining_lt step⟩).2
    simp only [Recursion.remaining, List.map_cons, List.map_nil, List.sum_cons,
      List.sum_nil] at bound
    omega
  · have done : after.pending = [] := by
      by_contra waiting
      obtain ⟨label, next, step⟩ := exists_recursionStep waiting
      exact stuck label next step
    obtain ⟨sorted, rest, later, sorts⟩ := exists_returned run done
    rcases later.eq_or_exists_cons with ⟨-, rfl⟩ | ⟨label, middle, _, -, step, -⟩
    · exact ⟨done, sorts.sorted, sorts.perm⟩
    · cases step

/-- A run on four elements, two of which are equal. -/
theorem sorts_of_run_four : ∃ result : Contents Int,
    (slice result 0 4).SortedLE ∧ (slice result 0 4).Perm [4, 3, 4, 1] := by
  obtain ⟨trace, run⟩ := exists_run_singleThreadedSort sortingNthElement_lawful
    (([4, 3, 4, 1] : List Int).getD · 0) 0 4 []
  obtain ⟨-, sorted, perm⟩ := (sorts_of_run run).2.2.2 fun label next step => by cases step
  exact ⟨_, sorted, perm⟩

end Sorting
end ConcurrencyCourse
