import ConcurrencyCourse.Sorting.Recursion
import ConcurrencyCourse.Sorting.Threads

/-!
# The benchmark of the sorts

`sort_impl` fills a vector in every iteration, hands its range to the sorter and throws when the
result is not sorted.  `srand(0)` makes the numbers of all iterations the same.  Each of the two
sorts is a sorter for which the check never fails.
-/

namespace ConcurrencyCourse
namespace Sorting

open Slice

/-- How a call of a sorter ends. -/
inductive Outcome
  | returned (data : Contents Int)
  | threw
  | terminated

/-- `SorterFunc`: a call of the function with the states that it goes through. -/
structure Sorter (State Label : Type*) where
  start : Contents Int → Nat → Nat → State
  Step : State → Label → State → Prop
  outcome : State → Option Outcome

/-- What ends the benchmark. -/
inductive Failure
  /-- `reserve` with a size that is too large. -/
  | lengthError
  /-- The exception of the sorter. -/
  | systemError
  /-- The range is not sorted correctly. -/
  | logicError
  deriving DecidableEq

/-- Position in `sort_impl`. -/
inductive SortPc (State : Type*)
  /-- At the head of the loop over `state`. -/
  | loop
  /-- In the loop of `fill_container`, with the elements pushed so far. -/
  | filling (data : List Int)
  /-- In the call of `sorterFunc` on a vector of this size. -/
  | sorting (size : Nat) (state : State)
  /-- About to call `std::is_sorted`. -/
  | checking (data : List Int)
  | ended
  | threw (failure : Failure)
  | terminated

/-- The iterations that are left and, as a history variable, the vectors that passed the check. -/
structure SortState (State : Type*) where
  iterations : Nat
  pc : SortPc State
  sorted : List (List Int)

/-- `std::is_sorted`. -/
def isSorted : List Int → Bool
  | first :: second :: rest => if second < first then false else isSorted (second :: rest)
  | _ => true

theorem isSorted_iff (data : List Int) : isSorted data = true ↔ data.SortedLE := by
  induction data with
  | nil => simp [isSorted, List.sortedLE_iff_isChain]
  | cons first rest ih =>
      cases rest with
      | nil => simp [isSorted, List.sortedLE_iff_isChain]
      | cons second rest =>
          rw [List.sortedLE_iff_isChain, List.isChain_cons_cons, ← List.sortedLE_iff_isChain, ← ih,
            isSorted]
          by_cases less : second < first <;> simp [less, not_le.mpr, le_of_not_gt]

variable {State Label : Type*}

/-- One step of `sort_impl` or of its sorter; `rand` has the numbers that follow `srand(0)`. -/
inductive SortStep (sorter : Sorter State Label) (rand : Nat → Int) (size : Int) :
    SortState State → Option Label → SortState State → Prop
  | done {sorted : List (List Int)} :
      SortStep sorter rand size ⟨0, .loop, sorted⟩ none ⟨0, .ended, sorted⟩
  | tooLarge {left : Nat} {sorted : List (List Int)} : size < 0 →
      SortStep sorter rand size ⟨left + 1, .loop, sorted⟩ none
        ⟨left, .threw .lengthError, sorted⟩
  | reserve {left : Nat} {sorted : List (List Int)} : 0 ≤ size →
      SortStep sorter rand size ⟨left + 1, .loop, sorted⟩ none ⟨left, .filling [], sorted⟩
  | pushBack {left : Nat} {sorted : List (List Int)} {data : List Int} : data.length < size →
      SortStep sorter rand size ⟨left, .filling data, sorted⟩ none
        ⟨left, .filling (data ++ [rand data.length]), sorted⟩
  | call {left : Nat} {sorted : List (List Int)} {data : List Int} : ¬ data.length < size →
      SortStep sorter rand size ⟨left, .filling data, sorted⟩ none
        ⟨left, .sorting data.length (sorter.start (data.getD · 0) 0 data.length), sorted⟩
  | sorter {left length : Nat} {sorted : List (List Int)} {label : Label} {before after : State} :
      sorter.Step before label after → sorter.outcome before = none →
      SortStep sorter rand size ⟨left, .sorting length before, sorted⟩ (some label)
        ⟨left, .sorting length after, sorted⟩
  | returned {left length : Nat} {sorted : List (List Int)} {state : State}
      {data : Contents Int} : sorter.outcome state = some (.returned data) →
      SortStep sorter rand size ⟨left, .sorting length state, sorted⟩ none
        ⟨left, .checking (slice data 0 length), sorted⟩
  | threw {left length : Nat} {sorted : List (List Int)} {state : State} :
      sorter.outcome state = some .threw →
      SortStep sorter rand size ⟨left, .sorting length state, sorted⟩ none
        ⟨left, .threw .systemError, sorted⟩
  | terminated {left length : Nat} {sorted : List (List Int)} {state : State} :
      sorter.outcome state = some .terminated →
      SortStep sorter rand size ⟨left, .sorting length state, sorted⟩ none
        ⟨left, .terminated, sorted⟩
  | passed {left : Nat} {sorted : List (List Int)} {data : List Int} : isSorted data = true →
      SortStep sorter rand size ⟨left, .checking data, sorted⟩ none
        ⟨left, .loop, sorted ++ [data]⟩
  | failed {left : Nat} {sorted : List (List Int)} {data : List Int} : isSorted data = false →
      SortStep sorter rand size ⟨left, .checking data, sorted⟩ none
        ⟨left, .threw .logicError, sorted⟩

/-- `sort_impl`. -/
def sortImpl (sorter : Sorter State Label) (rand : Nat → Int) (size : Int) (iterations : Nat) :
    TransitionSystem (SortState State) (Option Label) where
  Initial state := state = ⟨iterations, .loop, []⟩
  Step := SortStep sorter rand size

/-- The runs of a sorter on its own. -/
def Sorter.calls (sorter : Sorter State Label) (data : Contents Int) (first last : Nat) :
    TransitionSystem State Label where
  Initial state := state = sorter.start data first last
  Step := sorter.Step

/-- What `sort_impl` relies on. -/
structure Sorter.Lawful (sorter : Sorter State Label) : Prop where
  sorts : ∀ {data first last state result}, (sorter.calls data first last).Reachable state →
    sorter.outcome state = some (.returned result) → SortedFrom data result first last
  ends : ∀ {data first last state}, (sorter.calls data first last).Reachable state →
    ∃ trace final, (sorter.calls data first last).Run state trace final ∧
      (sorter.outcome final).isSome = true

/-! ## The check never fails -/

/-- What `fill_container` puts in the vector. -/
def filled (rand : Nat → Int) (size : Int) : List Int := (List.range size.toNat).map rand

/-- What is known at a position. -/
def SortPc.Holds (sorter : Sorter State Label) (rand : Nat → Int) (size : Int) :
    SortPc State → Prop
  | .filling data => data = (List.range data.length).map rand ∧ data.length ≤ size
  | .sorting length state => length = (filled rand size).length ∧ 0 ≤ size ∧
      (sorter.calls ((filled rand size).getD · 0) 0 length).Reachable state
  | .checking data => data = (filled rand size).insertionSort (· ≤ ·) ∧ 0 ≤ size
  | .threw .lengthError => size < 0
  | .threw .logicError => False
  | _ => True

/-- The position is inside of an iteration. -/
def SortPc.inside : SortPc State → Bool
  | .loop | .ended => false
  | _ => true

/-- What is known of a state of `sort_impl`. -/
structure Passes (sorter : Sorter State Label) (rand : Nat → Int) (size : Int) (iterations : Nat)
    (state : SortState State) : Prop where
  holds : state.pc.Holds sorter rand size
  sorted : ∀ data ∈ state.sorted, data = (filled rand size).insertionSort (· ≤ ·)
  counted : state.sorted.length + state.iterations + state.pc.inside.toNat = iterations
  ended : state.pc = .ended → state.iterations = 0

variable {sorter : Sorter State Label} {rand : Nat → Int} {size : Int} {iterations : Nat}
  {before after state : SortState State} {label : Option Label}

theorem slice_getD (data : List Int) : slice (data.getD · 0) 0 data.length = data := by
  refine List.ext_getElem (by simp [slice]) fun index _ inside => ?_
  simp [slice, inside]

theorem eq_insertionSort {data result : List Int} (sorted : result.SortedLE)
    (perm : result.Perm data) : result = data.insertionSort (· ≤ ·) :=
  (perm.trans (List.perm_insertionSort _ _).symm).eq_of_sortedLE sorted
    (List.pairwise_insertionSort _ _).sortedLE

theorem Passes.step (lawful : sorter.Lawful) (passes : Passes sorter rand size iterations before)
    (step : SortStep sorter rand size before label after) :
    Passes sorter rand size iterations after := by
  obtain ⟨holds, sorted, counted, ended⟩ := passes
  cases step with
  | done => exact ⟨trivial, sorted, counted, fun _ => rfl⟩
  | tooLarge negative =>
      refine ⟨negative, sorted, ?_, by simp⟩
      simp only [SortPc.inside, Bool.toNat_true, Bool.toNat_false] at counted ⊢
      omega
  | reserve proper =>
      refine ⟨⟨rfl, by simpa using proper⟩, sorted, ?_, by simp⟩
      simp only [SortPc.inside, Bool.toNat_true, Bool.toNat_false] at counted ⊢
      omega
  | @pushBack _ _ data more =>
      refine ⟨⟨?_, by simp; omega⟩, sorted, counted, by simp⟩
      have same := holds.1
      rw [List.length_append, List.length_singleton, List.range_succ, List.map_append, ← same]
      rfl
  | @call _ _ data full =>
      obtain ⟨same, fits⟩ := holds
      have length : data.length = size.toNat := by omega
      have all : data = filled rand size := by rw [same, length, filled]
      subst all
      exact ⟨⟨rfl, by omega, .initial rfl⟩, sorted, counted, by simp⟩
  | sorter own _ =>
      obtain ⟨length, proper, reach⟩ := holds
      exact ⟨⟨length, proper, reach.step own⟩, sorted, counted, by simp⟩
  | returned returned =>
      obtain ⟨rfl, proper, reach⟩ := holds
      have sorts := lawful.sorts reach returned
      have perm := sorts.perm
      rw [slice_getD] at perm
      exact ⟨⟨eq_insertionSort sorts.sorted perm, proper⟩, sorted, counted, by simp⟩
  | threw | terminated => exact ⟨trivial, sorted, counted, by simp⟩
  | passed =>
      refine ⟨trivial, fun data member => ?_, ?_, by simp⟩
      · rcases List.mem_append.mp member with earlier | last
        · exact sorted data earlier
        · exact (List.mem_singleton.mp last).trans holds.1
      · simp only [SortPc.inside, Bool.toNat_true, Bool.toNat_false, List.length_append,
          List.length_singleton] at counted ⊢
        omega
  | failed wrong =>
      obtain ⟨rfl, -⟩ := holds
      have right : isSorted ((filled rand size).insertionSort (· ≤ ·)) = true :=
        (isSorted_iff _).mpr (List.pairwise_insertionSort _ _).sortedLE
      simp [right] at wrong

theorem passes_of_reachable (lawful : sorter.Lawful)
    (reach : (sortImpl sorter rand size iterations).Reachable state) :
    Passes sorter rand size iterations state := by
  refine reach.invariant (motive := Passes sorter rand size iterations) ?_ ?_
  · rintro _ rfl
    exact ⟨trivial, nofun, by simp [SortPc.inside], nofun⟩
  · exact fun _ passes step => passes.step lawful step

/-! ## The benchmark ends -/

/-- `sort_impl` has returned or has been left. -/
def SortPc.final : SortPc State → Bool
  | .ended | .threw _ | .terminated => true
  | _ => false

/-- A sorter that can end a call on its own can do so inside of the benchmark. -/
theorem exists_run_sorter {data : Contents Int} {first last length left : Nat}
    {sorted : List (List Int)} {trace : List Label} {inner final : State}
    (run : (sorter.calls data first last).Run inner trace final)
    (ends : (sorter.outcome final).isSome = true) : ∃ trace last,
      (sortImpl sorter rand size iterations).Run ⟨left, .sorting length inner, sorted⟩ trace
        ⟨left, .sorting length last, sorted⟩ ∧ (sorter.outcome last).isSome = true := by
  induction trace generalizing inner with
  | nil =>
      rcases run.eq_or_exists_cons with ⟨-, rfl⟩ | ⟨_, _, _, same, -⟩
      · exact ⟨[], inner, .nil, ends⟩
      · simp at same
  | cons label trace ih =>
      cases already : sorter.outcome inner with
      | some outcome => exact ⟨[], inner, .nil, by simp [already]⟩
      | none =>
          rcases run.eq_or_exists_cons with ⟨same, -⟩ | ⟨_, middle, _, same, step, later⟩
          · simp at same
          · obtain ⟨rfl, rfl⟩ := List.cons.inj same
            obtain ⟨rest, last, run', ends'⟩ := ih later
            exact ⟨_, last, run'.cons (.sorter step already), ends'⟩

theorem exists_run_fill {left : Nat} {sorted : List (List Int)} {data : List Int} :
    ∃ trace data', (sortImpl sorter rand size iterations).Run ⟨left, .filling data, sorted⟩ trace
      ⟨left, .filling data', sorted⟩ ∧ ¬ data'.length < size := by
  induction missing : (size - data.length).toNat generalizing data with
  | zero => exact ⟨[], data, .nil, by omega⟩
  | succ rest ih =>
      have more : data.length < size := by omega
      have less : (size - (data ++ [rand data.length]).length).toNat = rest := by
        rw [List.length_append, List.length_singleton]
        omega
      obtain ⟨trace, data', run, full⟩ := ih less
      exact ⟨_, data', run.cons (.pushBack more), full⟩

/-- The benchmark can come to an end. -/
def CanEnd (sorter : Sorter State Label) (rand : Nat → Int) (size : Int) (iterations : Nat)
    (state : SortState State) : Prop :=
  ∃ trace after, (sortImpl sorter rand size iterations).Run state trace after ∧
    after.pc.final = true

theorem CanEnd.of_run {trace : List (Option Label)} {middle : SortState State}
    (ends : CanEnd sorter rand size iterations middle)
    (run : (sortImpl sorter rand size iterations).Run state trace middle) :
    CanEnd sorter rand size iterations state := by
  obtain ⟨rest, after, run', final⟩ := ends
  exact ⟨_, after, run.append run', final⟩

theorem CanEnd.of_step (step : SortStep sorter rand size state label after)
    (ends : CanEnd sorter rand size iterations after) :
    CanEnd sorter rand size iterations state :=
  ends.of_run (.cons step .nil)

/-- An iteration can be brought to its end, so the benchmark ends if the rest of the loop does. -/
theorem canEnd_of_loop (lawful : sorter.Lawful) {left : Nat}
    (loop : ∀ sorted, (sortImpl sorter rand size iterations).Reachable ⟨left, .loop, sorted⟩ →
      CanEnd sorter rand size iterations ⟨left, .loop, sorted⟩)
    (reach : (sortImpl sorter rand size iterations).Reachable state)
    (counted : state.iterations = left) : CanEnd sorter rand size iterations state := by
  -- backwards through the body of the loop
  have checking {data : List Int} {sorted : List (List Int)}
      (reach : (sortImpl sorter rand size iterations).Reachable ⟨left, .checking data, sorted⟩) :
      CanEnd sorter rand size iterations ⟨left, .checking data, sorted⟩ := by
    cases check : isSorted data with
    | true => exact .of_step (.passed check) (loop _ (reach.step (.passed check)))
    | false => exact .of_step (.failed check) ⟨[], _, .nil, rfl⟩
  have sorting {length : Nat} {inner : State} {sorted : List (List Int)}
      (reach : (sortImpl sorter rand size iterations).Reachable
        ⟨left, .sorting length inner, sorted⟩) :
      CanEnd sorter rand size iterations ⟨left, .sorting length inner, sorted⟩ := by
    obtain ⟨-, -, called⟩ := (passes_of_reachable lawful reach).holds
    obtain ⟨trace, final, run, ends⟩ := lawful.ends called
    obtain ⟨_, last, run', ends'⟩ := exists_run_sorter run ends
    refine CanEnd.of_run ?_ run'
    obtain ⟨outcome, same⟩ := Option.isSome_iff_exists.mp ends'
    cases outcome with
    | returned data =>
        exact .of_step (.returned same) (checking ((run'.reachable reach).step (.returned same)))
    | threw => exact .of_step (.threw same) ⟨[], _, .nil, rfl⟩
    | terminated => exact .of_step (.terminated same) ⟨[], _, .nil, rfl⟩
  obtain ⟨_, pc, sorted⟩ := state
  obtain rfl : _ = left := counted
  cases pc with
  | loop => exact loop sorted reach
  | filling data =>
      obtain ⟨trace, data', run, full⟩ := exists_run_fill
      exact (CanEnd.of_step (.call full) (sorting ((run.reachable reach).step (.call full)))).of_run
        run
  | sorting => exact sorting reach
  | checking data => exact checking reach
  | ended | threw | terminated => exact ⟨[], _, .nil, rfl⟩

theorem canEnd_of_reachable (lawful : sorter.Lawful)
    (reach : (sortImpl sorter rand size iterations).Reachable state) :
    CanEnd sorter rand size iterations state := by
  have loop (left : Nat) : ∀ sorted,
      (sortImpl sorter rand size iterations).Reachable ⟨left, .loop, sorted⟩ →
        CanEnd sorter rand size iterations ⟨left, .loop, sorted⟩ := by
    induction left with
    | zero => exact fun sorted _ => .of_step .done ⟨[], _, .nil, rfl⟩
    | succ left ih =>
        intro sorted reach
        by_cases proper : 0 ≤ size
        · exact .of_step (.reserve proper)
            (canEnd_of_loop lawful ih (reach.step (.reserve proper)) rfl)
        · exact .of_step (.tooLarge (by omega)) ⟨[], _, .nil, rfl⟩
  exact canEnd_of_loop lawful (loop _) reach rfl

/-! ## The two sorters -/

/-- `single_threaded_sort`. -/
def singleThreaded : Sorter (Recursion Int) CallStep where
  start data first last := ⟨data, [(first, last)]⟩
  Step := RecursionStep
  outcome state := if state.pending = [] then some (.returned state.data) else none

/-- `multithreaded_sort`. -/
def multithreaded : Sorter (Attempt Int) (List Child × Event Int) where
  start data first last := ⟨data, .entered first last⟩
  Step before label after := before.next label = some after
  outcome attempt :=
    if attempt.frame.isReturned then some (.returned attempt.data)
    else if attempt.frame.hasThrown then some .threw
    else if attempt.frame.escapes then some .terminated
    else none

theorem singleThreaded_lawful : singleThreaded.Lawful := by
  constructor
  · intro data first last state result reach returned
    obtain ⟨_, trace, rfl, run⟩ := reach.exists_run
    have run' : (recursion data first last).Run ⟨data, [(first, last)]⟩ trace state := run
    obtain ⟨done, rfl⟩ : state.pending = [] ∧ state.data = result := by
      simpa [singleThreaded] using returned
    obtain ⟨sorted, rest, later, sorts⟩ := exists_returned run' done
    rcases later.eq_or_exists_cons with ⟨-, rfl⟩ | ⟨_, _, _, -, step, -⟩
    · exact sorts
    · cases step
  · intro data first last state _
    obtain ⟨trace, final, run, -, done⟩ : ∃ trace final,
        (recursion data first last).Run state trace final ∧ True ∧ final.pending = [] := by
      refine TransitionSystem.exists_run_of_decreasing Nat.lt_wfRel.wf Recursion.remaining
        (motive := fun _ => True) ?_ trivial
      intro before _
      by_cases done : before.pending = []
      · exact Or.inl done
      · obtain ⟨label, after, step⟩ := exists_recursionStep done
        exact Or.inr ⟨label, after, step, trivial, step.remaining_lt⟩
    exact ⟨trace, final, run, by simp [singleThreaded, done]⟩

theorem isSome_outcome (attempt : Attempt Int) : (multithreaded.outcome attempt).isSome =
    (attempt.frame.left || attempt.frame.escapes) := by
  simp only [multithreaded, Frame.left]
  cases attempt.frame.isReturned <;> cases attempt.frame.hasThrown <;>
    cases attempt.frame.escapes <;> rfl

theorem multithreaded_lawful : multithreaded.Lawful := by
  constructor
  · intro data first last state result reach returned
    have reach' : (attempts data first last).Reachable state := reach
    obtain ⟨progress, atFirst, atLast, outside⟩ := (trying_of_reachable reach').1
    cases ended : state.frame.isReturned with
    | false =>
        simp only [multithreaded, ended, Bool.false_eq_true, if_false] at returned
        split at returned <;> simp at returned
    | true =>
        obtain rfl : state.data = result := by simpa [multithreaded, ended] using returned
        obtain ⟨-, sorted, perm⟩ := progress.of_returned (by rwa [Frame.isReturned_forget])
        rw [atFirst, atLast] at sorted perm
        exact ⟨sorted, perm, outside⟩
  · intro data first last state reach
    have reach' : (attempts data first last).Reachable state := reach
    obtain ⟨progress, atFirst, atLast, -⟩ := (trying_of_reachable reach').1
    obtain ⟨trace, final, run, -, ends⟩ : Completes data first last state.data state.frame :=
      completes progress (by simp [slice, atFirst, atLast])
    exact ⟨trace, final, run, by rw [isSome_outcome, Bool.or_eq_true]; exact ends⟩

/-- A sorter that always returns does not end the benchmark. -/
theorem not_final_of_returns
    (returns : ∀ state, sorter.outcome state ≠ some .threw ∧
      sorter.outcome state ≠ some .terminated)
    (reach : (sortImpl sorter rand size iterations).Reachable state) :
    state.pc ≠ .threw .systemError ∧ state.pc ≠ .terminated := by
  refine reach.invariant (motive := fun state =>
    state.pc ≠ .threw .systemError ∧ state.pc ≠ .terminated) ?_ ?_
  · rintro _ rfl
    exact ⟨nofun, nofun⟩
  · intro before label after _ _ step
    cases (step : SortStep sorter rand size before label after) with
    | threw thrown => exact absurd thrown (returns _).1
    | terminated terminated => exact absurd terminated (returns _).2
    | _ => exact ⟨nofun, nofun⟩

/-- With both sorts the check never fails, and the vector that passes it is the same in every
iteration: the numbers in ascending order.  From every state the benchmark can come to an end; with
`single_threaded_sort` this is the return after all iterations, unless the size is negative. -/
theorem sortImpl_passes (rand : Nat → Int) (size : Int) (iterations : Nat) :
    (∀ state, (sortImpl singleThreaded rand size iterations).Reachable state →
      Passes singleThreaded rand size iterations state ∧
      CanEnd singleThreaded rand size iterations state ∧
      (state.pc.final = true → state.pc = .ended ∨ state.pc = .threw .lengthError)) ∧
    ∀ state, (sortImpl multithreaded rand size iterations).Reachable state →
      Passes multithreaded rand size iterations state ∧
      CanEnd multithreaded rand size iterations state := by
  refine ⟨fun state reach => ⟨passes_of_reachable singleThreaded_lawful reach,
    canEnd_of_reachable singleThreaded_lawful reach, ?_⟩,
    fun state reach => ⟨passes_of_reachable multithreaded_lawful reach,
      canEnd_of_reachable multithreaded_lawful reach⟩⟩
  intro final
  have passes := passes_of_reachable singleThreaded_lawful reach
  have returns (state : Recursion Int) : singleThreaded.outcome state ≠ some .threw ∧
      singleThreaded.outcome state ≠ some .terminated := by
    simp only [singleThreaded]
    split <;> exact ⟨nofun, nofun⟩
  obtain ⟨noError, running⟩ := not_final_of_returns returns reach
  cases position : state.pc with
  | ended => exact Or.inl rfl
  | terminated => exact absurd position running
  | threw failure =>
      cases failure with
      | lengthError => exact Or.inr rfl
      | systemError => exact absurd position noError
      | logicError => exact absurd passes.holds (by rw [position]; exact id)
  | _ => simp [position, SortPc.final] at final

/-- Two iterations with three numbers. -/
theorem sortImpl_passes_three : ∃ trace after,
    (sortImpl singleThreaded (fun index => 5 - index) 3 2).Run ⟨2, .loop, []⟩ trace after ∧
      after.pc = .ended ∧ after.sorted = [[3, 4, 5], [3, 4, 5]] := by
  have reach : (sortImpl singleThreaded (fun index => 5 - index) 3 2).Reachable ⟨2, .loop, []⟩ :=
    .initial rfl
  obtain ⟨trace, after, run, final⟩ := ((sortImpl_passes _ 3 2).1 _ reach).2.1
  obtain ⟨⟨holds, sorted, counted, left⟩, -, ends⟩ :=
    (sortImpl_passes _ 3 2).1 after (run.reachable reach)
  have ended : after.pc = .ended := by
    refine (ends final).resolve_right fun thrown => ?_
    rw [thrown] at holds
    exact absurd (show (3 : Int) < 0 from holds) (by decide)
  refine ⟨trace, after, run, ended, ?_⟩
  rw [left ended, ended] at counted
  exact List.eq_replicate_iff.mpr ⟨counted, fun data member => (sorted data member).trans rfl⟩

end Sorting
end ConcurrencyCourse
