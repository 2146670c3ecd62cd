import ConcurrencyCourse.Library.Slice
import ConcurrencyCourse.Library.TransitionSystem
import Mathlib.Order.Interval.Finset.Nat

/-!
# The two sorts

`single_threaded_sort` and `multithreaded_sort` divide a range with `std::nth_element` and sort its
two parts by recursion.  The second one sorts the left part in a thread of its own, which the
destructor of `asyncTask` joins.  A state of it is the tree of the activations that have been
entered: each has its position and local variables, and an activation that has divided its range has
one child in a new thread and one child in its own.  Iterators are indices of the vector, and
`std::nth_element` writes arbitrarily in its range until its contract holds.
-/

namespace ConcurrencyCourse
namespace Sorting

open Slice

variable {Value : Type*} [LinearOrder Value]

/-- The elements of the vector by index. -/
abbrev Contents (Value : Type*) := Nat → Value

/-- `begin + std::distance(begin, end) / 2`. -/
def dividePoint (first last : Nat) : Nat := first + (last - first) / 2

/-- What `std::nth_element` has done to a range that it found with the contents `entry`. -/
structure Selected (entry : List Value) (data : Contents Value) (first nth last : Nat) : Prop where
  perm : (slice data first last).Perm entry
  before : ∀ value ∈ slice data first nth, value ≤ data nth
  after : ∀ value ∈ slice data (nth + 1) last, data nth ≤ value

instance (entry : List Value) (data : Contents Value) (first nth last : Nat) :
    Decidable (Selected entry data first nth last) :=
  decidable_of_iff ((slice data first last).Perm entry ∧
      (∀ value ∈ slice data first nth, value ≤ data nth) ∧
        ∀ value ∈ slice data (nth + 1) last, data nth ≤ value)
    ⟨fun ⟨perm, before, after⟩ => ⟨perm, before, after⟩,
      fun selected => ⟨selected.perm, selected.before, selected.after⟩⟩

/-- A function that behaves as `std::nth_element` on the elements, for the choices it makes. -/
structure LawfulNthElement (nthElement : Contents Value → Nat → Nat → Nat → Contents Value) :
    Prop where
  selected : ∀ data {first nth last}, first ≤ nth → nth < last →
    Selected (slice data first last) (nthElement data first nth last) first nth last
  outside : ∀ data {first nth last index}, index < first ∨ last ≤ index →
    nthElement data first nth last index = data index

omit [LinearOrder Value] in
/-- `single_threaded_sort`. -/
def singleThreadedSort (nthElement : Contents Value → Nat → Nat → Nat → Contents Value)
    (data : Contents Value) (first last : Nat) : Contents Value :=
  if _short : last - first ≤ 1 then data
  else
    let data := nthElement data first (dividePoint first last) last
    let data := singleThreadedSort nthElement data first (dividePoint first last)
    singleThreadedSort nthElement data (dividePoint first last + 1) last
termination_by last - first
decreasing_by all_goals (simp only [dividePoint]; omega)

/-! ## Activations of multithreaded_sort -/

/-- An activation of `multithreaded_sort` on a range, with the activations it has started. -/
inductive Activation (Value : Type*)
  /-- About to test the distance. -/
  | entered (first last : Nat)
  /-- Inside `std::nth_element`, which found the given elements in the range. -/
  | selecting (first last : Nat) (entry : List Value)
  /-- About to construct `asyncTask`. -/
  | selected (first last : Nat)
  /-- `asyncTask` runs one child, and the thread of the activation runs the other. -/
  | divided (first last : Nat) (asyncTask own : Activation Value)
  /-- Returned after the test of the distance. -/
  | returned (first last : Nat)
  /-- Returned after `asyncTask` was joined. -/
  | joined (first last : Nat) (asyncTask own : Activation Value)
  deriving DecidableEq

/-- The two activations that an activation starts. -/
inductive Child
  | asyncTask
  | own
  deriving DecidableEq

/-- A step of the program itself, or a write of `std::nth_element`. -/
inductive Action (Value : Type*)
  | run
  | write (index : Nat) (value : Value)
  deriving DecidableEq

omit [LinearOrder Value] in
/-- An activation that has returned. -/
def Activation.isReturned : Activation Value → Bool
  | .returned _ _ | .joined _ _ _ _ => true
  | _ => false

/-- One step of an activation that is the last of its thread; its return waits for `asyncTask`. -/
def Activation.step (action : Action Value) (data : Contents Value) :
    Activation Value → Option (Contents Value × Activation Value)
  | .entered first last =>
      match action with
      | .run => some (data, if last - first ≤ 1 then .returned first last
          else .selecting first last (slice data first last))
      | .write _ _ => none
  | .selecting first last entry =>
      match action with
      | .run =>
          if Selected entry data first (dividePoint first last) last then
            some (data, .selected first last)
          else none
      | .write index value =>
          if first ≤ index ∧ index < last then
            some (Function.update data index value, .selecting first last entry)
          else none
  | .selected first last =>
      match action with
      | .run => some (data, .divided first last (.entered first (dividePoint first last))
          (.entered (dividePoint first last + 1) last))
      | .write _ _ => none
  | .divided first last asyncTask own =>
      match action with
      | .run =>
          if own.isReturned ∧ asyncTask.isReturned then
            some (data, .joined first last asyncTask own)
          else none
      | .write _ _ => none
  | .returned _ _ | .joined _ _ _ _ => none

/-- One step of the activation at a path from the root. -/
def Activation.stepAt (action : Action Value) (data : Contents Value) :
    List Child → Activation Value → Option (Contents Value × Activation Value)
  | [], activation => activation.step action data
  | .asyncTask :: path, .divided first last asyncTask own =>
      (asyncTask.stepAt action data path).map fun result =>
        (result.1, .divided first last result.2 own)
  | .own :: path, .divided first last asyncTask own =>
      (own.stepAt action data path).map fun result =>
        (result.1, .divided first last asyncTask result.2)
  | _ :: _, _ => none

/-- The vector and the activations. -/
structure State (Value : Type*) where
  data : Contents Value
  activation : Activation Value

/-- Let the activation at a path take a step. -/
def State.next (label : List Child × Action Value) (state : State Value) : Option (State Value) :=
  (state.activation.stepAt label.2 state.data label.1).map fun result => ⟨result.1, result.2⟩

/-- A call of `multithreaded_sort` with every interleaving of the threads it starts. -/
def multithreadedSort (data : Contents Value) (first last : Nat) :
    TransitionSystem (State Value) (List Child × Action Value) where
  Initial state := state = ⟨data, .entered first last⟩
  Step before label after := before.next label = some after

end Sorting
end ConcurrencyCourse
