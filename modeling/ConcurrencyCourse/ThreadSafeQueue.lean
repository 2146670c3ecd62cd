import ConcurrencyCourse.Library.AtomicObject

/-!
# The interface of the two queues

Both queues of the course offer `push`, `try_pop` and `wait_and_pop`.  What a caller may rely on is
one sequential object: a first-in first-out list of values.
-/

namespace ConcurrencyCourse
namespace ThreadSafeQueue

/-- The calls of the public interface. -/
inductive Call (Value : Type*)
  | push (value : Value)
  | tryPop
  | waitAndPop
  deriving DecidableEq

/-- What the calls return; `threw` is an exit by an exception. -/
inductive Result (Value : Type*)
  | pushed
  | popped (value : Option Value)
  | threw
  deriving DecidableEq

/-- A first-in first-out queue; `wait_and_pop` has no result while the queue is empty. -/
def fifo (Value : Type*) : SequentialObject (List Value) (Call Value) (Result Value) where
  initial := []
  apply before call result after :=
    match call, result with
    | .push value, .pushed => after = before ++ [value]
    | .tryPop, .popped none => before = [] ∧ after = []
    | .tryPop, .popped (some value) | .waitAndPop, .popped (some value) => before = value :: after
    | _, _ => False

end ThreadSafeQueue
end ConcurrencyCourse
