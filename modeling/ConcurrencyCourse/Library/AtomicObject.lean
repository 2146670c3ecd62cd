import ConcurrencyCourse.Library.TransitionSystem
import Mathlib.Logic.Function.Basic

/-!
# Atomic objects and linearizability

A sequential object says which results an operation may return and how it changes the object's
value.  The atomic object built from it lets any number of threads call operations: between its
call and its return every operation takes effect in one indivisible step.  A concurrent system is
linearizable when each of its histories of calls and returns is a history of the atomic object,
which a forward simulation establishes.
-/

/-- Operations of an object, with the results they may return. -/
structure SequentialObject (Value Op Ret : Type*) where
  /-- Value of a new object. -/
  initial : Value
  /-- `apply before op result after`: the operation may return `result` and leave `after`. -/
  apply : Value → Op → Ret → Value → Prop

namespace AtomicObject

/-- A call of an operation by a thread, or a return of its result. -/
inductive Event (Tid Op Ret : Type*)
  | call (thread : Tid) (op : Op)
  | ret (thread : Tid) (result : Ret)

/-- Progress of a thread: between operations, before or after the operation takes effect. -/
inductive Status (Op Ret : Type*)
  | idle
  | pending (op : Op)
  | finished (result : Ret)

/-- The object's value, the progress of each thread and the history so far. -/
structure State (Tid Value Op Ret : Type*) where
  /-- Current value of the object. -/
  value : Value
  /-- Progress of each thread. -/
  status : Tid → Status Op Ret
  /-- Calls and returns so far, in order. -/
  history : List (Event Tid Op Ret)

variable {Tid Value Op Ret : Type*} [DecidableEq Tid]

/-- Steps of the atomic object. -/
inductive Step (object : SequentialObject Value Op Ret) :
    State Tid Value Op Ret → State Tid Value Op Ret → Prop
  | call {state : State Tid Value Op Ret} {thread : Tid} (op : Op) :
      state.status thread = .idle →
      Step object state
        { value := state.value
          status := Function.update state.status thread (.pending op)
          history := state.history ++ [.call thread op] }
  | effect {state : State Tid Value Op Ret} {thread : Tid} {op : Op} (result : Ret)
      (value : Value) : state.status thread = .pending op →
      object.apply state.value op result value →
      Step object state
        { value := value
          status := Function.update state.status thread (.finished result)
          history := state.history }
  | ret {state : State Tid Value Op Ret} {thread : Tid} {result : Ret} :
      state.status thread = .finished result →
      Step object state
        { value := state.value
          status := Function.update state.status thread .idle
          history := state.history ++ [.ret thread result] }

/-- The atomic object as a transition system. -/
def system (Tid : Type*) [DecidableEq Tid] (object : SequentialObject Value Op Ret) :
    TransitionSystem (State Tid Value Op Ret) Unit where
  Initial state := state = ⟨object.initial, fun _ => .idle, []⟩
  Step before _ after := Step object before after

/-- A forward simulation that matches each step by at most one step of the atomic object. -/
theorem exists_of_simulation {Concrete Label : Type*}
    {concrete : TransitionSystem Concrete Label} {object : SequentialObject Value Op Ret}
    (related : Concrete → State Tid Value Op Ret → Prop)
    (base : ∀ {start}, concrete.Initial start →
      related start ⟨object.initial, fun _ => .idle, []⟩)
    (simulate : ∀ {before label after state}, concrete.Reachable before →
      related before state → concrete.Step before label after →
      related after state ∨ ∃ state', Step object state state' ∧ related after state')
    {config : Concrete} (reach : concrete.Reachable config) :
    ∃ state, (system Tid object).Reachable state ∧ related config state := by
  refine reach.invariant (motive := fun config => ∃ state,
    (system Tid object).Reachable state ∧ related config state) ?_ ?_
  · exact fun start => ⟨_, .initial rfl, base start⟩
  · rintro before label after earlier ⟨state, atomic, relates⟩ step
    rcases simulate earlier relates step with relates' | ⟨state', effect, relates'⟩
    · exact ⟨state, atomic, relates'⟩
    · have atomic' : (system Tid object).Step state () state' := effect
      exact ⟨state', atomic.step atomic', relates'⟩

end AtomicObject
