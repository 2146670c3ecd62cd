import ConcurrencyCourse.SimpleQueue.Model
import Mathlib.Data.List.ReduceOption

/-!
# The deque under its mutex

Whoever holds `m_mutex` knows the deque: outside the two steps that move a value out and pop its
element, every element holds a value.  The values appended are then always those moved out followed
by those still stored, and no call works on an empty deque.
-/

namespace ConcurrencyCourse
namespace SimpleQueue

open ThreadSafeQueue

variable {Tid Value : Type*}

/-- The values stored in the deque. -/
def Queue.contents (queue : Queue Tid Value) : List Value := queue.queue.reduceOption

/-- Every element of the deque holds a value. -/
def Queue.Intact (queue : Queue Tid Value) : Prop :=
  ∃ values : List Value, queue.queue = values.map some

/-- Positions at which `m_mutex` is held. -/
def Pc.holds : Pc Value → Bool
  | .pushEmplace _ | .pushNotify | .pushUnlock | .tryTest | .tryMove | .tryPopFront _
  | .tryUnlock _ | .waitEmpty | .waitTest | .waitBlock | .waitMove | .waitPopFront _
  | .waitReturn _ | .waitUnlock _ | .unwind => true
  | _ => false

/-- What the holder of the mutex knows of the deque. -/
def FrontFact (queue : Queue Tid Value) : Pc Value → Prop
  | .tryMove | .waitMove =>
      ∃ (value : Value) (values : List Value), queue.queue = some value :: values.map some
  | .tryPopFront _ | .waitPopFront _ => ∃ values : List Value, queue.queue = none :: values.map some
  | pc => pc.holds = true → queue.Intact

/-- The deque as a whole. -/
structure Shape (queue : Queue Tid Value) : Prop where
  defined : queue.undefined = false
  free : queue.mutex = none → queue.Intact
  order : queue.pushed = queue.removed.map Prod.snd ++ queue.contents

/-- The assertion of one thread. -/
structure Assertion (thread : Tid) (queue : Queue Tid Value) (pc : Pc Value) : Prop where
  held : queue.mutex = some thread ↔ pc.holds = true
  blocked : thread ∈ queue.condVariable → pc = .waiting
  front : FrontFact queue pc

/-- What a step of another thread leaves in place for `other`. -/
structure Rely (other : Tid) (queue queue' : Queue Tid Value) : Prop where
  mutex : queue'.mutex = some other ↔ queue.mutex = some other
  condVariable : other ∈ queue'.condVariable → other ∈ queue.condVariable
  queue : queue.mutex = some other → queue'.queue = queue.queue

theorem FrontFact.of_not_holds {queue : Queue Tid Value} {pc : Pc Value}
    (free : pc.holds = false) : FrontFact queue pc := by
  cases pc <;> simp_all [Pc.holds, FrontFact]

theorem FrontFact.congr {queue queue' : Queue Tid Value} {pc : Pc Value}
    (fact : FrontFact queue pc) (same : queue'.queue = queue.queue) : FrontFact queue' pc := by
  cases pc <;> simpa only [FrontFact, Queue.Intact, same] using fact

theorem Assertion.of_rely {other : Tid} {queue queue' : Queue Tid Value} {pc : Pc Value}
    (assertion : Assertion other queue pc) (rely : Rely other queue queue') :
    Assertion other queue' pc := by
  refine ⟨rely.mutex.trans assertion.held, fun member => assertion.blocked
    (rely.condVariable member), ?_⟩
  cases holds : pc.holds with
  | false => exact .of_not_holds holds
  | true => exact assertion.front.congr (rely.queue (assertion.held.mpr holds))

end SimpleQueue
end ConcurrencyCourse
