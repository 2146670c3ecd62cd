import ConcurrencyCourse.Library.Interleaving
import ConcurrencyCourse.ThreadSafeQueue

/-!
# The queue with one lock

`SimpleThreadSafeQueue` guards a `std::deque` by one mutex.  The steps of its calls are given for
a thread inside a call, so that other components can embed them: every lock and unlock, every test,
move and removal, the release-and-block of the condition variable and `notify_one` are separate
steps.  A growth of the deque or a move of a value may throw, leaving its source and target
unchanged.
-/

namespace ConcurrencyCourse
namespace SimpleQueue

open ThreadSafeQueue

/-- Members of the queue and history variables. -/
structure Queue (Tid Value : Type*) where
  /-- `m_queue`; an element that has been moved from is `none`. -/
  queue : List (Option Value)
  /-- `m_mutex`. -/
  mutex : Option Tid
  /-- Threads blocked on `m_condVariable` and not notified. -/
  condVariable : Finset Tid
  /-- `front` or `pop_front` has been called on an empty deque. -/
  undefined : Bool
  /-- History variable: values appended, in order. -/
  pushed : List Value
  /-- History variable: values moved out of the front element, with the thread that did it. -/
  removed : List (Tid × Value)

/-- A new queue. -/
def Queue.empty {Tid Value : Type*} : Queue Tid Value := ⟨[], none, ∅, false, [], []⟩

/-- Position of a thread in a call, with the values of its local variables. -/
inductive Pc (Value : Type*)
  | idle
  -- push
  | pushLock (newValue : Value)
  | pushEmplace (newValue : Value)
  | pushNotify
  | pushUnlock
  -- try_pop
  | tryLock
  | tryTest
  | tryMove
  | tryPopFront (val : Value)
  | tryUnlock (val : Option Value)
  -- wait_and_pop
  | waitLock
  | waitEmpty
  | waitTest
  | waitBlock
  | waiting
  | waitMove
  | waitPopFront (value : Value)
  | waitReturn (value : Value)
  | waitUnlock (value : Value)
  -- the end of every call
  | unwind
  | returning (result : Result Value)
  deriving DecidableEq

/-- Actions of a thread inside a call.  `notifyOne` names the waiter that is woken, if there is
one. -/
inductive Action (Tid : Type*)
  | run
  | notifyOne (waiter : Option Tid)
  | wakeSpuriously
  | throw
  deriving DecidableEq

section Steps

variable {Tid Value : Type*}

namespace Queue

/-- Acquire `m_mutex` if it is free. -/
def lock (queue : Queue Tid Value) (thread : Tid) (pc : Pc Value) :
    Option (Queue Tid Value × Pc Value) :=
  match queue.mutex with
  | none => some ({ queue with mutex := some thread }, pc)
  | some _ => none

/-- Release `m_mutex`. -/
def unlock (queue : Queue Tid Value) : Queue Tid Value := { queue with mutex := none }

/-- Move the value out of the front element. -/
def moveFront (queue : Queue Tid Value) (thread : Tid) : Option (Queue Tid Value × Value) :=
  match queue.queue with
  | some value :: rest =>
      some ({ queue with queue := none :: rest, removed := queue.removed ++ [(thread, value)] },
        value)
  | _ => none

/-- Record a call of `front` or `pop_front` on an empty or emptied element. -/
def fault (queue : Queue Tid Value) : Queue Tid Value := { queue with undefined := true }

/-- `m_queue.pop_front()`. -/
def popFront (queue : Queue Tid Value) : Queue Tid Value :=
  match queue.queue with
  | _ :: rest => { queue with queue := rest }
  | [] => queue.fault

end Queue

/-- First position of a call. -/
def entry : Call Value → Pc Value
  | .push newValue => .pushLock newValue
  | .tryPop => .tryLock
  | .waitAndPop => .waitLock

/-- A throwing growth of the deque or move of a value; `none` where nothing can throw. -/
def throwStep (pc : Pc Value) : Option (Pc Value) :=
  match pc with
  | .pushEmplace _ | .tryMove | .waitMove | .waitReturn _ => some .unwind
  | _ => none

/-- Steps of `push` and of the end of a call that throws. -/
def pushStep (thread : Tid) (queue : Queue Tid Value) (pc : Pc Value) :
    Option (Queue Tid Value × Pc Value) :=
  match pc with
  | .pushLock newValue => queue.lock thread (.pushEmplace newValue)
  | .pushEmplace newValue =>
      some ({ queue with
          queue := queue.queue ++ [some newValue]
          pushed := queue.pushed ++ [newValue] }, .pushNotify)
  | .pushUnlock => some (queue.unlock, .returning .pushed)
  | .unwind => some (queue.unlock, .returning .threw)
  | _ => none

/-- Steps of `try_pop`. -/
def tryStep (thread : Tid) (queue : Queue Tid Value) (pc : Pc Value) :
    Option (Queue Tid Value × Pc Value) :=
  match pc with
  | .tryLock => queue.lock thread .tryTest
  | .tryTest => some (queue, if queue.queue = [] then .tryUnlock none else .tryMove)
  | .tryMove =>
      match queue.moveFront thread with
      | some (queue, val) => some (queue, .tryPopFront val)
      | none => some (queue.fault, pc)
  | .tryPopFront val => some (queue.popFront, .tryUnlock (some val))
  | .tryUnlock val => some (queue.unlock, .returning (.popped val))
  | _ => none

/-- Steps of `wait_and_pop` other than those of the wait itself. -/
def waitStep (thread : Tid) (queue : Queue Tid Value) (pc : Pc Value) :
    Option (Queue Tid Value × Pc Value) :=
  match pc with
  | .waitLock => queue.lock thread .waitEmpty
  | .waitEmpty => some (queue, if queue.queue = [] then .waitTest else .waitMove)
  | .waitTest => some (queue, if queue.queue = [] then .waitBlock else .waitMove)
  | .waitMove =>
      match queue.moveFront thread with
      | some (queue, value) => some (queue, .waitPopFront value)
      | none => some (queue.fault, pc)
  | .waitPopFront value => some (queue.popFront, .waitReturn value)
  | .waitReturn value => some (queue, .waitUnlock value)
  | .waitUnlock value => some (queue.unlock, .returning (.popped (some value)))
  | _ => none

variable [DecidableEq Tid]

/-- One step of a thread inside a call. -/
def callStep (thread : Tid) (action : Action Tid) (queue : Queue Tid Value)
    (pc : Pc Value) : Option (Queue Tid Value × Pc Value) :=
  match action, pc with
  | .notifyOne none, .pushNotify =>
      if queue.condVariable = ∅ then some (queue, .pushUnlock) else none
  | .notifyOne (some waiter), .pushNotify =>
      if waiter ∈ queue.condVariable then
        some ({ queue with condVariable := queue.condVariable.erase waiter }, .pushUnlock)
      else none
  | .run, .waitBlock =>
      some ({ queue with mutex := none, condVariable := insert thread queue.condVariable },
        .waiting)
  | .wakeSpuriously, .waiting =>
      if thread ∈ queue.condVariable then
        some ({ queue with condVariable := queue.condVariable.erase thread }, .waiting)
      else none
  | .run, .waiting =>
      if thread ∈ queue.condVariable then none else queue.lock thread .waitTest
  | .throw, _ => (throwStep pc).map fun pc => (queue, pc)
  | .run, _ => (pushStep thread queue pc).or ((tryStep thread queue pc).or
      (waitStep thread queue pc))
  | _, _ => none

end Steps

end SimpleQueue
end ConcurrencyCourse
