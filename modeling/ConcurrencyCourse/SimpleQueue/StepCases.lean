import ConcurrencyCourse.SimpleQueue.Invariant

/-!
# What one step does

Under the assertion of its thread no call meets an empty deque or an element that has been moved
from, so each step has one known effect.
-/

namespace ConcurrencyCourse
namespace SimpleQueue

open ThreadSafeQueue

variable {Tid Value : Type*}

section Cases

variable [DecidableEq Tid]

/-- Effects of the steps of `push`, and of the end of a call that throws. -/
inductive PushCase (thread : Tid) (queue : Queue Tid Value) :
    Action Tid → Pc Value → Queue Tid Value → Pc Value → Prop
  | lock (newValue : Value) : queue.mutex = none → PushCase thread queue .run (.pushLock newValue)
      { queue with mutex := some thread } (.pushEmplace newValue)
  | emplace (newValue : Value) : PushCase thread queue .run (.pushEmplace newValue)
      { queue with
        queue := queue.queue ++ [some newValue], pushed := queue.pushed ++ [newValue] } .pushNotify
  | throwEmplace (newValue : Value) :
      PushCase thread queue .throw (.pushEmplace newValue) queue .unwind
  | notifyNobody : queue.condVariable = ∅ →
      PushCase thread queue (.notifyOne none) .pushNotify queue .pushUnlock
  | notify {waiter : Tid} : waiter ∈ queue.condVariable →
      PushCase thread queue (.notifyOne (some waiter)) .pushNotify
        { queue with condVariable := queue.condVariable.erase waiter } .pushUnlock
  | unlock : PushCase thread queue .run .pushUnlock queue.unlock (.returning .pushed)
  | unwind : PushCase thread queue .run .unwind queue.unlock (.returning .threw)

/-- Effects of the steps of `try_pop`. -/
inductive TryCase (thread : Tid) (queue : Queue Tid Value) :
    Action Tid → Pc Value → Queue Tid Value → Pc Value → Prop
  | lock : queue.mutex = none → TryCase thread queue .run .tryLock
      { queue with mutex := some thread } .tryTest
  | empty : queue.queue = [] → TryCase thread queue .run .tryTest queue (.tryUnlock none)
  | nonempty {value : Value} {values : List Value} : queue.queue = some value :: values.map some →
      TryCase thread queue .run .tryTest queue .tryMove
  | move {value : Value} {values : List Value} : queue.queue = some value :: values.map some →
      TryCase thread queue .run .tryMove
        { queue with
          queue := none :: values.map some, removed := queue.removed ++ [(thread, value)] }
        (.tryPopFront value)
  | throwMove : TryCase thread queue .throw .tryMove queue .unwind
  | popFront (val : Value) {values : List Value} : queue.queue = none :: values.map some →
      TryCase thread queue .run (.tryPopFront val) { queue with queue := values.map some }
        (.tryUnlock (some val))
  | unlock (val : Option Value) :
      TryCase thread queue .run (.tryUnlock val) queue.unlock (.returning (.popped val))

/-- Effects of the steps of `wait_and_pop`. -/
inductive WaitCase (thread : Tid) (queue : Queue Tid Value) :
    Action Tid → Pc Value → Queue Tid Value → Pc Value → Prop
  | lock : queue.mutex = none → WaitCase thread queue .run .waitLock
      { queue with mutex := some thread } .waitEmpty
  | empty : queue.queue = [] → WaitCase thread queue .run .waitEmpty queue .waitTest
  | nonempty {value : Value} {values : List Value} : queue.queue = some value :: values.map some →
      WaitCase thread queue .run .waitEmpty queue .waitMove
  | testEmpty : queue.queue = [] → WaitCase thread queue .run .waitTest queue .waitBlock
  | testNonempty {value : Value} {values : List Value} :
      queue.queue = some value :: values.map some →
      WaitCase thread queue .run .waitTest queue .waitMove
  | block : WaitCase thread queue .run .waitBlock
      { queue with mutex := none, condVariable := insert thread queue.condVariable } .waiting
  | wake : thread ∈ queue.condVariable → WaitCase thread queue .wakeSpuriously .waiting
      { queue with condVariable := queue.condVariable.erase thread } .waiting
  | relock : thread ∉ queue.condVariable → queue.mutex = none → WaitCase thread queue .run .waiting
      { queue with mutex := some thread } .waitTest
  | move {value : Value} {values : List Value} : queue.queue = some value :: values.map some →
      WaitCase thread queue .run .waitMove
        { queue with
          queue := none :: values.map some, removed := queue.removed ++ [(thread, value)] }
        (.waitPopFront value)
  | throwMove : WaitCase thread queue .throw .waitMove queue .unwind
  | popFront (value : Value) {values : List Value} : queue.queue = none :: values.map some →
      WaitCase thread queue .run (.waitPopFront value) { queue with queue := values.map some }
        (.waitReturn value)
  | finish (value : Value) :
      WaitCase thread queue .run (.waitReturn value) queue (.waitUnlock value)
  | throwReturn (value : Value) : WaitCase thread queue .throw (.waitReturn value) queue .unwind
  | unlock (value : Value) : WaitCase thread queue .run (.waitUnlock value) queue.unlock
      (.returning (.popped (some value)))

/-- Effects of every action of a thread inside a call. -/
inductive CallCase (thread : Tid) (queue : Queue Tid Value) (action : Action Tid) (pc : Pc Value)
    (queue' : Queue Tid Value) (pc' : Pc Value) : Prop
  | push : PushCase thread queue action pc queue' pc' →
      CallCase thread queue action pc queue' pc'
  | tryPop : TryCase thread queue action pc queue' pc' →
      CallCase thread queue action pc queue' pc'
  | waitAndPop : WaitCase thread queue action pc queue' pc' →
      CallCase thread queue action pc queue' pc'

end Cases

variable {thread : Tid} {queue queue' : Queue Tid Value} {pc pc' : Pc Value}

section Actions

variable [DecidableEq Tid]

omit [DecidableEq Tid] in
theorem Queue.lock_eq_some {next : Pc Value}
    (locked : queue.lock thread next = some (queue', pc')) :
    queue.mutex = none ∧ queue' = { queue with mutex := some thread } ∧ pc' = next := by
  cases free : queue.mutex with
  | some holder => simp [Queue.lock, free] at locked
  | none => simpa [Queue.lock, free, eq_comm] using locked

theorem pushStep_cases (step : pushStep thread queue pc = some (queue', pc')) :
    PushCase thread queue .run pc queue' pc' := by
  cases pc with
  | pushLock newValue =>
      obtain ⟨free, rfl, rfl⟩ := Queue.lock_eq_some step
      exact .lock newValue free
  | pushEmplace newValue =>
      obtain ⟨rfl, rfl⟩ : _ ∧ _ := by simpa [pushStep] using step
      exact .emplace newValue
  | pushUnlock =>
      obtain ⟨rfl, rfl⟩ : _ ∧ _ := by simpa [pushStep] using step
      exact .unlock
  | unwind =>
      obtain ⟨rfl, rfl⟩ : _ ∧ _ := by simpa [pushStep] using step
      exact .unwind
  | _ => simp [pushStep] at step

omit [DecidableEq Tid] in
/-- An intact deque is empty or has a front value. -/
theorem Queue.Intact.empty_or_front (intact : queue.Intact) :
    queue.queue = [] ∨ ∃ (value : Value) (values : List Value),
      queue.queue = some value :: values.map some := by
  obtain ⟨values, stored⟩ := intact
  cases values with
  | nil => exact Or.inl stored
  | cons value values => exact Or.inr ⟨value, values, stored⟩

omit [DecidableEq Tid] in
theorem Assertion.tryStep_cases (assertion : Assertion thread queue pc)
    (step : tryStep thread queue pc = some (queue', pc')) :
    TryCase thread queue .run pc queue' pc' := by
  have fact := assertion.front
  cases pc with
  | tryLock =>
      obtain ⟨free, rfl, rfl⟩ := Queue.lock_eq_some step
      exact .lock free
  | tryTest =>
      rcases (fact rfl).empty_or_front with empty | ⟨value, values, front⟩
      · obtain ⟨rfl, rfl⟩ : _ ∧ _ := by simpa [tryStep, empty] using step
        exact .empty empty
      · obtain ⟨rfl, rfl⟩ : _ ∧ _ := by simpa [tryStep, front] using step
        exact .nonempty front
  | tryMove =>
      obtain ⟨value, values, front⟩ := fact
      obtain ⟨rfl, rfl⟩ : _ ∧ _ := by simpa [tryStep, Queue.moveFront, front] using step
      exact .move front
  | tryPopFront val =>
      obtain ⟨values, front⟩ := fact
      obtain ⟨rfl, rfl⟩ : _ ∧ _ := by simpa [tryStep, Queue.popFront, front] using step
      exact .popFront val front
  | tryUnlock val =>
      obtain ⟨rfl, rfl⟩ : _ ∧ _ := by simpa [tryStep] using step
      exact .unlock val
  | _ => simp [tryStep] at step

theorem Assertion.waitStep_cases (assertion : Assertion thread queue pc)
    (step : waitStep thread queue pc = some (queue', pc')) :
    WaitCase thread queue .run pc queue' pc' := by
  have fact := assertion.front
  cases pc with
  | waitLock =>
      obtain ⟨free, rfl, rfl⟩ := Queue.lock_eq_some step
      exact .lock free
  | waitEmpty =>
      rcases (fact rfl).empty_or_front with empty | ⟨value, values, front⟩
      · obtain ⟨rfl, rfl⟩ : _ ∧ _ := by simpa [waitStep, empty] using step
        exact .empty empty
      · obtain ⟨rfl, rfl⟩ : _ ∧ _ := by simpa [waitStep, front] using step
        exact .nonempty front
  | waitTest =>
      rcases (fact rfl).empty_or_front with empty | ⟨value, values, front⟩
      · obtain ⟨rfl, rfl⟩ : _ ∧ _ := by simpa [waitStep, empty] using step
        exact .testEmpty empty
      · obtain ⟨rfl, rfl⟩ : _ ∧ _ := by simpa [waitStep, front] using step
        exact .testNonempty front
  | waitMove =>
      obtain ⟨value, values, front⟩ := fact
      obtain ⟨rfl, rfl⟩ : _ ∧ _ := by simpa [waitStep, Queue.moveFront, front] using step
      exact .move front
  | waitPopFront value =>
      obtain ⟨values, front⟩ := fact
      obtain ⟨rfl, rfl⟩ : _ ∧ _ := by simpa [waitStep, Queue.popFront, front] using step
      exact .popFront value front
  | waitReturn value =>
      obtain ⟨rfl, rfl⟩ : _ ∧ _ := by simpa [waitStep] using step
      exact .finish value
  | waitUnlock value =>
      obtain ⟨rfl, rfl⟩ : _ ∧ _ := by simpa [waitStep] using step
      exact .unlock value
  | _ => simp [waitStep] at step

theorem throwStep_cases (step : throwStep pc = some pc') :
    CallCase thread queue .throw pc queue pc' := by
  cases pc with
  | pushEmplace newValue =>
      obtain rfl : _ = _ := by simpa [throwStep] using step
      exact .push (.throwEmplace newValue)
  | tryMove =>
      obtain rfl : _ = _ := by simpa [throwStep] using step
      exact .tryPop .throwMove
  | waitMove =>
      obtain rfl : _ = _ := by simpa [throwStep] using step
      exact .waitAndPop .throwMove
  | waitReturn value =>
      obtain rfl : _ = _ := by simpa [throwStep] using step
      exact .waitAndPop (.throwReturn value)
  | _ => simp [throwStep] at step

theorem Assertion.run_cases (assertion : Assertion thread queue pc)
    (step : (pushStep thread queue pc).or ((tryStep thread queue pc).or
      (waitStep thread queue pc)) = some (queue', pc')) :
    CallCase thread queue .run pc queue' pc' := by
  rcases Option.or_eq_some_iff.mp step with pushes | ⟨-, later⟩
  · exact .push (pushStep_cases pushes)
  rcases Option.or_eq_some_iff.mp later with tries | ⟨-, waits⟩
  · exact .tryPop (assertion.tryStep_cases tries)
  · exact .waitAndPop (assertion.waitStep_cases waits)

theorem Assertion.callStep_cases {action : Action Tid} (assertion : Assertion thread queue pc)
    (step : callStep thread action queue pc = some (queue', pc')) :
    CallCase thread queue action pc queue' pc' := by
  cases action with
  | notifyOne waiter =>
      cases pc with
      | pushNotify =>
          cases waiter with
          | none =>
              obtain ⟨nobody, rfl, rfl⟩ : _ ∧ _ ∧ _ := by simpa [callStep] using step
              exact .push (.notifyNobody nobody)
          | some waiter =>
              obtain ⟨member, rfl, rfl⟩ : _ ∧ _ ∧ _ := by simpa [callStep] using step
              exact .push (.notify member)
      | _ => cases waiter <;> simp [callStep] at step
  | wakeSpuriously =>
      cases pc with
      | waiting =>
          obtain ⟨member, rfl, rfl⟩ : _ ∧ _ ∧ _ := by simpa [callStep] using step
          exact .waitAndPop (.wake member)
      | _ => simp [callStep] at step
  | throw =>
      simp only [callStep, Option.map_eq_some_iff, Prod.mk.injEq] at step
      obtain ⟨pc', thrown, rfl, rfl⟩ := step
      exact throwStep_cases thrown
  | run =>
      cases pc with
      | waitBlock =>
          obtain ⟨rfl, rfl⟩ : _ ∧ _ := by simpa [callStep] using step
          exact .waitAndPop .block
      | waiting =>
          by_cases member : thread ∈ queue.condVariable
          · simp [callStep, member] at step
          · simp only [callStep, if_neg member] at step
            obtain ⟨free, rfl, rfl⟩ := Queue.lock_eq_some step
            exact .waitAndPop (.relock member free)
      | _ => exact assertion.run_cases step

/-! ## A thread that only pushes, or only tries to pop -/

/-- Positions of a call of `push`. -/
def Pc.inPush (newValue : Value) : Pc Value → Prop
  | .pushLock value | .pushEmplace value => value = newValue
  | .pushNotify | .pushUnlock | .unwind | .returning .pushed | .returning .threw => True
  | _ => False

/-- Positions of a call of `try_pop` that meets no exception. -/
def Pc.inTry : Pc Value → Prop
  | .tryLock | .tryTest | .tryMove | .tryPopFront _ | .tryUnlock _ | .returning (.popped _) => True
  | _ => False

theorem Assertion.pushCase_of_inPush {action : Action Tid} (assertion : Assertion thread queue pc)
    {newValue : Value} (inPush : pc.inPush newValue)
    (step : callStep thread action queue pc = some (queue', pc')) :
    PushCase thread queue action pc queue' pc' ∧ pc'.inPush newValue := by
  cases assertion.callStep_cases step with
  | push taken =>
      refine ⟨taken, ?_⟩
      cases taken with
      | lock => exact inPush
      | emplace | throwEmplace | notifyNobody | notify | unlock | unwind => trivial
  | tryPop taken => cases taken <;> exact inPush.elim
  | waitAndPop taken => cases taken <;> exact inPush.elim

theorem Assertion.tryCase_of_inTry {action : Action Tid} (assertion : Assertion thread queue pc)
    (inTry : pc.inTry) (noThrow : action ≠ .throw)
    (step : callStep thread action queue pc = some (queue', pc')) :
    action = .run ∧ TryCase thread queue .run pc queue' pc' ∧ pc'.inTry := by
  cases assertion.callStep_cases step with
  | push taken => cases taken <;> exact inTry.elim
  | tryPop taken =>
      have inTry' : action = .run ∧ pc'.inTry := by
        cases taken with
        | throwMove => exact absurd rfl noThrow
        | lock | empty | nonempty | move | popFront | unlock => exact ⟨rfl, trivial⟩
      obtain ⟨rfl, inTry'⟩ := inTry'
      exact ⟨rfl, taken, inTry'⟩
  | waitAndPop taken => cases taken <;> exact inTry.elim

end Actions

end SimpleQueue
end ConcurrencyCourse
