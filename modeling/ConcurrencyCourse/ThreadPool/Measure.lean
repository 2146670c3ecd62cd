import ConcurrencyCourse.ThreadPool.StepCases

/-!
# How far the pool is from rest

Three ranks, compared in this order: the steps that the submits in progress still have to take; the
tasks in the queue and the steps of the workers that have taken one; and the steps by which idle
workers come to the queue and waiters let go of `m_tasksCompleteMutex`.  A step lowers them unless
it only looks: a worker that locks an empty queue, or a waiter that locks the mutex.
-/

namespace ConcurrencyCourse
namespace ThreadPool

variable {Tid : Type*}

/-- The actions of calls in progress that meet neither an exception nor a spurious wake-up. -/
def Action.proceeds : Action Tid → Bool
  | .run | .queue .run | .queue (.notifyOne _) => true
  | _ => false

/-- Positions of a call, neither in the destructor nor at the end of a submit that has thrown. -/
def CallPc.expected : CallPc Tid → Bool
  | .submitPush _ .unwind | .submitPush _ (.returning .threw) | .setDone | .destroying _
  | .joining _ _ => false
  | _ => true

/-! ## The ranks -/

/-- Number of steps to the end of a submit. -/
def CallPc.submitRank : CallPc Tid → Nat
  | .submitAdd _ => 7
  | .submitConvert _ => 6
  | .submitPush _ (.pushLock _) => 5
  | .submitPush _ (.pushEmplace _) => 4
  | .submitPush _ .pushNotify => 3
  | .submitPush _ .pushUnlock => 2
  | .submitPush _ (.returning _) => 1
  | _ => 0

/-- Number of steps to the end of the iteration of a worker that has taken a task. -/
def LoopPc.taskRank : LoopPc → Nat
  | .tryPop (.tryPopFront _) => 9
  | .tryPop (.tryUnlock (some _)) => 8
  | .tryPop (.returning (.popped (some _))) => 7
  | .running _ => 6
  | .fetchSub _ => 5
  | .lockComplete _ => 4
  | .notifyAll _ => 3
  | .unlockComplete _ => 2
  | .dropTask (some _) => 1
  | _ => 0

/-- Number of steps of a worker without a task until it takes one; when the queue is empty, the
worker that tests it has to go round once more. -/
def LoopPc.idleRank (empty : Bool) : LoopPc → Nat
  | .tryPop .tryTest => if empty then 11 else 4
  | .tryPop (.tryUnlock none) => 10
  | .tryPop (.returning (.popped none)) => 9
  | .yield => 8
  | .dropTask none => 7
  | .testDone => 6
  | .tryPop .tryLock => 5
  | .tryPop .tryMove => 3
  | _ => 0

/-- Number of steps for which a waiter holds `m_tasksCompleteMutex`. -/
def CallPc.holdRank : CallPc Tid → Nat
  | .waitTest => 3
  | .waitBlock => 2
  | .waitUnlock => 1
  | _ => 0

/-- The queue has no value in it. -/
def Pool.drained (pool : Pool Tid) : Bool := pool.workQueue.contents.isEmpty

/-- A task in the queue counts for more than one that has been taken. -/
def Pool.stored (pool : Pool Tid) : Nat := 10 * pool.workQueue.contents.length

/-- The rank of a thread in the last of the three sums. -/
def Local.restRank (empty : Bool) (state : Local Tid) : Nat :=
  state.loop.idleRank empty + state.call.holdRank

/-- A step of one thread lowers the ranks, in the order in which they are compared. -/
inductive Lowers (pool : Pool Tid) (state : Local Tid) (pool' : Pool Tid) (state' : Local Tid) :
    Prop
  | submit : state'.call.submitRank < state.call.submitRank → Lowers pool state pool' state'
  | task : state'.call.submitRank = state.call.submitRank →
      pool'.stored + state'.loop.taskRank < pool.stored + state.loop.taskRank →
      Lowers pool state pool' state'
  | rest : state'.call.submitRank = state.call.submitRank → pool'.drained = pool.drained →
      pool'.stored + state'.loop.taskRank = pool.stored + state.loop.taskRank →
      state'.restRank pool.drained < state.restRank pool.drained → Lowers pool state pool' state'

/-- The next step of the thread only looks whether there is something to do. -/
def Looks (pool : Pool Tid) (state : Local Tid) : Prop :=
  (state.loop = .tryPop .tryLock ∧ pool.drained = true) ∨ state.call = .waitLock ∨
    state.call = .waiting

/-! ## Who can go on -/

variable {thread : Tid} {pool pool' : Pool Tid}

/-- The next step of the thread locks the mutex of the queue. -/
def Local.wantsQueue (state : Local Tid) : Bool :=
  match state.queuePc with
  | .pushLock _ | .tryLock => true
  | _ => false

/-- The next step of the thread locks `m_tasksCompleteMutex`. -/
def Local.wantsComplete (state : Local Tid) : Bool :=
  match state.call with
  | .idle =>
      match state.loop with
      | .lockComplete _ => true
      | _ => false
  | .waitLock | .waiting => true
  | _ => false

/-- The next step of the thread is possible, and does more than look. -/
structure Ready (thread : Tid) (pool : Pool Tid) (state : Local Tid) : Prop where
  inside : state.loop ≠ .client ∨ state.call ≠ .idle
  queueFree : state.wantsQueue = true → pool.workQueue.mutex = none
  completeFree : state.wantsComplete = true → pool.tasksCompleteMutex = none
  awake : thread ∉ pool.tasksComplete
  useful : ¬ Looks pool state

theorem Consistent.of_queueHolds {state : Local Tid} (consistent : Consistent state)
    (holds : state.queuePc.holds = true) :
    (∃ pc, state = ⟨.tryPop pc, .idle⟩ ∧ pc.holds = true) ∨
      ∃ task pc, state.call = .submitPush task pc ∧ state.loop.mayCall = true ∧
        pc.holds = true := by
  obtain ⟨loop, call⟩ := state
  rcases consistent.calls with calls | idle
  · rw [Local.queuePc_of_mayCall calls] at holds
    cases call with
    | submitPush task pc => exact Or.inr ⟨task, pc, rfl, calls, holds⟩
    | _ => simp [CallPc.queuePc, SimpleQueue.Pc.holds] at holds
  · obtain rfl : call = .idle := idle
    cases loop with
    | tryPop pc => exact Or.inl ⟨pc, rfl, holds⟩
    | _ => simp [Local.queuePc, CallPc.queuePc, SimpleQueue.Pc.holds] at holds

theorem Assertion.ready_of_queueHolder {state : Local Tid} (assertion : Assertion thread pool state)
    (held : pool.workQueue.mutex = some thread) : Ready thread pool state := by
  rcases assertion.consistent.of_queueHolds (assertion.queue.held.mp held) with
    ⟨pc, rfl, holds⟩ | ⟨task, pc, position, calls, holds⟩
  · refine ⟨Or.inl (by simp), fun wants => ?_, by simp [Local.wantsComplete],
      assertion.not_blocked (by simp), ?_⟩
    · cases pc <;> simp [Local.wantsQueue, Local.queuePc, SimpleQueue.Pc.holds] at wants holds
    · cases pc <;> simp [Looks, SimpleQueue.Pc.holds] at holds ⊢
  · obtain ⟨loop, call⟩ := state
    obtain rfl : call = _ := position
    refine ⟨Or.inr (by simp), fun wants => ?_, by simp [Local.wantsComplete],
      assertion.not_blocked (by simp), ?_⟩
    · rw [Local.wantsQueue, Local.queuePc_of_mayCall calls] at wants
      cases pc <;> simp [CallPc.queuePc, SimpleQueue.Pc.holds] at wants holds
    · cases loop <;> simp [Looks, LoopPc.mayCall] at calls ⊢

theorem Assertion.ready_of_submit {state : Local Tid} (assertion : Assertion thread pool state)
    (free : pool.workQueue.mutex = none) (submits : state.call.submitRank ≠ 0) :
    Ready thread pool state := by
  obtain ⟨loop, call⟩ := state
  have busy : call ≠ .idle := by
    rintro rfl
    simp [CallPc.submitRank] at submits
  have calls := assertion.consistent.calls.resolve_right busy
  cases call with
  | submitAdd | submitConvert | submitPush =>
      refine ⟨Or.inr (by simp), fun _ => free, by simp [Local.wantsComplete],
        assertion.not_blocked (by simp), ?_⟩
      cases loop <;> simp [Looks, LoopPc.mayCall] at calls ⊢
  | _ => simp [CallPc.submitRank] at submits

theorem Assertion.ready_of_completeHolder {state : Local Tid}
    (assertion : Assertion thread pool state) (free : pool.workQueue.mutex = none)
    (held : pool.tasksCompleteMutex = some thread) : Ready thread pool state := by
  have holds := assertion.held.mp held
  obtain ⟨loop, call⟩ := state
  cases call with
  | waitTest | waitBlock | waitUnlock =>
      have calls := assertion.consistent.calls.resolve_right (by simp)
      refine ⟨Or.inr (by simp), fun _ => free, by simp [Local.wantsComplete],
        assertion.not_blocked (by simp), ?_⟩
      cases loop <;> simp [Looks, LoopPc.mayCall] at calls ⊢
  | idle =>
      cases loop with
      | notifyAll | unlockComplete =>
          exact ⟨Or.inl (by simp), fun _ => free, by simp [Local.wantsComplete],
            assertion.not_blocked (by simp), by simp [Looks]⟩
      | _ => simp [LoopPc.holds, CallPc.holds] at holds
  | _ =>
      have calls := assertion.consistent.calls.resolve_right (by simp)
      rw [LoopPc.holds_of_mayCall calls] at holds
      simp [CallPc.holds] at holds

/-- When both mutexes are free, a worker can go on that has taken a task, or that finds one in the
queue. -/
theorem Assertion.ready_of_worker {loop : LoopPc} (assertion : Assertion thread pool ⟨loop, .idle⟩)
    (free : pool.workQueue.mutex = none) (completeFree : pool.tasksCompleteMutex = none)
    (inside : loop ≠ .client) (work : loop.taskRank ≠ 0 ∨ pool.drained = false) :
    Ready thread pool ⟨loop, .idle⟩ := by
  refine ⟨Or.inl inside, fun _ => free, fun _ => completeFree,
    assertion.not_blocked (by simp), ?_⟩
  rintro (⟨position, empty⟩ | position | position)
  · obtain rfl : loop = _ := position
    simp [LoopPc.taskRank, empty] at work
  · simp at position
  · simp at position

variable [DecidableEq Tid] {width : Nat} {action : Action Tid}

/-! ## Steps lower the ranks -/

theorem LoopCase.lowers {loop loop' : LoopPc}
    (step : LoopCase width thread pool action loop pool' loop') (running : pool.done = false)
    (useful : ¬ Looks pool ⟨loop, .idle⟩) :
    Lowers pool ⟨loop, .idle⟩ pool' (⟨loop', .idle⟩ : Local Tid) := by
  cases step with
  | exit done => simp [running] at done
  | tryPop taken within =>
      cases taken with
      | lock free =>
          have stored : pool.drained = false :=
            Bool.eq_false_of_not_eq_true fun empty => useful (Or.inl ⟨rfl, empty⟩)
          refine .rest rfl rfl rfl ?_
          simp [Local.restRank, LoopPc.idleRank, stored]
      | empty nothing =>
          have empty : pool.drained = true := by
            simp [Pool.drained, SimpleQueue.Queue.contents, nothing]
          refine .rest rfl rfl rfl ?_
          simp [Local.restRank, LoopPc.idleRank, empty]
      | nonempty front =>
          have stored : pool.drained = false := by
            simp [Pool.drained, SimpleQueue.Queue.contents, front]
          refine .rest rfl rfl rfl ?_
          simp [Local.restRank, LoopPc.idleRank, stored]
      | move front =>
          refine .task rfl ?_
          simp [Pool.stored, SimpleQueue.Queue.contents, front, LoopPc.taskRank]
          omega
      | popFront value emptied =>
          refine .task rfl ?_
          simp [Pool.stored, SimpleQueue.Queue.contents, emptied, LoopPc.taskRank]
      | unlock value =>
          cases value with
          | none => exact .rest rfl rfl rfl (by simp [Local.restRank, LoopPc.idleRank])
          | some task => exact .task rfl (by simp [Pool.stored, LoopPc.taskRank,
              SimpleQueue.Queue.unlock, SimpleQueue.Queue.contents])
  | enter | nothing | yield => exact .rest rfl rfl rfl (by simp [Local.restRank, LoopPc.idleRank])
  | took task | ran task | last task | more task | lock task | notifyAll task | unlock task =>
      exact .task rfl (by simp [Pool.stored, LoopPc.taskRank, Pool.unlock])
  | drop task =>
      cases task with
      | none => exact .rest rfl rfl rfl (by simp [Local.restRank, LoopPc.idleRank])
      | some task => exact .task rfl (by simp [LoopPc.taskRank])

theorem CallCase.lowers {loop : LoopPc} {call call' : CallPc Tid}
    (step : CallCase width thread pool action call pool' call') (proceeds : action.proceeds = true)
    (expected : call.expected = true) (useful : ¬ Looks pool ⟨loop, call⟩) :
    Lowers pool ⟨loop, call⟩ pool' ⟨loop, call'⟩ := by
  cases step with
  | add | convert | submitted => exact .submit (by simp [CallPc.submitRank])
  | push task taken within =>
      cases taken with
      | lock | emplace | notifyNobody | notify | unlock =>
          exact .submit (by simp [CallPc.submitRank])
      | throwEmplace => simp [Action.proceeds] at proceeds
      | unwind => simp [CallPc.expected] at expected
  | lock | relock => exact absurd (by simp [Looks]) useful
  | testZero | testMore | block | unlock =>
      exact .rest rfl rfl rfl (by simp [Local.restRank, CallPc.holdRank])
  | throwConvert | wake => simp [Action.proceeds] at proceeds
  | threw | setDone | destroyed | joinAll | destroy | joined | join =>
      simp [CallPc.expected] at expected

theorem StepCase.lowers {state state' : Local Tid}
    (step : StepCase width thread pool action state pool' state')
    (proceeds : action.proceeds = true) (running : pool.done = false)
    (expected : state.call.expected = true) (useful : ¬ Looks pool state) :
    Lowers pool state pool' state' := by
  cases step with
  | submit | waitAll | destroy => simp [Action.proceeds] at proceeds
  | loop taken => exact taken.lowers running useful
  | call _ taken => exact taken.lowers proceeds expected useful

/-! ## Which steps are possible -/

/-- A worker in its loop can take a step unless it needs a mutex that is held. -/
theorem Assertion.loop_enabled {loop : LoopPc} (assertion : Assertion thread pool ⟨loop, .idle⟩)
    (width : Nat) (inside : loop ≠ .client) (alive : loop ≠ .exited)
    (queueFree : Local.wantsQueue (⟨loop, .idle⟩ : Local Tid) = true →
      pool.workQueue.mutex = none)
    (completeFree : Local.wantsComplete (⟨loop, .idle⟩ : Local Tid) = true →
      pool.tasksCompleteMutex = none) :
    ∃ action : Action Tid, action.proceeds = true ∧
      (threadStep width thread action pool ⟨loop, .idle⟩).isSome = true := by
  cases loop with
  | client => exact absurd rfl inside
  | exited => exact absurd rfl alive
  | tryPop pc =>
      obtain ⟨inTry, asserted⟩ := assertion.inner.1 pc rfl
      cases pc with
      | tryLock =>
          refine ⟨.queue .run, rfl, ?_⟩
          simp [threadStep, loopStep, SimpleQueue.callStep, SimpleQueue.pushStep,
            SimpleQueue.tryStep, SimpleQueue.Queue.lock, queueFree rfl]
      | tryMove =>
          obtain ⟨value, values, front⟩ := asserted.front
          refine ⟨.queue .run, rfl, ?_⟩
          simp [threadStep, loopStep, SimpleQueue.callStep, SimpleQueue.pushStep,
            SimpleQueue.tryStep, SimpleQueue.Queue.moveFront, front]
      | tryTest | tryPopFront | tryUnlock => exact ⟨.queue .run, rfl, rfl⟩
      | returning result =>
          cases result with
          | popped value => cases value <;> exact ⟨.run, rfl, rfl⟩
          | _ => exact inTry.elim
      | _ => exact inTry.elim
  | lockComplete task =>
      refine ⟨.run, rfl, ?_⟩
      simp [threadStep, loopStep, Pool.lock, completeFree rfl]
  | testDone =>
      refine ⟨.run, rfl, ?_⟩
      cases done : pool.done <;> simp [threadStep, loopStep, done]
  | running | fetchSub | notifyAll | unlockComplete | yield | dropTask =>
      exact ⟨.run, rfl, rfl⟩

/-- A thread in a call can take a step unless it needs a mutex that is held, or sleeps. -/
theorem Assertion.call_enabled {loop : LoopPc} {call : CallPc Tid}
    (assertion : Assertion thread pool ⟨loop, call⟩) (width : Nat) (inside : call ≠ .idle)
    (expected : call.expected = true)
    (queueFree : Local.wantsQueue ⟨loop, call⟩ = true → pool.workQueue.mutex = none)
    (completeFree : Local.wantsComplete ⟨loop, call⟩ = true → pool.tasksCompleteMutex = none)
    (awake : thread ∉ pool.tasksComplete) :
    ∃ action : Action Tid, action.proceeds = true ∧
      (threadStep width thread action pool ⟨loop, call⟩).isSome = true := by
  have queuePc : Local.queuePc ⟨loop, call⟩ = call.queuePc :=
    Local.queuePc_of_mayCall (assertion.consistent.calls.resolve_right inside)
  cases call with
  | idle => exact absurd rfl inside
  | submitPush task pc =>
      have inPush := (assertion.inner.2 task pc rfl).1
      cases pc with
      | pushLock value =>
          have free := queueFree (by simp [Local.wantsQueue, queuePc, CallPc.queuePc])
          refine ⟨.queue .run, rfl, ?_⟩
          simp [threadStep, callStep, submitStep, SimpleQueue.callStep, SimpleQueue.pushStep,
            SimpleQueue.Queue.lock, free]
      | pushNotify =>
          by_cases nobody : pool.workQueue.condVariable = ∅
          · refine ⟨.queue (.notifyOne none), rfl, ?_⟩
            simp [threadStep, callStep, submitStep, SimpleQueue.callStep, nobody]
          · obtain ⟨waiter, member⟩ := Finset.nonempty_iff_ne_empty.mpr nobody
            refine ⟨.queue (.notifyOne (some waiter)), rfl, ?_⟩
            simp [threadStep, callStep, submitStep, SimpleQueue.callStep, member]
      | pushEmplace | pushUnlock => exact ⟨.queue .run, rfl, rfl⟩
      | returning result =>
          cases result with
          | pushed => exact ⟨.run, rfl, rfl⟩
          | threw => simp [CallPc.expected] at expected
          | popped => exact inPush.elim
      | unwind => simp [CallPc.expected] at expected
      | _ => exact inPush.elim
  | waitLock =>
      refine ⟨.run, rfl, ?_⟩
      simp [threadStep, callStep, submitStep, waitStep, Pool.lock, completeFree rfl]
  | waiting =>
      refine ⟨.run, rfl, ?_⟩
      simp [threadStep, callStep, submitStep, waitStep, Pool.lock, completeFree rfl, awake]
  | submitAdd | submitConvert | waitTest | waitBlock | waitUnlock => exact ⟨.run, rfl, rfl⟩
  | setDone | destroying | joining => simp [CallPc.expected] at expected

theorem Assertion.enabled {state : Local Tid} (assertion : Assertion thread pool state)
    (width : Nat) (alive : state.loop ≠ .exited) (expected : state.call.expected = true)
    (ready : Ready thread pool state) : ∃ action : Action Tid, action.proceeds = true ∧
      (threadStep width thread action pool state).isSome = true := by
  obtain ⟨loop, call⟩ := state
  by_cases idle : call = .idle
  · subst idle
    exact assertion.loop_enabled width (ready.inside.resolve_right (absurd rfl)) alive
      ready.queueFree ready.completeFree
  · exact assertion.call_enabled width idle expected ready.queueFree ready.completeFree ready.awake

end ThreadPool
end ConcurrencyCourse
