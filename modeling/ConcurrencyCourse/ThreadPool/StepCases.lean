import ConcurrencyCourse.ThreadPool.Invariant

/-!
# What one step of the pool does

The effects of the steps of `worker_thread`, of the calls of the pool, and of the begin of a call.
-/

namespace ConcurrencyCourse
namespace ThreadPool

variable {Tid : Type*} [DecidableEq Tid]

/-- Effects of the steps of `worker_thread`. -/
inductive LoopCase (width : Nat) (thread : Tid) (pool : Pool Tid) :
    Action Tid → LoopPc → Pool Tid → LoopPc → Prop
  | exit : pool.done = true → LoopCase width thread pool .run .testDone
      { pool with finished := insert thread pool.finished } .exited
  | enter : pool.done = false → LoopCase width thread pool .run .testDone pool (.tryPop .tryLock)
  | tryPop {pc pc' : SimpleQueue.Pc Task} {queue' : SimpleQueue.Queue Tid Task} :
      SimpleQueue.TryCase thread pool.workQueue .run pc queue' pc' → pc'.inTry →
      LoopCase width thread pool (.queue .run) (.tryPop pc) { pool with workQueue := queue' }
        (.tryPop pc')
  | took (task : Task) : LoopCase width thread pool .run
      (.tryPop (.returning (.popped (some task)))) pool (.running task)
  | nothing : LoopCase width thread pool .run (.tryPop (.returning (.popped none))) pool .yield
  | ran (task : Task) : LoopCase width thread pool .run (.running task)
      { pool with completed := pool.completed ++ [(thread, task)] } (.fetchSub task)
  | last (task : Task) : pool.taskCount = 1 → LoopCase width thread pool .run (.fetchSub task)
      { pool with
        taskCount := (pool.taskCount + (2 ^ width - 1)) % 2 ^ width
        counted := pool.counted ++ [task] } (.lockComplete task)
  | more (task : Task) : pool.taskCount ≠ 1 → LoopCase width thread pool .run (.fetchSub task)
      { pool with
        taskCount := (pool.taskCount + (2 ^ width - 1)) % 2 ^ width
        counted := pool.counted ++ [task] } (.dropTask (some task))
  | lock (task : Task) : pool.tasksCompleteMutex = none →
      LoopCase width thread pool .run (.lockComplete task)
        { pool with tasksCompleteMutex := some thread } (.notifyAll task)
  | notifyAll (task : Task) : LoopCase width thread pool .run (.notifyAll task)
      { pool with tasksComplete := ∅ } (.unlockComplete task)
  | unlock (task : Task) : LoopCase width thread pool .run (.unlockComplete task) pool.unlock
      (.dropTask (some task))
  | yield : LoopCase width thread pool .run .yield pool (.dropTask none)
  | drop (task : Option Task) : LoopCase width thread pool .run (.dropTask task) pool .testDone

/-- Effects of the steps of the calls. -/
inductive CallCase (width : Nat) (thread : Tid) (pool : Pool Tid) :
    Action Tid → CallPc Tid → Pool Tid → CallPc Tid → Prop
  -- submit
  | add (task : Task) : CallCase width thread pool .run (.submitAdd task)
      { pool with
        taskCount := (pool.taskCount + 1) % 2 ^ width
        added := pool.added ++ [task] } (.submitConvert task)
  | convert (task : Task) : CallCase width thread pool .run (.submitConvert task) pool
      (.submitPush task (.pushLock task))
  | throwConvert (task : Task) :
      CallCase width thread pool .throw (.submitConvert task) pool .idle
  | push (task : Task) {action : SimpleQueue.Action Tid} {pc pc' : SimpleQueue.Pc Task}
      {queue' : SimpleQueue.Queue Tid Task} :
      SimpleQueue.PushCase thread pool.workQueue action pc queue' pc' → pc'.inPush task →
      CallCase width thread pool (.queue action) (.submitPush task pc)
        { pool with workQueue := queue' } (.submitPush task pc')
  | submitted (task : Task) :
      CallCase width thread pool .run (.submitPush task (.returning .pushed))
        { pool with returned := pool.returned ++ [task] } .idle
  | threw (task : Task) :
      CallCase width thread pool .run (.submitPush task (.returning .threw)) pool .idle
  -- wait_all
  | lock : pool.tasksCompleteMutex = none → CallCase width thread pool .run .waitLock
      { pool with tasksCompleteMutex := some thread } .waitTest
  | testZero : pool.taskCount = 0 → CallCase width thread pool .run .waitTest pool .waitUnlock
  | testMore : pool.taskCount ≠ 0 → CallCase width thread pool .run .waitTest pool .waitBlock
  | block : CallCase width thread pool .run .waitBlock
      { pool with
        tasksCompleteMutex := none
        tasksComplete := insert thread pool.tasksComplete } .waiting
  | wake : thread ∈ pool.tasksComplete → CallCase width thread pool .wakeSpuriously .waiting
      { pool with tasksComplete := pool.tasksComplete.erase thread } .waiting
  | relock : thread ∉ pool.tasksComplete → pool.tasksCompleteMutex = none →
      CallCase width thread pool .run .waiting
        { pool with tasksCompleteMutex := some thread } .waitTest
  | unlock : CallCase width thread pool .run .waitUnlock pool.unlock .idle
  -- the destructor
  | setDone : CallCase width thread pool .run .setDone { pool with done := true }
      (.destroying Member.destructionOrder)
  | destroyed : CallCase width thread pool .run (.destroying []) pool .idle
  | joinAll (rest : List Member) : CallCase width thread pool .run
      (.destroying (.threads :: rest)) pool (.joining pool.threads rest)
  | destroy {member : Member} (rest : List Member) : member ≠ .threads →
      CallCase width thread pool .run (.destroying (member :: rest))
        { pool with destroyed := member :: pool.destroyed } (.destroying rest)
  | joined (rest : List Member) : CallCase width thread pool .run (.joining [] rest)
      { pool with destroyed := .threads :: pool.destroyed } (.destroying rest)
  | join {worker : Tid} (remaining : List Tid) (rest : List Member) : worker ∈ pool.finished →
      CallCase width thread pool .run (.joining (worker :: remaining) rest) pool
        (.joining remaining rest)

/-- Effects of every step of a thread. -/
inductive StepCase (width : Nat) (thread : Tid) (pool : Pool Tid) :
    Action Tid → Local Tid → Pool Tid → Local Tid → Prop
  | submit {loop : LoopPc} : loop.mayCall = true →
      StepCase width thread pool (.call .submit) ⟨loop, .idle⟩
        { pool with nextTask := pool.nextTask + 1 } ⟨loop, .submitAdd pool.nextTask⟩
  | waitAll {loop : LoopPc} : loop.mayCall = true →
      StepCase width thread pool (.call .waitAll) ⟨loop, .idle⟩ pool ⟨loop, .waitLock⟩
  | destroy {loop : LoopPc} : loop.mayCall = true →
      StepCase width thread pool (.call .destroy) ⟨loop, .idle⟩ pool ⟨loop, .setDone⟩
  | loop {action : Action Tid} {loop loop' : LoopPc} {pool' : Pool Tid} :
      LoopCase width thread pool action loop pool' loop' →
      StepCase width thread pool action ⟨loop, .idle⟩ pool' ⟨loop', .idle⟩
  | call {action : Action Tid} {loop : LoopPc} {call call' : CallPc Tid} {pool' : Pool Tid} :
      loop.mayCall = true → CallCase width thread pool action call pool' call' →
      StepCase width thread pool action ⟨loop, call⟩ pool' ⟨loop, call'⟩

variable {width : Nat} {thread : Tid} {pool pool' : Pool Tid} {action : Action Tid}

theorem submitStep_cases {pc pc' : CallPc Tid} (inPush : ∀ task inner,
      pc = .submitPush task inner → inner.inPush task ∧
        SimpleQueue.Assertion thread pool.workQueue inner)
    (step : submitStep width thread action pool pc = some (pool', pc')) :
    CallCase width thread pool action pc pool' pc' := by
  unfold submitStep at step
  split at step
  · cases step
    exact .add _
  · cases step
    exact .convert _
  · cases step
    exact .throwConvert _
  · rename_i task inner
    obtain ⟨⟨queue', inner'⟩, taken, same⟩ := Option.map_eq_some_iff.mp step
    cases same
    obtain ⟨within, assertion⟩ := inPush task inner rfl
    obtain ⟨pushes, within'⟩ := assertion.pushCase_of_inPush within taken
    exact .push task pushes within'
  · cases step
    exact .submitted _
  · cases step
    exact .threw _
  · simp at step

omit [DecidableEq Tid] in
theorem Pool.lock_eq_some (locked : pool.lock thread = some pool') :
    pool.tasksCompleteMutex = none ∧ pool' = { pool with tasksCompleteMutex := some thread } := by
  cases free : pool.tasksCompleteMutex with
  | some holder => simp [Pool.lock, free] at locked
  | none => simpa [Pool.lock, free, eq_comm] using locked

theorem waitStep_cases {pc pc' : CallPc Tid}
    (step : waitStep thread action pool pc = some (pool', pc')) :
    CallCase width thread pool action pc pool' pc' := by
  unfold waitStep at step
  split at step
  · obtain ⟨_, locked, same⟩ := Option.map_eq_some_iff.mp step
    cases same
    obtain ⟨free, rfl⟩ := Pool.lock_eq_some locked
    exact .lock free
  · cases step
    split
    · exact .testZero ‹_›
    · exact .testMore ‹_›
  · cases step
    exact .block
  · split at step
    · cases step
      exact .wake ‹_›
    · simp at step
  · split at step
    · simp at step
    · obtain ⟨_, locked, same⟩ := Option.map_eq_some_iff.mp step
      cases same
      obtain ⟨free, rfl⟩ := Pool.lock_eq_some locked
      exact .relock ‹_› free
  · cases step
    exact .unlock
  · simp at step

theorem destroyStep_cases {pc pc' : CallPc Tid}
    (step : destroyStep action pool pc = some (pool', pc')) :
    CallCase width thread pool action pc pool' pc' := by
  unfold destroyStep at step
  split at step
  · cases step
    exact .setDone
  · cases step
    exact .destroyed
  · cases step
    exact .joinAll _
  · rename_i member rest isThreads
    cases step
    exact .destroy rest isThreads
  · cases step
    exact .joined _
  · split at step
    · cases step
      exact .join _ _ ‹_›
    · simp at step
  · simp at step

theorem loopStep_cases {pc pc' : LoopPc} (inTry : ∀ inner, pc = .tryPop inner →
      inner.inTry ∧ SimpleQueue.Assertion thread pool.workQueue inner)
    (step : loopStep width thread action pool pc = some (pool', pc')) :
    LoopCase width thread pool action pc pool' pc' := by
  unfold loopStep at step
  split at step
  · split at step
    · cases step
      exact .exit ‹_›
    · cases step
      exact .enter (Bool.eq_false_of_not_eq_true ‹_›)
  · simp at step
  · rename_i inner noThrow
    obtain ⟨⟨queue', inner'⟩, taken, same⟩ := Option.map_eq_some_iff.mp step
    cases same
    obtain ⟨within, assertion⟩ := inTry inner rfl
    obtain ⟨rfl, pops, within'⟩ := assertion.tryCase_of_inTry within noThrow taken
    exact .tryPop pops within'
  · cases step
    exact .took _
  · cases step
    exact .nothing
  · cases step
    exact .ran _
  · cases step
    split
    · exact .last _ ‹_›
    · exact .more _ ‹_›
  · obtain ⟨_, locked, same⟩ := Option.map_eq_some_iff.mp step
    cases same
    obtain ⟨free, rfl⟩ := Pool.lock_eq_some locked
    exact .lock _ free
  · cases step
    exact .notifyAll _
  · cases step
    exact .unlock _
  · cases step
    exact .yield
  · cases step
    exact .drop _
  · simp at step

theorem callStep_cases {pc pc' : CallPc Tid} (inPush : ∀ task inner,
      pc = .submitPush task inner → inner.inPush task ∧
        SimpleQueue.Assertion thread pool.workQueue inner)
    (step : callStep width thread action pool pc = some (pool', pc')) :
    CallCase width thread pool action pc pool' pc' := by
  rcases Option.or_eq_some_iff.mp step with submits | ⟨-, later⟩
  · exact submitStep_cases inPush submits
  rcases Option.or_eq_some_iff.mp later with waits | ⟨-, destroys⟩
  · exact waitStep_cases waits
  · exact destroyStep_cases destroys

omit [DecidableEq Tid] in
/-- Inside `try_pop`, or inside the push of a submit, the queue's assertion is about that call. -/
theorem Assertion.inner {loop : LoopPc} {call : CallPc Tid}
    (assertion : Assertion thread pool ⟨loop, call⟩) :
    (∀ inner, loop = .tryPop inner → inner.inTry ∧
        SimpleQueue.Assertion thread pool.workQueue inner) ∧
      ∀ task inner, call = .submitPush task inner → inner.inPush task ∧
        SimpleQueue.Assertion thread pool.workQueue inner := by
  have queue := assertion.queue
  constructor
  · rintro inner rfl
    exact ⟨assertion.consistent.pops inner rfl, queue⟩
  · rintro task inner rfl
    refine ⟨assertion.consistent.pushes task inner rfl, ?_⟩
    have calls := assertion.consistent.calls.resolve_right nofun
    cases loop with
    | client | running => exact queue
    | _ => simp [LoopPc.mayCall] at calls

theorem Assertion.threadStep_cases {state state' : Local Tid}
    (assertion : Assertion thread pool state)
    (step : threadStep width thread action pool state = some (pool', state')) :
    StepCase width thread pool action state pool' state' := by
  obtain ⟨loop, call⟩ := state
  by_cases idle : call = .idle
  · subst idle
    cases action with
    | call call =>
        cases may : loop.mayCall with
        | false => simp [threadStep, may] at step
        | true =>
            cases call with
            | submit =>
                obtain ⟨rfl, rfl⟩ : _ ∧ _ := by simpa [threadStep, may, beginCall] using step
                exact .submit may
            | waitAll =>
                obtain ⟨rfl, rfl⟩ : _ ∧ _ := by simpa [threadStep, may, beginCall] using step
                exact .waitAll may
            | destroy =>
                obtain ⟨rfl, rfl⟩ : _ ∧ _ := by simpa [threadStep, may, beginCall] using step
                exact .destroy may
    | _ =>
        simp only [threadStep, Option.map_eq_some_iff, Prod.mk.injEq] at step
        obtain ⟨⟨_, loop'⟩, taken, rfl, rfl⟩ := step
        exact .loop (loopStep_cases assertion.inner.1 taken)
  · have calls := assertion.consistent.calls.resolve_right idle
    have step' : (callStep width thread action pool call).map
        (fun result => (result.1, (⟨loop, result.2⟩ : Local Tid))) = some (pool', state') := by
      cases call with
      | idle => exact absurd rfl idle
      | _ => exact step
    simp only [Option.map_eq_some_iff, Prod.mk.injEq] at step'
    obtain ⟨⟨_, call'⟩, taken, rfl, rfl⟩ := step'
    exact .call calls (callStep_cases assertion.inner.2 taken)

end ThreadPool
end ConcurrencyCourse
