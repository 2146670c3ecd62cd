import ConcurrencyCourse.ThreadPool.Preservation

/-!
# The ledger of tasks

Every task is accounted for at each moment of its life: between the begin of its submit and the
`fetch_add`, on its way into the queue, in the queue, with the worker that took it, and after the
`fetch_sub`.  A step moves at most one task from one place to the next.
-/

namespace ConcurrencyCourse
namespace ThreadPool

variable {Tid : Type*}

/-- The task of a submit that has not executed its `fetch_add`. -/
def CallPc.adding : CallPc Tid → Option Task
  | .submitAdd task => some task
  | _ => none

/-- The task of a submit that is counted and not yet in the queue. -/
def CallPc.carried : CallPc Tid → Option Task
  | .submitConvert task | .submitPush _ (.pushLock task) | .submitPush _ (.pushEmplace task) =>
      some task
  | _ => none

/-- The task that a worker has taken from the queue and not yet counted. -/
def LoopPc.held : LoopPc → Option Task
  | .tryPop (.tryPopFront task) | .running task | .fetchSub task => some task
  | .tryPop (.tryUnlock task) | .tryPop (.returning (.popped task)) => task
  | _ => none

/-- The task that a worker has run and not yet counted. -/
def LoopPc.ran : LoopPc → Option Task
  | .fetchSub task => some task
  | _ => none

/-- The tasks whose submit has begun. -/
def Pool.issued (pool : Pool Tid) (task : Task) : Nat := if task < pool.nextTask then 1 else 0

/-- A step moves a task from one place of the ledger to the next. -/
structure Transfer (task : Task) (pool : Pool Tid) (state : Local Tid) (pool' : Pool Tid)
    (state' : Local Tid) : Prop where
  added : pool'.added.count task + state'.call.adding.toList.count task + pool.issued task =
    pool.added.count task + state.call.adding.toList.count task + pool'.issued task
  pushed : pool'.workQueue.pushed.count task + state'.call.carried.toList.count task +
      pool.added.count task ≤
    pool.workQueue.pushed.count task + state.call.carried.toList.count task +
      pool'.added.count task
  removed : (pool'.workQueue.removed.map Prod.snd).count task +
      state.loop.held.toList.count task + pool.counted.count task =
    (pool.workQueue.removed.map Prod.snd).count task + state'.loop.held.toList.count task +
      pool'.counted.count task
  completed : (pool'.completed.map Prod.snd).count task + state.loop.ran.toList.count task +
      pool.counted.count task =
    (pool.completed.map Prod.snd).count task + state'.loop.ran.toList.count task +
      pool'.counted.count task

variable {thread : Tid} {pool pool' : Pool Tid} {state state' : Local Tid} {task : Task}
  {width : Nat} {action : Action Tid}

theorem Transfer.of_same (added : pool'.added = pool.added)
    (nextTask : pool'.nextTask = pool.nextTask)
    (pushed : pool'.workQueue.pushed = pool.workQueue.pushed)
    (removed : pool'.workQueue.removed = pool.workQueue.removed)
    (completed : pool'.completed = pool.completed) (counted : pool'.counted = pool.counted)
    (adding : state'.call.adding = state.call.adding)
    (carried : state'.call.carried = none ∨ state'.call.carried = state.call.carried)
    (held : state'.loop.held = state.loop.held) (ran : state'.loop.ran = state.loop.ran) :
    Transfer task pool state pool' state' := by
  constructor
  · rw [added, adding, Pool.issued, Pool.issued, nextTask]
  · rw [pushed, added]
    rcases carried with lost | same
    · simp [lost]
    · rw [same]
  · rw [removed, held, counted]
  · rw [completed, ran, counted]

theorem Pool.issued_submit (pool : Pool Tid) (task : Task) :
    Pool.issued { pool with nextTask := pool.nextTask + 1 } task =
      pool.issued task + [pool.nextTask].count task := by
  simp only [Pool.issued, List.count_singleton, beq_iff_eq]
  rcases Nat.lt_trichotomy task pool.nextTask with less | same | greater
  · simp [less, less.ne', Nat.lt_succ_of_lt less]
  · simp [same]
  · simp [greater.ne, Nat.not_lt_of_lt greater, Nat.not_lt.mpr (Nat.succ_le_of_lt greater)]

variable [DecidableEq Tid]

theorem LoopCase.transfer {loop loop' : LoopPc} {call : CallPc Tid}
    (step : LoopCase width thread pool action loop pool' loop') :
    Transfer task pool ⟨loop, call⟩ pool' ⟨loop', call⟩ := by
  cases step with
  | tryPop taken within =>
      cases taken with
      | move front =>
          constructor
          · rfl
          · exact Nat.le_refl _
          · simp [LoopPc.held, List.count_append]
          · rfl
      | lock | empty | nonempty | popFront | unlock =>
          exact .of_same rfl rfl rfl rfl rfl rfl rfl (Or.inr rfl) rfl rfl
  | ran done =>
      constructor
      · rfl
      · exact Nat.le_refl _
      · rfl
      · simp [LoopPc.ran, List.count_append]
  | last done _ | more done _ =>
      constructor
      · rfl
      · exact Nat.le_refl _
      · simp only [LoopPc.held, List.count_append, Option.toList_some, Option.toList_none,
          List.count_nil]
        omega
      · simp only [LoopPc.ran, List.count_append, Option.toList_some, Option.toList_none,
          List.count_nil]
        omega
  | exit | enter | took | nothing | lock | notifyAll | unlock | yield | drop =>
      exact .of_same rfl rfl rfl rfl rfl rfl rfl (Or.inr rfl) rfl rfl

theorem CallCase.transfer {loop : LoopPc} {call call' : CallPc Tid}
    (step : CallCase width thread pool action call pool' call') :
    Transfer task pool ⟨loop, call⟩ pool' ⟨loop, call'⟩ := by
  cases step with
  | add new =>
      constructor
      · simp [CallPc.adding, Pool.issued, List.count_append]
      · simp only [CallPc.carried, List.count_append, Option.toList_some, Option.toList_none,
          List.count_nil]
        omega
      · rfl
      · rfl
  | push new taken within =>
      cases taken with
      | emplace newValue =>
          constructor
          · rfl
          · simp [CallPc.carried, List.count_append]
          · rfl
          · rfl
      | throwEmplace => exact .of_same rfl rfl rfl rfl rfl rfl rfl (Or.inl rfl) rfl rfl
      | lock | notifyNobody | notify | unlock | unwind =>
          exact .of_same rfl rfl rfl rfl rfl rfl rfl (Or.inr rfl) rfl rfl
  | throwConvert => exact .of_same rfl rfl rfl rfl rfl rfl rfl (Or.inl rfl) rfl rfl
  | convert | submitted | threw | lock | testZero | testMore | block | wake | relock | unlock
  | setDone | destroyed | joinAll | destroy | joined | join =>
      exact .of_same rfl rfl rfl rfl rfl rfl rfl (Or.inr rfl) rfl rfl

theorem StepCase.transfer (step : StepCase width thread pool action state pool' state') :
    Transfer task pool state pool' state' := by
  cases step with
  | submit calls =>
      constructor
      · rw [pool.issued_submit]
        simp only [CallPc.adding, Option.toList_some, Option.toList_none, List.count_nil]
        omega
      · exact Nat.le_refl _
      · rfl
      · rfl
  | waitAll | destroy => exact .of_same rfl rfl rfl rfl rfl rfl rfl (Or.inr rfl) rfl rfl
  | loop taken => exact taken.transfer
  | call _ taken => exact taken.transfer

/-! ## The balance of the ledger -/

variable [Fintype Tid]

open Program (sumThreads sumThreads_update)

/-- Where each task is accounted for. -/
structure Ledger (config : Config Tid) (task : Task) : Prop where
  added : config.shared.added.count task +
      sumThreads (fun state => state.call.adding.toList.count task) config.threads =
    config.shared.issued task
  pushed : config.shared.workQueue.pushed.count task +
      sumThreads (fun state => state.call.carried.toList.count task) config.threads ≤
    config.shared.added.count task
  removed : (config.shared.workQueue.removed.map Prod.snd).count task =
    sumThreads (fun state => state.loop.held.toList.count task) config.threads +
      config.shared.counted.count task
  completed : (config.shared.completed.map Prod.snd).count task =
    sumThreads (fun state => state.loop.ran.toList.count task) config.threads +
      config.shared.counted.count task

theorem Ledger.step {config : Config Tid} (ledger : Ledger config task)
    (transfer : Transfer task config.shared (config.threads thread) pool' state') :
    Ledger ⟨pool', Function.update config.threads thread state'⟩ task := by
  have adding := sumThreads_update (fun state : Local Tid => state.call.adding.toList.count task)
    config.threads thread state'
  have carried := sumThreads_update
    (fun state : Local Tid => state.call.carried.toList.count task) config.threads thread state'
  have held := sumThreads_update (fun state : Local Tid => state.loop.held.toList.count task)
    config.threads thread state'
  have ran := sumThreads_update (fun state : Local Tid => state.loop.ran.toList.count task)
    config.threads thread state'
  obtain ⟨added, pushed, removed, completed⟩ := ledger
  obtain ⟨added', pushed', removed', completed'⟩ := transfer
  constructor
  · dsimp only
    omega
  · dsimp only
    omega
  · dsimp only
    omega
  · dsimp only
    omega

theorem ledger_of_reachable {workers : List Tid} {config : Config Tid}
    (reach : (program width workers).system.Reachable config) (task : Task) :
    Ledger config task := by
  refine reach.invariant (motive := fun config => Ledger config task) ?_ ?_
  · rintro ⟨pool, threads⟩ ⟨rfl, rfl⟩
    have nothing (loop : LoopPc) (outside : loop = .testDone ∨ loop = .client) :
        loop.held = none ∧ loop.ran = none := by
      rcases outside with rfl | rfl <;> exact ⟨rfl, rfl⟩
    have start (thread : Tid) := nothing ((initial workers).threads thread).loop (by
      by_cases worker : thread ∈ workers <;> simp [initial, worker])
    have adding : sumThreads (fun state : Local Tid => state.call.adding.toList.count task)
        (initial workers).threads = 0 := Program.sumThreads_eq_zero fun _ => rfl
    have carried : sumThreads (fun state : Local Tid => state.call.carried.toList.count task)
        (initial workers).threads = 0 := Program.sumThreads_eq_zero fun _ => rfl
    have held : sumThreads (fun state : Local Tid => state.loop.held.toList.count task)
        (initial workers).threads = 0 :=
      Program.sumThreads_eq_zero fun thread => by rw [(start thread).1]; rfl
    have ran : sumThreads (fun state : Local Tid => state.loop.ran.toList.count task)
        (initial workers).threads = 0 :=
      Program.sumThreads_eq_zero fun thread => by rw [(start thread).2]; rfl
    constructor
    · rw [adding]
      rfl
    · rw [carried]
      rfl
    · rw [held]
      rfl
    · rw [ran]
      rfl
  · rintro before ⟨thread, action⟩ after earlier ledger step
    obtain ⟨pool', state', change, rfl⟩ := exists_stepCase earlier step
    exact ledger.step change.transfer

end ThreadPool
end ConcurrencyCourse
