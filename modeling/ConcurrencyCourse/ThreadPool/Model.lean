import ConcurrencyCourse.SimpleQueue.Model

/-!
# The thread pool

Workers take tasks from a `SimpleThreadSafeQueue` and count them down in `m_taskCount`; clients
submit tasks, wait for the count to reach zero, and destroy the pool.  Every atomic operation, every
step of the queue's calls, every lock and unlock of `m_tasksCompleteMutex`, the test and the
release-and-block of the wait, `notify_all`, and the destruction of each member and of the local
`task` are separate steps.  A running task may itself call the pool.  A task is identified by the
number of its submission.
-/

namespace ConcurrencyCourse
namespace ThreadPool

open ThreadSafeQueue (Result)

/-- A submitted callable. -/
abbrev Task := Nat

/-- The members of the pool. -/
inductive Member
  | done
  | workQueue
  | threads
  | taskCount
  | tasksComplete
  | tasksCompleteMutex
  deriving DecidableEq

/-- Members are destroyed in the reverse order of their declaration. -/
def Member.destructionOrder : List Member :=
  [.tasksCompleteMutex, .tasksComplete, .taskCount, .threads, .workQueue, .done]

/-- The calls of the pool's interface; `destroy` is the destructor. -/
inductive Call
  | submit
  | waitAll
  | destroy
  deriving DecidableEq

/-- State of the members, of the worker threads, and history variables. -/
structure Pool (Tid : Type*) where
  done : Bool
  workQueue : SimpleQueue.Queue Tid Task
  /-- The threads started by the constructor. -/
  threads : List Tid
  /-- `m_taskCount`. -/
  taskCount : Nat
  /-- Threads blocked on `m_tasksComplete` and not notified. -/
  tasksComplete : Finset Tid
  /-- `m_tasksCompleteMutex`. -/
  tasksCompleteMutex : Option Tid
  /-- Workers that have returned from `worker_thread`. -/
  finished : Finset Tid
  /-- Members that have been destroyed. -/
  destroyed : List Member
  /-- Number of the next submission. -/
  nextTask : Task
  /-- History variable: tasks whose submit has executed its `fetch_add`. -/
  added : List Task
  /-- History variable: tasks whose submit has returned. -/
  returned : List Task
  /-- History variable: tasks whose call operator has returned, with the thread that ran them. -/
  completed : List (Tid × Task)
  /-- History variable: tasks whose worker has executed its `fetch_sub`. -/
  counted : List Task

/-- Position of a thread in `worker_thread`, with the local variable `task`; `client` is a thread
outside the pool. -/
inductive LoopPc
  | client
  | testDone
  | tryPop (pc : SimpleQueue.Pc Task)
  | running (task : Task)
  | fetchSub (task : Task)
  | lockComplete (task : Task)
  | notifyAll (task : Task)
  | unlockComplete (task : Task)
  | yield
  | dropTask (task : Option Task)
  | exited
  deriving DecidableEq

/-- Position of a thread in a call of the pool. -/
inductive CallPc (Tid : Type*)
  | idle
  -- submit
  | submitAdd (task : Task)
  | submitConvert (task : Task)
  | submitPush (task : Task) (pc : SimpleQueue.Pc Task)
  -- wait_all
  | waitLock
  | waitTest
  | waitBlock
  | waiting
  | waitUnlock
  -- the destructor
  | setDone
  | destroying (rest : List Member)
  | joining (remaining : List Tid) (rest : List Member)
  deriving DecidableEq

/-- Local state of a thread. -/
structure Local (Tid : Type*) where
  loop : LoopPc
  call : CallPc Tid
  deriving DecidableEq

/-- Actions of a thread.  `queue` is a step of a call of the work queue. -/
inductive Action (Tid : Type*)
  | call (call : Call)
  | run
  | queue (action : SimpleQueue.Action Tid)
  | wakeSpuriously
  | throw
  deriving DecidableEq

section Steps

variable {Tid : Type*}

/-- Acquire `m_tasksCompleteMutex` if it is free. -/
def Pool.lock (pool : Pool Tid) (thread : Tid) : Option (Pool Tid) :=
  match pool.tasksCompleteMutex with
  | none => some { pool with tasksCompleteMutex := some thread }
  | some _ => none

/-- Release `m_tasksCompleteMutex`. -/
def Pool.unlock (pool : Pool Tid) : Pool Tid := { pool with tasksCompleteMutex := none }

/-- Begin a call. -/
def beginCall (pool : Pool Tid) : Call → Pool Tid × CallPc Tid
  | .submit => ({ pool with nextTask := pool.nextTask + 1 }, .submitAdd pool.nextTask)
  | .waitAll => (pool, .waitLock)
  | .destroy => (pool, .setDone)

/-- A thread that may call the pool: a client, or a worker that is running a task. -/
def LoopPc.mayCall : LoopPc → Bool
  | .client | .running _ => true
  | _ => false

variable [DecidableEq Tid]

/-- Steps of `submit`; `width` is the width of `unsigned`. -/
def submitStep (width : Nat) (thread : Tid) (action : Action Tid) (pool : Pool Tid)
    (pc : CallPc Tid) : Option (Pool Tid × CallPc Tid) :=
  match action, pc with
  | .run, .submitAdd task =>
      some ({ pool with
          taskCount := (pool.taskCount + 1) % 2 ^ width
          added := pool.added ++ [task] }, .submitConvert task)
  | .run, .submitConvert task => some (pool, .submitPush task (SimpleQueue.entry (.push task)))
  | .throw, .submitConvert _ => some (pool, .idle)
  | .queue action, .submitPush task pc =>
      (SimpleQueue.callStep thread action pool.workQueue pc).map fun result =>
        ({ pool with workQueue := result.1 }, .submitPush task result.2)
  | .run, .submitPush task (.returning .pushed) =>
      some ({ pool with returned := pool.returned ++ [task] }, .idle)
  | .run, .submitPush _ (.returning .threw) => some (pool, .idle)
  | _, _ => none

/-- Steps of `wait_all`. -/
def waitStep (thread : Tid) (action : Action Tid) (pool : Pool Tid) (pc : CallPc Tid) :
    Option (Pool Tid × CallPc Tid) :=
  match action, pc with
  | .run, .waitLock => (pool.lock thread).map fun pool => (pool, .waitTest)
  | .run, .waitTest => some (pool, if pool.taskCount = 0 then .waitUnlock else .waitBlock)
  | .run, .waitBlock =>
      some ({ pool with
          tasksCompleteMutex := none
          tasksComplete := insert thread pool.tasksComplete }, .waiting)
  | .wakeSpuriously, .waiting =>
      if thread ∈ pool.tasksComplete then
        some ({ pool with tasksComplete := pool.tasksComplete.erase thread }, .waiting)
      else none
  | .run, .waiting =>
      if thread ∈ pool.tasksComplete then none
      else (pool.lock thread).map fun pool => (pool, .waitTest)
  | .run, .waitUnlock => some (pool.unlock, .idle)
  | _, _ => none

/-- Steps of the destructor: set `done`, then destroy the members; destroying `threads` joins each
worker. -/
def destroyStep (action : Action Tid) (pool : Pool Tid) (pc : CallPc Tid) :
    Option (Pool Tid × CallPc Tid) :=
  match action, pc with
  | .run, .setDone => some ({ pool with done := true }, .destroying Member.destructionOrder)
  | .run, .destroying [] => some (pool, .idle)
  | .run, .destroying (.threads :: rest) => some (pool, .joining pool.threads rest)
  | .run, .destroying (member :: rest) =>
      some ({ pool with destroyed := member :: pool.destroyed }, .destroying rest)
  | .run, .joining [] rest =>
      some ({ pool with destroyed := .threads :: pool.destroyed }, .destroying rest)
  | .run, .joining (worker :: remaining) rest =>
      if worker ∈ pool.finished then some (pool, .joining remaining rest) else none
  | _, _ => none

/-- Steps of `worker_thread`.  Moving a `std::function` does not throw, and tasks return
normally. -/
def loopStep (width : Nat) (thread : Tid) (action : Action Tid) (pool : Pool Tid) (pc : LoopPc) :
    Option (Pool Tid × LoopPc) :=
  match action, pc with
  | .run, .testDone =>
      if pool.done then some ({ pool with finished := insert thread pool.finished }, .exited)
      else some (pool, .tryPop (SimpleQueue.entry .tryPop))
  | .queue .throw, .tryPop _ => none
  | .queue action, .tryPop pc =>
      (SimpleQueue.callStep thread action pool.workQueue pc).map fun result =>
        ({ pool with workQueue := result.1 }, .tryPop result.2)
  | .run, .tryPop (.returning (.popped (some task))) => some (pool, .running task)
  | .run, .tryPop (.returning (.popped none)) => some (pool, .yield)
  | .run, .running task =>
      some ({ pool with completed := pool.completed ++ [(thread, task)] }, .fetchSub task)
  | .run, .fetchSub task =>
      some ({ pool with
          taskCount := (pool.taskCount + (2 ^ width - 1)) % 2 ^ width
          counted := pool.counted ++ [task] },
        if pool.taskCount = 1 then .lockComplete task else .dropTask (some task))
  | .run, .lockComplete task => (pool.lock thread).map fun pool => (pool, .notifyAll task)
  | .run, .notifyAll task => some ({ pool with tasksComplete := ∅ }, .unlockComplete task)
  | .run, .unlockComplete task => some (pool.unlock, .dropTask (some task))
  | .run, .yield => some (pool, .dropTask none)
  | .run, .dropTask _ => some (pool, .testDone)
  | _, _ => none

/-- Steps of a call in progress. -/
def callStep (width : Nat) (thread : Tid) (action : Action Tid) (pool : Pool Tid)
    (pc : CallPc Tid) : Option (Pool Tid × CallPc Tid) :=
  (submitStep width thread action pool pc).or
    ((waitStep thread action pool pc).or (destroyStep action pool pc))

/-- One step of a thread: of its call in progress, else of its loop, else the begin of a call. -/
def threadStep (width : Nat) (thread : Tid) (action : Action Tid) (pool : Pool Tid)
    (state : Local Tid) : Option (Pool Tid × Local Tid) :=
  match state.call, action with
  | .idle, .call call =>
      if state.loop.mayCall then
        some ((beginCall pool call).1, { state with call := (beginCall pool call).2 })
      else none
  | .idle, action => (loopStep width thread action pool state.loop).map fun result =>
      (result.1, { state with loop := result.2 })
  | pc, action => (callStep width thread action pool pc).map fun result =>
      (result.1, { state with call := result.2 })

/-- States of the pool together with its workers and clients. -/
abbrev Config (Tid : Type*) := Program.Config Tid (Pool Tid) (Local Tid)

/-- A pool whose constructor has started the given workers. -/
def initial (workers : List Tid) : Config Tid where
  shared :=
    { done := false, workQueue := .empty, threads := workers, taskCount := 0, tasksComplete := ∅
      tasksCompleteMutex := none, finished := ∅, destroyed := [], nextTask := 0, added := []
      returned := [], completed := [], counted := [] }
  threads thread := { loop := if thread ∈ workers then .testDone else .client, call := .idle }

/-- The workers of a pool and the threads that use it. -/
def program (width : Nat) (workers : List Tid) :
    Program Tid (Action Tid) (Pool Tid) (Local Tid) where
  Initial pool threads := pool = (initial workers).shared ∧ threads = (initial workers).threads
  step := threadStep width

theorem initial_reachable {width : Nat} {workers : List Tid}
    {allowed : Config Tid → Tid × Action Tid → Config Tid → Prop} :
    ((program width workers).system.restrict allowed).Reachable (initial workers) :=
  .initial ⟨rfl, rfl⟩

/-- The actions of a client that submits a task when nothing gets in its way. -/
def submission (client : Tid) : List (Tid × Action Tid) :=
  [(client, .call .submit), (client, .run), (client, .run), (client, .queue .run),
    (client, .queue .run), (client, .queue (.notifyOne none)), (client, .queue .run),
    (client, .run)]

/-- The actions of a worker that takes a task, runs it and counts it down. -/
def service (worker : Tid) : List (Tid × Action Tid) :=
  (worker, .run) :: List.replicate 5 (worker, .queue .run) ++ List.replicate 3 (worker, .run)

end Steps

end ThreadPool
end ConcurrencyCourse
