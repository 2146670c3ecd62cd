import ConcurrencyCourse.ThreadPool.Preservation
import ConcurrencyCourse.Library.HandOver

/-!
# What the memory orders of the pool make visible

Each thread carries the tasks whose completion its next step is ordered after.  Unlocking a mutex
leaves them there for those who lock it later.  An atomic operation with release semantics publishes
them with the value that it writes, and one with acquire semantics takes what was published with the
value that it reads; a read-modify-write keeps what the values before it have published.  The orders
are those written in `ThreadPool.h`: `m_taskCount` is changed with `memory_order_relaxed`, and its
test and all accesses of `done` are sequentially consistent.
-/

namespace ConcurrencyCourse
namespace ThreadPool

/-- `std::memory_order` -/
inductive MemoryOrder
  | relaxed
  | acquire
  | release
  | acqRel
  | seqCst
  deriving DecidableEq

def MemoryOrder.acquires : MemoryOrder → Bool
  | .acquire | .acqRel | .seqCst => true
  | _ => false

def MemoryOrder.releases : MemoryOrder → Bool
  | .release | .acqRel | .seqCst => true
  | _ => false

/-- The mutex of `work_queue`, and `m_tasksCompleteMutex`. -/
inductive Mutex
  | workQueue
  | tasksComplete
  deriving DecidableEq

/-- The atomic members. -/
inductive Atomic
  | done
  | taskCount
  deriving DecidableEq

/-- What a step does that orders it with the steps of other threads; `complete` is the return of a
task's call operator. -/
inductive Access
  | none
  | lock (mutex : Mutex)
  | unlock (mutex : Mutex)
  | load (atomic : Atomic) (order : MemoryOrder)
  | store (atomic : Atomic) (order : MemoryOrder)
  | readModifyWrite (atomic : Atomic) (order : MemoryOrder)
  | complete (task : Task)
  deriving DecidableEq

/-- The step of a call of the work queue. -/
def queueAccess : SimpleQueue.Pc Task → Access
  | .pushLock _ | .tryLock | .waitLock | .waiting => .lock .workQueue
  | .pushUnlock | .tryUnlock _ | .waitBlock | .waitUnlock _ | .unwind => .unlock .workQueue
  | _ => .none

section Steps

variable {Tid : Type*}

/-- The step of a call of the pool. -/
def callAccess : Action Tid → CallPc Tid → Access
  | .queue .run, .submitPush _ pc => queueAccess pc
  | .run, .submitAdd _ => .readModifyWrite .taskCount .relaxed
  | .run, .waitLock | .run, .waiting => .lock .tasksComplete
  | .run, .waitTest => .load .taskCount .seqCst
  | .run, .waitBlock | .run, .waitUnlock => .unlock .tasksComplete
  | .run, .setDone => .store .done .seqCst
  | _, _ => .none

/-- The step of `worker_thread`. -/
def loopAccess : Action Tid → LoopPc → Access
  | .queue .run, .tryPop pc => queueAccess pc
  | .run, .testDone => .load .done .seqCst
  | .run, .running task => .complete task
  | .run, .fetchSub _ => .readModifyWrite .taskCount .relaxed
  | .run, .lockComplete _ => .lock .tasksComplete
  | .run, .unlockComplete _ => .unlock .tasksComplete
  | _, _ => .none

/-- The step of a thread. -/
def access (action : Action Tid) (state : Local Tid) : Access :=
  match state.call with
  | .idle => loopAccess action state.loop
  | call => callAccess action call

/-- The pool with what has been left at its mutexes and published at its atomics, and a history
variable. -/
structure Memory (Tid : Type*) where
  pool : Pool Tid
  left : Mutex → Finset Task
  published : Atomic → Finset Task
  /-- History variable: tasks completed, unlocks and locks, the latest first. -/
  log : List (HandOver.Event Tid Mutex Task)

/-- The local state of a thread, and the tasks whose completion it is ordered after. -/
structure Ordered (Tid : Type*) where
  state : Local Tid
  carried : Finset Task

/-- What an access does to the sets. -/
def Memory.perform (memory : Memory Tid) (thread : Tid) (carried : Finset Task) :
    Access → Memory Tid × Finset Task
  | .none => (memory, carried)
  | .lock mutex =>
      ({ memory with log := .acquire mutex thread :: memory.log }, carried ∪ memory.left mutex)
  | .unlock mutex =>
      ({ memory with
          left := Function.update memory.left mutex (memory.left mutex ∪ carried)
          log := .release mutex thread :: memory.log }, carried)
  | .load atomic order =>
      (memory, if order.acquires then carried ∪ memory.published atomic else carried)
  | .store atomic order =>
      ({ memory with
          published := Function.update memory.published atomic
            (if order.releases then carried else ∅) }, carried)
  | .readModifyWrite atomic order =>
      let read := if order.acquires then carried ∪ memory.published atomic else carried
      ({ memory with
          published := Function.update memory.published atomic
            (if order.releases then memory.published atomic ∪ read
              else memory.published atomic) }, read)
  | .complete task =>
      ({ memory with log := .learn thread task :: memory.log }, insert task carried)

variable [DecidableEq Tid]

/-- A step of a thread of the pool, with its access. -/
def orderedStep (width : Nat) (thread : Tid) (action : Action Tid) (memory : Memory Tid)
    (ordered : Ordered Tid) : Option (Memory Tid × Ordered Tid) :=
  (threadStep width thread action memory.pool ordered.state).map fun result =>
    let performed := memory.perform thread ordered.carried (access action ordered.state)
    ({ performed.1 with pool := result.1 }, ⟨result.2, performed.2⟩)

/-- The pool and its threads with their sets. -/
abbrev OrderedConfig (Tid : Type*) := Program.Config Tid (Memory Tid) (Ordered Tid)

/-- A new pool; nothing has been completed. -/
def orderedInitial (workers : List Tid) : OrderedConfig Tid where
  shared :=
    { pool := (initial workers).shared, left := fun _ => ∅, published := fun _ => ∅, log := [] }
  threads thread := ⟨(initial workers).threads thread, ∅⟩

/-- The workers of a pool and the threads that use it, with their sets. -/
def orderedProgram (width : Nat) (workers : List Tid) :
    Program Tid (Action Tid) (Memory Tid) (Ordered Tid) where
  Initial memory threads :=
    memory = (orderedInitial workers).shared ∧ threads = (orderedInitial workers).threads
  step := orderedStep width

end Steps

end ThreadPool
end ConcurrencyCourse
