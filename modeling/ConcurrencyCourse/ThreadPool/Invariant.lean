import ConcurrencyCourse.ThreadPool.Model
import ConcurrencyCourse.SimpleQueue.Preservation

/-!
# The two mutexes of the pool

What a thread of the pool knows: where it stands in a call of the work queue, whether it holds
`m_tasksCompleteMutex`, and that a task it submits has been added to the count.
-/

namespace ConcurrencyCourse
namespace ThreadPool

variable {Tid : Type*}

/-- Position of a call of the pool in a call of the work queue. -/
def CallPc.queuePc : CallPc Tid → SimpleQueue.Pc Task
  | .submitPush _ pc => pc
  | _ => .idle

/-- Position of a thread in a call of the work queue. -/
def Local.queuePc (state : Local Tid) : SimpleQueue.Pc Task :=
  match state.loop with
  | .tryPop pc => pc
  | _ => state.call.queuePc

/-- Positions of a call at which `m_tasksCompleteMutex` is held. -/
def CallPc.holds : CallPc Tid → Bool
  | .waitTest | .waitBlock | .waitUnlock => true
  | _ => false

/-- Positions in `wait_all` from which the count has still to be found at zero. -/
def CallPc.waits : CallPc Tid → Bool
  | .waitLock | .waitTest | .waitBlock | .waiting => true
  | _ => false

/-- Positions of `worker_thread` at which `m_tasksCompleteMutex` is held. -/
def LoopPc.holds : LoopPc → Bool
  | .notifyAll _ | .unlockComplete _ => true
  | _ => false

/-- The task whose submit has executed its `fetch_add` and has not ended. -/
def CallPc.submitted : CallPc Tid → Option Task
  | .submitConvert task | .submitPush task _ => some task
  | _ => none

/-- A thread inside the queue is at a position of the right call. -/
structure Consistent (state : Local Tid) : Prop where
  calls : state.loop.mayCall = true ∨ state.call = .idle
  pops : ∀ pc, state.loop = .tryPop pc → pc.inTry
  pushes : ∀ task pc, state.call = .submitPush task pc → pc.inPush task

/-- The assertion of one thread. -/
structure Assertion (thread : Tid) (pool : Pool Tid) (state : Local Tid) : Prop where
  consistent : Consistent state
  queue : SimpleQueue.Assertion thread pool.workQueue state.queuePc
  held : pool.tasksCompleteMutex = some thread ↔ (state.loop.holds || state.call.holds) = true
  blocked : thread ∈ pool.tasksComplete → state.call = .waiting
  added : ∀ task, state.call.submitted = some task → task ∈ pool.added

/-- What a step of another thread leaves in place for `other`. -/
structure Rely (other : Tid) (pool pool' : Pool Tid) : Prop where
  queue : SimpleQueue.Rely other pool.workQueue pool'.workQueue
  mutex : pool'.tasksCompleteMutex = some other ↔ pool.tasksCompleteMutex = some other
  tasksComplete : other ∈ pool'.tasksComplete → other ∈ pool.tasksComplete
  added : pool.added ⊆ pool'.added

theorem Assertion.of_rely {other : Tid} {pool pool' : Pool Tid} {state : Local Tid}
    (assertion : Assertion other pool state) (rely : Rely other pool pool') :
    Assertion other pool' state :=
  ⟨assertion.consistent, assertion.queue.of_rely rely.queue, rely.mutex.trans assertion.held,
    fun member => assertion.blocked (rely.tasksComplete member),
    fun task submitted => rely.added (assertion.added task submitted)⟩

theorem Consistent.of_calls {loop : LoopPc} {call : CallPc Tid} (calls : loop.mayCall = true)
    (pushes : ∀ task pc, call = .submitPush task pc → pc.inPush task) :
    Consistent ⟨loop, call⟩ := by
  refine ⟨Or.inl calls, fun pc same => ?_, pushes⟩
  obtain rfl : loop = _ := same
  simp [LoopPc.mayCall] at calls

theorem Consistent.of_loop {loop : LoopPc} (pops : ∀ pc, loop = .tryPop pc → pc.inTry) :
    Consistent (⟨loop, .idle⟩ : Local Tid) :=
  ⟨Or.inr rfl, pops, nofun⟩

theorem Local.queuePc_of_mayCall {loop : LoopPc} {call : CallPc Tid}
    (calls : loop.mayCall = true) : Local.queuePc ⟨loop, call⟩ = call.queuePc := by
  cases loop with
  | client | running => rfl
  | _ => simp [LoopPc.mayCall] at calls

theorem LoopPc.holds_of_mayCall {loop : LoopPc} (calls : loop.mayCall = true) :
    loop.holds = false := by
  cases loop with
  | client | running => rfl
  | _ => simp [LoopPc.mayCall] at calls

theorem Assertion.not_blocked {thread : Tid} {pool : Pool Tid} {state : Local Tid}
    (assertion : Assertion thread pool state) (awake : state.call ≠ .waiting) :
    thread ∉ pool.tasksComplete :=
  fun member => awake (assertion.blocked member)

end ThreadPool
end ConcurrencyCourse
