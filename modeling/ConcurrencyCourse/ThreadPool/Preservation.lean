import ConcurrencyCourse.ThreadPool.StepCases

/-!
# Every step keeps the assertions of the pool
-/

namespace ConcurrencyCourse
namespace ThreadPool

variable {Tid : Type*} {thread : Tid} {pool pool' : Pool Tid} {state state' : Local Tid}

/-- After the step of `thread` the deque is in shape and the other threads can rely on the pool. -/
def Preserved (thread : Tid) (pool pool' : Pool Tid) (state' : Local Tid) : Prop :=
  SimpleQueue.Shape pool'.workQueue ∧ Assertion thread pool' state' ∧
    ∀ other, other ≠ thread → Rely other pool pool'

theorem Assertion.preserved_of_local (assertion : Assertion thread pool state)
    (shape : SimpleQueue.Shape pool.workQueue) (consistent : Consistent state')
    (free : state.queuePc.holds = false) (awake : state.queuePc ≠ .waiting)
    (free' : state'.queuePc.holds = false) (notWaiting : state.call ≠ .waiting)
    (workQueue : pool'.workQueue = pool.workQueue)
    (mutex : pool'.tasksCompleteMutex = pool.tasksCompleteMutex)
    (tasksComplete : pool'.tasksComplete ⊆ pool.tasksComplete)
    (holds : (state'.loop.holds || state'.call.holds) = (state.loop.holds || state.call.holds))
    (added : pool.added ⊆ pool'.added)
    (submitted : ∀ task, state'.call.submitted = some task → task ∈ pool'.added) :
    Preserved thread pool pool' state' := by
  refine ⟨by rw [workQueue]; exact shape, ⟨consistent, ?_, ?_, fun member => ?_, submitted⟩,
    fun other _ => ⟨by rw [workQueue]; exact .refl, by rw [mutex], fun member =>
      tasksComplete member, added⟩⟩
  · rw [workQueue]
    exact assertion.queue.outside free awake free'
  · rw [mutex, holds]
    exact assertion.held
  · exact absurd (tasksComplete member) (assertion.not_blocked notWaiting)

theorem Assertion.preserved_of_lock (assertion : Assertion thread pool state)
    (shape : SimpleQueue.Shape pool.workQueue) (consistent : Consistent state')
    (queuePc : state'.queuePc = state.queuePc) (notBlocked : thread ∉ pool.tasksComplete)
    (unlocked : pool.tasksCompleteMutex = none)
    (holds : (state'.loop.holds || state'.call.holds) = true)
    (submitted : state'.call.submitted = none) :
    Preserved thread pool { pool with tasksCompleteMutex := some thread } state' := by
  refine ⟨shape, ⟨consistent, by rw [queuePc]; exact assertion.queue, by simp [holds],
    fun member => absurd member notBlocked, by simp [submitted]⟩,
    fun other foreign => ⟨.refl, ?_, id, List.Subset.refl _⟩⟩
  simp [unlocked, foreign.symm]

theorem Assertion.preserved_of_unlock (assertion : Assertion thread pool state)
    (shape : SimpleQueue.Shape pool.workQueue) {tasksComplete : Finset Tid}
    (consistent : Consistent state') (queuePc : state'.queuePc = state.queuePc)
    (held : (state.loop.holds || state.call.holds) = true)
    (holds : (state'.loop.holds || state'.call.holds) = false)
    (blocked : thread ∈ tasksComplete → state'.call = .waiting)
    (waiters : ∀ other, other ≠ thread → other ∈ tasksComplete → other ∈ pool.tasksComplete)
    (submitted : state'.call.submitted = none) :
    Preserved thread pool
      { pool with tasksCompleteMutex := none, tasksComplete := tasksComplete } state' := by
  refine ⟨shape, ⟨consistent, by rw [queuePc]; exact assertion.queue, by simp [holds], blocked,
    by simp [submitted]⟩, fun other foreign => ⟨.refl, ?_, waiters other foreign,
      List.Subset.refl _⟩⟩
  simp [assertion.held.mpr held, foreign.symm]

theorem Assertion.preserved_of_queue (assertion : Assertion thread pool state)
    {queue' : SimpleQueue.Queue Tid Task} (consistent : Consistent state')
    (inner : SimpleQueue.Preserved thread pool.workQueue queue' state'.queuePc)
    (holds : (state'.loop.holds || state'.call.holds) = (state.loop.holds || state.call.holds))
    (notWaiting : state.call ≠ .waiting)
    (submitted : state'.call.submitted = state.call.submitted) :
    Preserved thread pool { pool with workQueue := queue' } state' := by
  obtain ⟨shape, mine, others⟩ := inner
  refine ⟨shape, ⟨consistent, mine, by rw [holds]; exact assertion.held,
    fun member => absurd member (assertion.not_blocked notWaiting),
    by rw [submitted]; exact assertion.added⟩,
    fun other foreign => ⟨others other foreign, Iff.rfl, id, List.Subset.refl _⟩⟩

variable [DecidableEq Tid] {width : Nat} {action : Action Tid}

theorem Assertion.preserved_loopCase {loop loop' : LoopPc}
    (assertion : Assertion thread pool ⟨loop, .idle⟩) (shape : SimpleQueue.Shape pool.workQueue)
    (step : LoopCase width thread pool action loop pool' loop') :
    Preserved thread pool pool' ⟨loop', .idle⟩ := by
  cases step with
  | enter _ =>
      exact assertion.preserved_of_local shape
        (.of_loop fun pc same => by obtain rfl := LoopPc.tryPop.inj same; trivial) rfl nofun rfl
        nofun rfl rfl (Finset.Subset.refl _) rfl (List.Subset.refl _) nofun
  | tryPop taken within =>
      exact assertion.preserved_of_queue
        (.of_loop fun pc same => by obtain rfl := LoopPc.tryPop.inj same; exact within)
        ((assertion.inner.1 _ rfl).2.preserved_tryCase shape taken) rfl nofun rfl
  | lock task free =>
      exact assertion.preserved_of_lock shape (.of_loop nofun) rfl (assertion.not_blocked nofun)
        free rfl rfl
  | unlock task =>
      exact assertion.preserved_of_unlock shape (.of_loop nofun) rfl rfl rfl
        (fun member => absurd member (assertion.not_blocked nofun)) (fun _ _ => id) rfl
  | notifyAll task =>
      exact assertion.preserved_of_local shape (.of_loop nofun) rfl nofun rfl nofun rfl rfl
        (Finset.empty_subset _) rfl (List.Subset.refl _) nofun
  | exit | took | nothing | ran | last | more | yield | drop =>
      exact assertion.preserved_of_local shape (.of_loop nofun) rfl nofun rfl nofun rfl rfl
        (Finset.Subset.refl _) rfl (List.Subset.refl _) nofun

theorem Assertion.preserved_callCase {loop : LoopPc} {call call' : CallPc Tid}
    (assertion : Assertion thread pool ⟨loop, call⟩) (shape : SimpleQueue.Shape pool.workQueue)
    (calls : loop.mayCall = true) (step : CallCase width thread pool action call pool' call') :
    Preserved thread pool pool' ⟨loop, call'⟩ := by
  have queuePc (call : CallPc Tid) : Local.queuePc ⟨loop, call⟩ = call.queuePc :=
    Local.queuePc_of_mayCall calls
  have free := LoopPc.holds_of_mayCall calls
  cases step with
  | add task =>
      refine assertion.preserved_of_local shape (.of_calls calls nofun) (by rw [queuePc]; rfl)
        (by rw [queuePc]; nofun) (by rw [queuePc]; rfl) nofun rfl rfl (Finset.Subset.refl _) rfl
        (List.subset_append_left _ _) ?_
      rintro task' same
      obtain rfl := Option.some.inj same
      simp
  | convert task =>
      exact assertion.preserved_of_local shape (.of_calls calls fun task' pc same => by
          obtain ⟨rfl, rfl⟩ := CallPc.submitPush.inj same; rfl) (by rw [queuePc]; rfl)
        (by rw [queuePc]; nofun) (by rw [queuePc]; rfl) nofun rfl rfl (Finset.Subset.refl _) rfl
        (List.Subset.refl _) assertion.added
  | push task taken within =>
      refine assertion.preserved_of_queue (.of_calls calls fun task' pc same => by
          obtain ⟨rfl, rfl⟩ := CallPc.submitPush.inj same; exact within) ?_ rfl nofun rfl
      rw [queuePc]
      exact (assertion.inner.2 _ _ rfl).2.preserved_pushCase shape taken
  | lock unlocked =>
      exact assertion.preserved_of_lock shape (.of_calls calls nofun)
        (by rw [queuePc, queuePc]; rfl)
        (assertion.not_blocked nofun) unlocked (by simp [CallPc.holds]) rfl
  | relock notBlocked unlocked =>
      exact assertion.preserved_of_lock shape (.of_calls calls nofun)
        (by rw [queuePc, queuePc]; rfl)
        notBlocked unlocked (by simp [CallPc.holds]) rfl
  | block =>
      exact assertion.preserved_of_unlock shape (.of_calls calls nofun)
        (by rw [queuePc, queuePc]; rfl) (by simp [CallPc.holds]) (by simp [free, CallPc.holds])
        (fun _ => rfl) (fun other foreign member => Finset.mem_of_mem_insert_of_ne member foreign)
        rfl
  | unlock =>
      exact assertion.preserved_of_unlock shape (.of_calls calls nofun)
        (by rw [queuePc, queuePc]; rfl) (by simp [CallPc.holds]) (by simp [free, CallPc.holds])
        (fun member => absurd member (assertion.not_blocked nofun)) (fun _ _ => id) rfl
  | wake member =>
      refine ⟨shape, ⟨.of_calls calls nofun, ?_, assertion.held, fun _ => rfl, nofun⟩,
        fun other _ => ⟨.refl, Iff.rfl, Finset.mem_of_mem_erase, List.Subset.refl _⟩⟩
      exact assertion.queue
  | throwConvert | submitted | threw | testZero | testMore | setDone | destroyed | joinAll
  | destroy | joined | join =>
      exact assertion.preserved_of_local shape (.of_calls calls nofun) (by rw [queuePc]; rfl)
        (by rw [queuePc]; nofun) (by rw [queuePc]; rfl) nofun rfl rfl (Finset.Subset.refl _) rfl
        (List.Subset.refl _) nofun

theorem Assertion.preserved (assertion : Assertion thread pool state)
    (shape : SimpleQueue.Shape pool.workQueue)
    (step : threadStep width thread action pool state = some (pool', state')) :
    Preserved thread pool pool' state' := by
  cases assertion.threadStep_cases step with
  | submit calls | waitAll calls | destroy calls =>
      have queuePc (call : CallPc Tid) : Local.queuePc ⟨_, call⟩ = call.queuePc :=
        Local.queuePc_of_mayCall calls
      exact assertion.preserved_of_local shape (.of_calls calls nofun) (by rw [queuePc]; rfl)
        (by rw [queuePc]; nofun) (by rw [queuePc]; rfl) nofun rfl rfl (Finset.Subset.refl _) rfl
        (List.Subset.refl _) nofun
  | loop taken => exact assertion.preserved_loopCase shape taken
  | call calls taken => exact assertion.preserved_callCase shape calls taken

theorem assertion_initial {workers : List Tid} {loop : LoopPc} (queuePc : ∀ pc, loop ≠ .tryPop pc)
    (free : loop.holds = false) : Assertion thread (initial workers).shared ⟨loop, .idle⟩ := by
  have outside : Local.queuePc (⟨loop, .idle⟩ : Local Tid) = .idle := by
    cases loop with
    | tryPop pc => exact absurd rfl (queuePc pc)
    | _ => rfl
  refine ⟨.of_loop fun pc same => absurd same (queuePc pc), ?_, ?_, nofun, nofun⟩
  · rw [outside]
    exact ⟨by simp [initial, SimpleQueue.Queue.empty, SimpleQueue.Pc.holds], nofun, nofun⟩
  · simp [initial, free, CallPc.holds]

theorem assertion_of_reachable {workers : List Tid} {config : Config Tid}
    (reach : (program width workers).system.Reachable config) :
    SimpleQueue.Shape config.shared.workQueue ∧
      ∀ thread, Assertion thread config.shared (config.threads thread) := by
  refine Program.invariant_of_assertions (fun pool => SimpleQueue.Shape pool.workQueue) Assertion
    ?_ ?_ reach.unrestricted
  · rintro pool threads ⟨rfl, rfl⟩
    refine ⟨⟨rfl, fun _ => ⟨[], rfl⟩, rfl⟩, fun thread => ?_⟩
    by_cases worker : thread ∈ workers
    · have started : Assertion thread (initial workers).shared ⟨.testDone, .idle⟩ :=
        assertion_initial nofun rfl
      simpa [initial, worker] using started
    · have outside : Assertion thread (initial workers).shared ⟨.client, .idle⟩ :=
        assertion_initial nofun rfl
      simpa [initial, worker] using outside
  · intro before after thread action pool' state' asserted shape step _
    obtain ⟨shape', mine, others⟩ := (asserted thread).preserved shape step
    exact ⟨shape', mine, fun other state foreign assertion =>
      assertion.of_rely (others other foreign)⟩

theorem exists_stepCase {workers : List Tid} {before after : Config Tid}
    (reach : (program width workers).system.Reachable before)
    (step : (program width workers).system.Step before (thread, action) after) :
    ∃ pool' state',
      StepCase width thread before.shared action (before.threads thread) pool' state' ∧
      after = ⟨pool', Function.update before.threads thread state'⟩ := by
  obtain ⟨pool', state', taken, rfl⟩ := Program.system_step_iff.mp step
  obtain ⟨-, asserted⟩ := assertion_of_reachable reach
  exact ⟨pool', state', (asserted thread).threadStep_cases taken, rfl⟩

end ThreadPool
end ConcurrencyCourse
