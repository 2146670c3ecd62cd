import ConcurrencyCourse.ThreadPool.Barrier

/-!
# How long a task lives

A worker counts a task down before it destroys its local `task`, so `wait_all` may return while
the callable, with everything it captured, still exists.  What `wait_all` does guarantee is that
only this local variable is left: the task has run, and no element of the queue owns it.
-/

namespace ConcurrencyCourse
namespace ThreadPool

variable {Tid : Type*}

/-- The task whose callable the local variable `task` of a worker owns. -/
def LoopPc.owned : LoopPc → Option Task
  | .tryPop (.tryPopFront task) | .running task | .fetchSub task | .lockComplete task
  | .notifyAll task | .unlockComplete task => some task
  | .tryPop (.tryUnlock task) | .tryPop (.returning (.popped task)) | .dropTask task => task
  | _ => none

/-- The task of a worker that has executed its `fetch_sub` and has only the notification and the
end of the iteration before it. -/
def LoopPc.ending : LoopPc → Option Task
  | .lockComplete task | .notifyAll task | .unlockComplete task => some task
  | .dropTask task => task
  | _ => none

/-- The task that a worker has run and not yet destroyed. -/
def LoopPc.ranOwned : LoopPc → Option Task
  | .fetchSub task => some task
  | pc => pc.ending

theorem LoopPc.held_or_ending {pc : LoopPc} {task : Task} (owns : pc.owned = some task) :
    pc.held = some task ∨ pc.ending = some task := by
  cases pc with
  | tryPop inner =>
      refine Or.inl (Eq.trans ?_ owns)
      cases inner with
      | returning result => cases result <;> rfl
      | _ => rfl
  | running | fetchSub => exact Or.inl owns
  | lockComplete | notifyAll | unlockComplete | dropTask => exact Or.inr owns
  | _ => simp [LoopPc.owned] at owns

variable [DecidableEq Tid] {width : Nat} {workers : List Tid} {thread : Tid}
  {pool pool' : Pool Tid} {state state' : Local Tid} {action : Action Tid} {task : Task}
  {config : Config Tid}

theorem StepCase.ranOwned (step : StepCase width thread pool action state pool' state')
    (owns : state'.loop.ranOwned = some task) :
    state.loop.ranOwned = some task ∨ (thread, task) ∈ pool'.completed := by
  cases step with
  | submit | waitAll | destroy | call => exact Or.inl owns
  | loop taken =>
      cases taken with
      | ran task =>
          obtain rfl := Option.some.inj owns
          exact Or.inr (by simp)
      | last | more | lock | notifyAll | unlock => exact Or.inl owns
      | exit | enter | tryPop | took | nothing | yield | drop =>
          simp [LoopPc.ranOwned, LoopPc.ending] at owns

theorem StepCase.completed_subset (step : StepCase width thread pool action state pool' state') :
    pool.completed ⊆ pool'.completed := by
  cases step.roleStep with
  | same _ completed _ | removed _ _ _ completed =>
      rw [completed]
      exact List.Subset.refl _
  | completed task _ _ completed =>
      rw [completed]
      exact List.subset_append_left _ _

/-- A worker that still owns a task past its `fetch_sub` is the one that ran it. -/
theorem completed_of_ranOwned (reach : (program width workers).system.Reachable config)
    (owns : (config.threads thread).loop.ranOwned = some task) :
    (thread, task) ∈ config.shared.completed := by
  refine reach.invariant (motive := fun config =>
    ∀ thread task, (config.threads thread).loop.ranOwned = some task →
      (thread, task) ∈ config.shared.completed) ?_ ?_ thread task owns
  · rintro ⟨pool, threads⟩ ⟨rfl, rfl⟩ thread task owns
    by_cases worker : thread ∈ workers <;>
      simp [initial, worker, LoopPc.ranOwned, LoopPc.ending] at owns
  · rintro before ⟨mover, action⟩ after earlier recorded step thread task owns
    obtain ⟨pool', state', change, rfl⟩ := exists_stepCase earlier step
    by_cases same : thread = mover
    · subst same
      rcases change.ranOwned (by simpa using owns) with kept | ran
      · exact change.completed_subset (recorded _ _ kept)
      · exact ran
    · exact change.completed_subset (recorded thread task (by simpa [same] using owns))

variable [Fintype Tid]

/-- A counted task is not in the queue, and a worker that still owns it is past its `fetch_sub`. -/
theorem owner_of_counted (reach : (program width workers).system.Reachable config)
    (counted : task ∈ config.shared.counted) :
    task ∉ config.shared.workQueue.contents ∧
      ∀ thread, (config.threads thread).loop.owned = some task →
        (config.threads thread).loop.ending = some task ∧
          (thread, task) ∈ config.shared.completed := by
  obtain ⟨-, absent, unheld⟩ := settled_of_counted reach counted
  refine ⟨List.count_eq_zero.mp absent, fun thread owns => ?_⟩
  have ends := (LoopPc.held_or_ending owns).resolve_left fun held => by
    have mine := Program.le_sumThreads
      (fun state : Local Tid => state.loop.held.toList.count task) config.threads thread
    simp [unheld, held] at mine
  refine ⟨ends, completed_of_ranOwned reach ?_⟩
  generalize (config.threads thread).loop = pc at ends
  cases pc with
  | fetchSub => simp [LoopPc.ending] at ends
  | _ => exact ends

/-- When a call of `wait_all` is over, every task whose submit had returned before it began has been
taken once and has run once and no element of the queue owns it.  Its callable may still be owned by
the worker that ran it: one that has executed its `fetch_sub` and has only the notification and the
end of that iteration before it. -/
theorem waitAll_leaves_ending :
    ∀ (before start after : Config Tid) trace thread,
      ((program width workers).system.restrict (InUse width)).Reachable before →
      ((program width workers).system.restrict (InUse width)).Step before
        (thread, .call .waitAll) start →
      ((program width workers).system.restrict (InUse width)).Run start trace after →
      (after.threads thread).call = .idle →
      ∀ task ∈ before.shared.returned,
        ExactlyOnce workers after.shared.workQueue.removed task ∧
        ExactlyOnce workers after.shared.completed task ∧
        task ∉ after.shared.workQueue.contents ∧
        ∀ owner, (after.threads owner).loop.owned = some task →
          (after.threads owner).loop.ending = some task ∧
            (owner, task) ∈ after.shared.completed := by
  intro before start after trace thread reach call run ended task returned
  have reachAfter := run.reachable (reach.step call)
  have counted := counted_of_waitAll reach call run ended returned
  obtain ⟨taken, ran⟩ := exactlyOnce_of_counted reachAfter.of_restrict counted
  exact ⟨taken, ran, owner_of_counted reachAfter.of_restrict counted⟩

/-- A client submits a task and waits for it; the worker still owns the task when the client's call
is over. -/
theorem waitAll_leaves_ending_owned : ∃ after : Config (Fin 2),
    ((after.threads 1).call = .idle ∧ (after.threads 0).loop.owned = some 0) ∧
      ExactlyOnce [0] after.shared.completed 0 ∧ 0 ∉ after.shared.workQueue.contents ∧
        (after.threads 0).loop.ending = some 0 := by
  let before : Config (Fin 2) := (program 32 [0]).finish (InUse 32) (submission 1)
    (initial [0])
  let start := (program 32 [0]).finish (InUse 32) [(1, .call .waitAll)] before
  let after := (program 32 [0]).finish (InUse 32)
    (List.replicate 3 (1, .run) ++ service 0 ++ List.replicate 3 (0, .run) ++
      List.replicate 3 (1, .run)) start
  have reach : ((program 32 [0]).system.restrict (InUse 32)).Reachable before :=
    (Program.run_finish (by decide +kernel)).reachable initial_reachable
  have called : (((program 32 [0]).system.restrict (InUse 32)).Step before
      (1, .call .waitAll) start) := (Program.run_finish (by decide +kernel)).step_of_single
  have ended : (after.threads 1).call = .idle := by decide +kernel
  have owned : (after.threads 0).loop.owned = some 0 := by decide +kernel
  obtain ⟨-, ran, absent, owners⟩ := waitAll_leaves_ending before start after _ 1 reach called
    (Program.run_finish (by decide +kernel)) ended 0 (by decide +kernel)
  exact ⟨after, ⟨ended, owned⟩, ran, absent, (owners 0 owned).1⟩

/-! ## What outlives wait_all -/

/-- The client has submitted `count` tasks and none has been run. -/
structure Submitted (width count : Nat) (config : Config (Fin 2)) : Prop where
  mutex : config.shared.workQueue.mutex = none
  condVariable : config.shared.workQueue.condVariable = ∅
  completeMutex : config.shared.tasksCompleteMutex = none
  taskCount : config.shared.taskCount = count % 2 ^ width
  client : config.threads 1 = ⟨.client, .idle⟩
  completed : config.shared.completed = []
  returned : config.shared.returned.length = count

theorem exists_submitted (width count : Nat) : ∃ config,
    (program width [(0 : Fin 2)]).system.Reachable config ∧ Submitted width count config := by
  induction count with
  | zero => exact ⟨initial [0], .initial ⟨rfl, rfl⟩, rfl, rfl, rfl, rfl, rfl, rfl, rfl⟩
  | succ count ih =>
      obtain ⟨config, reach, mutex, condVariable, completeMutex, taskCount, client, completed,
        returned⟩ := ih
      have next : ∃ after, (program width [0]).execute (fun _ _ _ => True) (submission 1)
          config = some after ∧ Submitted width (count + 1) after := by
        simp [submission, Program.execute, Program.next, program, threadStep, client,
          LoopPc.mayCall, beginCall, callStep, submitStep, SimpleQueue.entry, SimpleQueue.callStep,
          SimpleQueue.pushStep, SimpleQueue.Queue.lock, mutex, condVariable,
          SimpleQueue.Queue.unlock]
        refine ⟨rfl, rfl, completeMutex, ?_, by simp, completed, by simp [returned]⟩
        simp [taskCount]
      obtain ⟨after, execution, submitted⟩ := next
      exact ⟨after, ((Program.run_of_execute execution).reachable reach.unrestricted).of_restrict,
        submitted⟩

/-- A `wait_all` returns while the worker that ran the task submitted before still owns it.  And
when `2 ^ 32` tasks have been submitted and none has run, the counter has come round to zero and
`wait_all` returns with all of them in the queue. -/
theorem task_outlives_waitAll :
    (∃ before start last after : Config (Fin 2), ∃ trace,
      (program 32 [0]).system.Reachable before ∧
      (program 32 [0]).system.Step before (1, .call .waitAll) start ∧
      (program 32 [0]).system.Run start trace last ∧ (last.threads 1).call = .waitUnlock ∧
      (program 32 [0]).system.Step last (1, .run) after ∧ (after.threads 1).call = .idle ∧
      0 ∈ before.shared.returned ∧ (after.threads 0).loop.owned = some 0) ∧
    ∃ before start last after : Config (Fin 2), ∃ trace,
      (program 32 [0]).system.Reachable before ∧
      (program 32 [0]).system.Step before (1, .call .waitAll) start ∧
      (program 32 [0]).system.Run start trace last ∧ (last.threads 1).call = .waitUnlock ∧
      (program 32 [0]).system.Step last (1, .run) after ∧ (after.threads 1).call = .idle ∧
      before.shared.returned ≠ [] ∧ after.shared.completed = [] := by
  constructor
  · let before : Config (Fin 2) := (program 32 [0]).finish (fun _ _ _ => True) (submission 1)
      (initial [0])
    let start := (program 32 [0]).finish (fun _ _ _ => True) [(1, .call .waitAll)] before
    let last := (program 32 [0]).finish (fun _ _ _ => True) (service 0 ++
      List.replicate 2 (1, .run)) start
    let after := (program 32 [0]).finish (fun _ _ _ => True) [(1, .run)] last
    have reach : ((program 32 [0]).system.restrict fun _ _ _ => True).Reachable before :=
      (Program.run_finish (by decide +kernel)).reachable initial_reachable
    have called : ((program 32 [0]).system.restrict fun _ _ _ => True).Step before
        (1, .call .waitAll) start := (Program.run_finish (by decide +kernel)).step_of_single
    have run : ((program 32 [0]).system.restrict fun _ _ _ => True).Run start _ last :=
      Program.run_finish (by decide +kernel)
    have returns : ((program 32 [0]).system.restrict fun _ _ _ => True).Step last (1, .run)
        after := (Program.run_finish (by decide +kernel)).step_of_single
    exact ⟨before, start, last, after, _, reach.of_restrict, called.1, run.of_restrict,
      by decide +kernel, returns.1, by decide +kernel, by decide +kernel, by decide +kernel⟩
  · obtain ⟨before, reach, submitted⟩ := exists_submitted 32 (2 ^ 32)
    have zero : before.shared.taskCount = 0 := submitted.taskCount.trans (Nat.mod_self _)
    have called : ∃ start, (program 32 [0]).next (1, .call .waitAll) before = some start ∧
        start.shared = before.shared ∧ start.threads 1 = ⟨.client, .waitLock⟩ := by
      simp [Program.next, program, threadStep, submitted.client, LoopPc.mayCall, beginCall]
    obtain ⟨start, begins, shared, position⟩ := called
    have tested : ∃ last, (program 32 [0]).execute (fun _ _ _ => True) [(1, .run), (1, .run)]
        start = some last ∧ last.shared.completed = [] ∧
          last.threads 1 = ⟨.client, .waitUnlock⟩ := by
      simp [Program.execute, Program.next, program, threadStep, callStep, submitStep, waitStep,
        Pool.lock, position, shared, submitted.completeMutex, zero, submitted.completed]
    obtain ⟨last, execution, completed, position⟩ := tested
    have returned : ∃ after, (program 32 [0]).next (1, .run) last = some after ∧
        (after.threads 1).call = .idle ∧ after.shared.completed = [] := by
      simp [Program.next, program, threadStep, callStep, submitStep, waitStep, Pool.unlock,
        position, completed]
    obtain ⟨after, ends, idle, completed⟩ := returned
    refine ⟨before, start, last, after, _, reach, begins,
      (Program.run_of_execute execution).of_restrict, by rw [position], ends, idle, ?_, completed⟩
    intro nothing
    have length := submitted.returned
    simp [nothing] at length

end ThreadPool
end ConcurrencyCourse
