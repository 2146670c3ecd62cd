import ConcurrencyCourse.ThreadPool.Joining

/-!
# A task that waits for all tasks

A running task is counted in `m_taskCount` until it has returned.  If it calls `wait_all` itself it
waits for its own end: the call never returns, nor does any other `wait_all` whose test is still
ahead, and a destructor that has to join the worker never gets further.
-/

namespace ConcurrencyCourse
namespace ThreadPool

variable {Tid : Type*} [DecidableEq Tid] {width : Nat} {workers : List Tid} {thread worker : Tid}
  {pool pool' : Pool Tid} {state state' : Local Tid} {action : Action Tid} {task : Task}
  {config : Config Tid}

/-- Fewer than `2 ^ width` tasks are outstanding. -/
def Fits (width : Nat) (_ : Config Tid) (_ : Tid × Action Tid) (after : Config Tid) : Prop :=
  after.shared.added.length < after.shared.counted.length + 2 ^ width

instance (before after : Config Tid) (label : Tid × Action Tid) :
    Decidable (Fits width before label after) :=
  inferInstanceAs (Decidable (_ < _))

theorem StepCase.keeps_waiting (step : StepCase width thread pool action state pool' state')
    (positive : 0 < pool.taskCount) (waits : state.call.waits = true) :
    state'.loop = state.loop ∧ state'.call.waits = true := by
  cases step with
  | submit | waitAll | destroy | loop => simp [CallPc.waits] at waits
  | call _ taken =>
      refine ⟨rfl, ?_⟩
      cases taken with
      | lock | testMore | block | wake | relock => rfl
      | testZero zero => omega
      | _ => simp [CallPc.waits] at waits

/-- While the count is positive, no test of `wait_all` succeeds. -/
theorem StepCase.waitUnlock_of_positive
    (step : StepCase width thread pool action state pool' state') (positive : 0 < pool.taskCount) :
    state'.call ≠ .waitUnlock := by
  cases step with
  | submit | waitAll | destroy | loop => nofun
  | call _ taken =>
      cases taken with
      | testZero zero => omega
      | _ => nofun

variable [Fintype Tid]

/-- The count is the number of outstanding tasks, also while the pool is being destroyed. -/
theorem counter_of_fits
    (reach : ((program width workers).system.restrict (Fits width)).Reachable config) :
    config.shared.taskCount + config.shared.counted.length = config.shared.added.length := by
  have counter := counter_mod_of_reachable reach.of_restrict
  have counted := (counted_subperm reach.of_restrict).length_le
  cases reach with
  | initial new =>
      obtain ⟨pool, threads⟩ := config
      obtain ⟨rfl, rfl⟩ := new
      rfl
  | step _ last =>
      have bound : config.shared.added.length < config.shared.counted.length + 2 ^ width := last.2
      rw [Nat.mod_eq_of_lt (by omega)] at counter
      omega

theorem taskCount_pos_of_held
    (reach : ((program width workers).system.restrict (Fits width)).Reachable config)
    (held : (config.threads worker).loop.held = some task) : 0 < config.shared.taskCount := by
  have counter := counter_of_fits reach
  have more := counted_lt_added reach.of_restrict held
  omega

/-- When a running task has called `wait_all`, the task never returns, no other `wait_all` gets past
its test, and no destructor gets past the join of the worker.  The members that the destructor
destroys before the join still take part as before. -/
theorem blocked_of_waitAll_in_task {start last : Config Tid} {trace : List (Tid × Action Tid)}
    (reach : ((program width workers).system.restrict (Fits width)).Reachable start)
    (runs : (start.threads worker).loop = .running task)
    (waits : (start.threads worker).call.waits = true)
    (run : ((program width workers).system.restrict (Fits width)).Run start trace last) :
    ((last.threads worker).loop = .running task ∧ (last.threads worker).call.waits = true) ∧
      (∀ other, (last.threads other).call = .waitUnlock →
        (start.threads other).call = .waitUnlock) ∧
      (worker ∈ workers → .threads ∉ last.shared.destroyed) := by
  have kept := run.preserves (motive := fun config =>
    ((config.threads worker).loop = .running task ∧ (config.threads worker).call.waits = true) ∧
      ∀ other, (config.threads other).call = .waitUnlock →
        (start.threads other).call = .waitUnlock) reach ⟨⟨runs, waits⟩, fun _ => id⟩ ?_
  · refine ⟨kept.1, kept.2, fun member joined => ?_⟩
    have joins := joined_of_reachable (run.reachable reach).of_restrict
    have exited := joins.finished worker (joins.joined joined worker member)
    simp [kept.1.1] at exited
  · rintro before ⟨mover, action⟩ after reached ⟨⟨running, waiting⟩, quiet⟩ step
    have positive := taskCount_pos_of_held reached (by rw [running]; rfl)
    obtain ⟨pool', state', change, rfl⟩ := exists_stepCase reached.of_restrict step.1
    refine ⟨?_, fun other position => ?_⟩
    · by_cases own : worker = mover
      · subst own
        obtain ⟨loop, call⟩ := change.keeps_waiting positive waiting
        simpa [loop, call] using running
      · simpa [own] using ⟨running, waiting⟩
    · by_cases own : other = mover
      · subst own
        exact absurd (by simpa using position) (change.waitUnlock_of_positive positive)
      · exact quiet other (by simpa [own] using position)

/-- The task waits for itself, and the client that destroys the pool waits for its worker. -/
theorem blocked_of_waitAll_in_task_destroyed : ∃ last : Config (Fin 2),
    (last.threads 0).loop = .running 0 ∧ (last.threads 0).call = .waiting ∧
      (last.threads 1).call = .joining [0] [.workQueue, .done] ∧
      .threads ∉ last.shared.destroyed := by
  let before : Config (Fin 2) := (program 32 [0]).finish (Fits 32)
    (submission 1 ++ (0, .run) :: List.replicate 5 (0, .queue .run) ++ [(0, .run)]) (initial [0])
  let start := (program 32 [0]).finish (Fits 32) [(0, .call .waitAll)] before
  let last := (program 32 [0]).finish (Fits 32)
    (List.replicate 3 (0, .run) ++ (1, .call .destroy) :: List.replicate 5 (1, .run)) start
  have reach : ((program 32 [0]).system.restrict (Fits 32)).Reachable before :=
    (Program.run_finish (by decide +kernel)).reachable initial_reachable
  have reach' : ((program 32 [0]).system.restrict (Fits 32)).Reachable start :=
    (Program.run_finish (by decide +kernel)).reachable reach
  have run : ((program 32 [0]).system.restrict (Fits 32)).Run start _ last :=
    Program.run_finish (by decide +kernel)
  have running : (start.threads 0).loop = .running 0 := by decide +kernel
  obtain ⟨⟨runs, -⟩, -, joined⟩ :=
    blocked_of_waitAll_in_task reach' running (by decide +kernel) run
  exact ⟨last, runs, by decide +kernel, by decide +kernel, joined (by decide)⟩

end ThreadPool
end ConcurrencyCourse
