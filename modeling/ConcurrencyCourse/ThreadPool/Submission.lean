import ConcurrencyCourse.ThreadPool.Barrier
import Mathlib.Data.Nat.ModEq

/-!
# Submits that fail

`submit` adds to `m_taskCount` before it builds the task and pushes it.  An exception in between
leaves the queue as it was, but nothing takes the count back, so `m_taskCount` stays ahead of the
tasks that exist by the number of failed submits.
-/

namespace ConcurrencyCourse
namespace ThreadPool

open Program (sumThreads countThreads)

variable {Tid : Type*}

/-- A call of `submit` that has not ended. -/
def CallPc.inSubmit : CallPc Tid → Bool
  | .submitAdd _ | .submitConvert _ | .submitPush _ _ => true
  | _ => false

/-- A submit whose task is counted, and is not in the queue, or has not yet been reported lost. -/
def CallPc.unqueued : CallPc Tid → Bool
  | .submitConvert _ | .submitPush _ (.pushLock _) | .submitPush _ (.pushEmplace _)
  | .submitPush _ .unwind | .submitPush _ (.returning .threw) => true
  | _ => false

/-- The step by which a submit exits with an exception. -/
def submitFails : Action Tid → CallPc Tid → Bool
  | .throw, .submitConvert _ => true
  | .run, .submitPush _ (.returning .threw) => true
  | _, _ => false

/-- A submit exits with an exception. -/
def SubmitFails (before : Config Tid) (label : Tid × Action Tid) (_ : Config Tid) : Prop :=
  submitFails label.2 (before.threads label.1).call = true

instance (before after : Config Tid) (label : Tid × Action Tid) :
    Decidable (SubmitFails before label after) :=
  inferInstanceAs (Decidable (_ = _))

/-- Only `thread` moves, inside a submit. -/
def SubmitAlone (thread : Tid) (before : Config Tid) (label : Tid × Action Tid)
    (_ : Config Tid) : Prop :=
  label.1 = thread ∧ (before.threads thread).call.inSubmit = true

instance [DecidableEq Tid] (thread : Tid) (before after : Config Tid)
    (label : Tid × Action Tid) : Decidable (SubmitAlone thread before label after) :=
  inferInstanceAs (Decidable (_ ∧ _))

/-- Number of tasks in the queue. -/
def Pool.queued (pool : Pool Tid) : Nat := pool.workQueue.contents.length

/-- Number of tasks that workers have taken and not yet counted down. -/
def taken [Fintype Tid] (config : Config Tid) : Nat :=
  countThreads (fun state => state.loop.held.isSome) config.threads

/-- What a thread contributes to the count outside the queue. -/
def Local.claims (state : Local Tid) : Nat :=
  state.loop.held.isSome.toNat + state.call.unqueued.toNat

variable [DecidableEq Tid] {width : Nat} {workers : List Tid} {thread : Tid}
  {pool pool' : Pool Tid} {state state' : Local Tid} {action : Action Tid}

/-- Every task added is counted down, queued, claimed or lost by a submit that failed. -/
structure Balanced (pool : Pool Tid) (state : Local Tid) (pool' : Pool Tid) (state' : Local Tid)
    (failures : Nat) : Prop where
  eq : pool'.counted.length + pool'.queued + state'.claims + failures + pool.added.length =
    pool.counted.length + pool.queued + state.claims + pool'.added.length

omit [DecidableEq Tid] in
theorem Balanced.of_same {failures : Nat} (added : pool'.added = pool.added)
    (counted : pool'.counted = pool.counted)
    (balance : pool'.queued + state'.claims + failures = pool.queued + state.claims) :
    Balanced pool state pool' state' failures := by
  refine ⟨?_⟩
  rw [added, counted]
  omega

theorem LoopCase.balanced {loop loop' : LoopPc}
    (step : LoopCase width thread pool action loop pool' loop') :
    Balanced pool ⟨loop, .idle⟩ pool' ⟨loop', .idle⟩ 0 := by
  cases step with
  | tryPop taken within =>
      cases taken with
      | move front =>
          refine .of_same rfl rfl ?_
          simp [Pool.queued, SimpleQueue.Queue.contents, front, Local.claims, LoopPc.held,
            Nat.add_assoc]
      | popFront value emptied =>
          refine .of_same rfl rfl ?_
          simp [Pool.queued, SimpleQueue.Queue.contents, emptied, Local.claims, LoopPc.held]
      | lock | empty | nonempty | unlock => exact .of_same rfl rfl rfl
  | last task _ | more task _ =>
      refine ⟨?_⟩
      simp only [Pool.queued, Local.claims, LoopPc.held, CallPc.unqueued, List.length_append,
        List.length_singleton, Option.isSome_some, Option.isSome_none, Bool.toNat_true,
        Bool.toNat_false]
      omega
  | exit | enter | took | nothing | ran | lock | notifyAll | unlock | yield | drop =>
      exact .of_same rfl rfl rfl

theorem CallCase.balanced {loop : LoopPc} {call call' : CallPc Tid}
    (step : CallCase width thread pool action call pool' call') :
    Balanced pool ⟨loop, call⟩ pool' ⟨loop, call'⟩ (submitFails action call).toNat := by
  cases step with
  | add task =>
      refine ⟨?_⟩
      simp only [Pool.queued, Local.claims, CallPc.unqueued, submitFails, List.length_append,
        List.length_singleton, Bool.toNat_true, Bool.toNat_false]
      omega
  | push task taken within =>
      cases taken with
      | emplace value =>
          refine .of_same rfl rfl ?_
          simp [Pool.queued, SimpleQueue.Queue.contents, Local.claims, CallPc.unqueued,
            List.reduceOption_append, submitFails]
          omega
      | lock | throwEmplace | notifyNobody | notify | unlock | unwind =>
          exact .of_same rfl rfl rfl
  | throwConvert | threw => exact .of_same rfl rfl rfl
  | convert | submitted | lock | testZero | testMore | block | wake | relock | unlock
  | setDone | destroyed | joinAll | destroy | joined | join => exact .of_same rfl rfl rfl

theorem StepCase.balanced (step : StepCase width thread pool action state pool' state') :
    Balanced pool state pool' state' (submitFails action state.call).toNat := by
  cases step with
  | submit | waitAll | destroy => exact .of_same rfl rfl rfl
  | loop taken =>
      have none : submitFails action (.idle : CallPc Tid) = false := by cases action <;> rfl
      rw [none]
      exact taken.balanced
  | call _ taken => exact taken.balanced

/-! ## The count over a run -/

section Count

variable [Fintype Tid] {start last : Config Tid} {failures : Nat}

theorem claims_initial {start : Config Tid} (new : (program width workers).system.Initial start) :
    sumThreads Local.claims start.threads = 0 := by
  obtain ⟨pool, threads⟩ := start
  obtain ⟨-, rfl⟩ := new
  refine Program.sumThreads_eq_zero fun thread => ?_
  by_cases worker : thread ∈ workers
  · simp [initial, worker, Local.claims, LoopPc.held, CallPc.unqueued]
  · simp [initial, worker, Local.claims, LoopPc.held, CallPc.unqueued]

/-- The tasks added in a run are counted down, queued, claimed or lost by failed submits. -/
theorem balance_of_run (new : (program width workers).system.Initial start)
    (run : (program width workers).system.CountedRun SubmitFails start failures last) :
    last.shared.added.length = last.shared.counted.length + last.shared.queued +
      sumThreads Local.claims last.threads + failures := by
  have kept {failures : Nat} {before after : Config Tid} {label : Tid × Action Tid}
      (reach : (program width workers).system.Reachable before)
      (balance : before.shared.added.length = before.shared.counted.length +
        before.shared.queued + sumThreads Local.claims before.threads + failures)
      (step : (program width workers).system.Step before label after) :
      after.shared.added.length = after.shared.counted.length + after.shared.queued +
        sumThreads Local.claims after.threads +
        (failures + (submitFails label.2 (before.threads label.1).call).toNat) := by
    obtain ⟨thread, action⟩ := label
    obtain ⟨pool', state', change, rfl⟩ := exists_stepCase reach step
    have claims := Program.sumThreads_update Local.claims before.threads thread state'
    have balanced := change.balanced.eq
    dsimp only
    omega
  refine run.preserves (motive := fun failures config => config.shared.added.length =
    config.shared.counted.length + config.shared.queued +
      sumThreads Local.claims config.threads + failures) (.initial new) ?_ ?_ ?_
  · rw [claims_initial new]
    obtain ⟨pool, threads⟩ := start
    obtain ⟨rfl, -⟩ := new
    rfl
  · intro failures before label next reach balance step succeeds
    have next := kept reach balance step
    rwa [Bool.eq_false_of_not_eq_true succeeds] at next
  · intro failures before label next reach balance step fails
    have next := kept reach balance step
    rwa [show submitFails label.2 (before.threads label.1).call = true from fails] at next

/-- The counter is the number of tasks queued, claimed or lost by failed submits. -/
theorem taskCount_of_run (new : (program width workers).system.Initial start)
    (run : (program width workers).system.CountedRun SubmitFails start failures last) :
    last.shared.taskCount =
      (last.shared.queued + sumThreads Local.claims last.threads + failures) % 2 ^ width := by
  have balance := balance_of_run new run
  rw [counter_mod_of_reachable (run.reachable (.initial new))]
  congr 1
  omega

omit [DecidableEq Tid] in
theorem claims_eq_taken (quiet : ∀ thread, (last.threads thread).call.inSubmit = false) :
    sumThreads Local.claims last.threads = taken last := by
  rw [taken, Program.countThreads_eq_sumThreads]
  refine Finset.sum_congr rfl fun thread _ => ?_
  have outside := quiet thread
  unfold Local.claims
  cases position : (last.threads thread).call with
  | submitAdd | submitConvert | submitPush => simp [position, CallPc.inSubmit] at outside
  | _ => rfl

theorem add_mod_eq_iff {modulus exact surplus : Nat} (positive : 0 < modulus) :
    (exact + surplus) % modulus = exact ↔ exact < modulus ∧ modulus ∣ surplus := by
  constructor
  · intro same
    have small : exact < modulus := same ▸ Nat.mod_lt _ positive
    refine ⟨small, (Nat.modEq_zero_iff_dvd).mp (Nat.ModEq.add_left_cancel' exact ?_)⟩
    rw [Nat.ModEq, same, Nat.add_zero, Nat.mod_eq_of_lt small]
  · rintro ⟨small, multiple, rfl⟩
    rw [Nat.add_mul_mod_self_left, Nat.mod_eq_of_lt small]

end Count

/-! ## One failing submit -/

/-- What a submit that began in `before` has done, unless its task is in the queue. -/
def SubmitEffect (width : Nat) (before : Pool Tid) (thread : Tid) (pool : Pool Tid) :
    CallPc Tid → Prop
  | .submitAdd _ => pool.workQueue = before.workQueue ∧ pool.taskCount = before.taskCount
  | .submitConvert _ | .submitPush _ (.pushLock _) | .submitPush _ (.returning .threw) =>
      pool.workQueue = before.workQueue ∧ pool.taskCount = (before.taskCount + 1) % 2 ^ width
  | .submitPush _ (.pushEmplace _) | .submitPush _ .unwind =>
      before.workQueue.mutex = none ∧
        pool.workQueue = { before.workQueue with mutex := some thread } ∧
        pool.taskCount = (before.taskCount + 1) % 2 ^ width
  | _ => True

theorem CallCase.submitEffect {before : Pool Tid} {call call' : CallPc Tid}
    (step : CallCase width thread pool action call pool' call') (inside : call.inSubmit = true)
    (effect : SubmitEffect width before thread pool call) :
    SubmitEffect width before thread pool' call' := by
  cases step with
  | add task => exact ⟨effect.1, by rw [effect.2]⟩
  | convert task => exact effect
  | push task taken within =>
      cases taken with
      | lock value free =>
          obtain ⟨same, count⟩ := effect
          refine ⟨?_, ?_, count⟩
          · rw [← same, free]
          · rw [same]
      | throwEmplace value => exact effect
      | unwind =>
          obtain ⟨free, same, count⟩ := effect
          refine ⟨?_, count⟩
          rw [SimpleQueue.Queue.unlock, same, ← free]
      | emplace | notifyNobody | notify | unlock => trivial
  | throwConvert | submitted | threw => trivial
  | _ => simp [CallPc.inSubmit] at inside

theorem StepCase.callCase (step : StepCase width thread pool action state pool' state')
    (inside : state.call.inSubmit = true) :
    CallCase width thread pool action state.call pool' state'.call := by
  cases step with
  | submit | waitAll | destroy | loop => simp [CallPc.inSubmit] at inside
  | call _ taken => exact taken

theorem CallCase.eq_of_fails {call call' : CallPc Tid}
    (step : CallCase width thread pool action call pool' call')
    (fails : submitFails action call = true) {before : Pool Tid}
    (effect : SubmitEffect width before thread pool call) :
    pool'.workQueue = before.workQueue ∧
      pool'.taskCount = (before.taskCount + 1) % 2 ^ width := by
  cases step with
  | throwConvert | threw => exact effect
  | push task taken within => cases taken <;> simp [submitFails] at fails
  | _ => simp [submitFails] at fails

omit [DecidableEq Tid] in
theorem inSubmit_of_fails {call : CallPc Tid} (fails : submitFails action call = true) :
    call.inSubmit = true := by
  unfold submitFails at fails
  split at fails
  · rfl
  · rfl
  · simp at fails

/-- A submit that ends with an exception has left the queue as it was, and one more task counted. -/
theorem count_of_failing_submit {before start last after : Config Tid}
    {trace : List (Tid × Action Tid)}
    (reach : (program width workers).system.Reachable before)
    (begins : (program width workers).system.Step before (thread, .call .submit) start)
    (run : ((program width workers).system.restrict (SubmitAlone thread)).Run start trace last)
    (fails : SubmitFails last (thread, action) after)
    (exits : (program width workers).system.Step last (thread, action) after) :
    after.shared.workQueue = before.shared.workQueue ∧
      after.shared.taskCount = (before.shared.taskCount + 1) % 2 ^ width := by
  have kept := run.preserves_of_restrict (motive := fun config =>
    SubmitEffect width before.shared thread config.shared (config.threads thread).call)
    (reach.step begins) ?_ ?_
  · obtain ⟨reachLast, effect⟩ := kept
    obtain ⟨pool', state', change, rfl⟩ := exists_stepCase reachLast exits
    exact (change.callCase (inSubmit_of_fails fails)).eq_of_fails fails effect
  · obtain ⟨pool', state', change, rfl⟩ := exists_stepCase reach begins
    generalize before.threads thread = state at change
    cases change with
    | submit => simp [SubmitEffect]
    | loop taken => cases taken
    | call _ taken => cases taken
  · rintro earlier ⟨mover, action⟩ next reached effect step ⟨rfl, inside⟩
    obtain ⟨pool', state', change, rfl⟩ := exists_stepCase reached step
    simpa using (change.callCase inside).submitEffect inside effect

section Failures

variable [Fintype Tid]

/-- A submit that ends with an exception leaves `m_taskCount` one too high.  So after a run with
the given number of failing submits, and outside every submit, the counter is the number of tasks
queued or taken exactly when that many tasks fit the counter and the failures have wrapped around
it; in particular, when no task is left, `wait_all` is held up unless they have. -/
theorem taskCount_eq_iff_not_failed :
    (∀ {before start last after : Config Tid} {trace} {thread : Tid} {action : Action Tid},
      (program width workers).system.Reachable before →
      (program width workers).system.Step before (thread, .call .submit) start →
      ((program width workers).system.restrict (SubmitAlone thread)).Run start trace last →
      SubmitFails last (thread, action) after →
      (program width workers).system.Step last (thread, action) after →
      after.shared.workQueue = before.shared.workQueue ∧
        after.shared.taskCount = (before.shared.taskCount + 1) % 2 ^ width) ∧
    ∀ {start last : Config Tid} {failures : Nat}, (program width workers).system.Initial start →
      (program width workers).system.CountedRun SubmitFails start failures last →
      (∀ thread, (last.threads thread).call.inSubmit = false) →
      (last.shared.taskCount = last.shared.queued + taken last ↔
        last.shared.queued + taken last < 2 ^ width ∧ 2 ^ width ∣ failures) ∧
      (last.shared.queued + taken last = 0 →
        (last.shared.taskCount = 0 ↔ 2 ^ width ∣ failures)) := by
  constructor
  · intro before start last after trace thread action reach begins run fails exits
    exact count_of_failing_submit reach begins run fails exits
  · intro start last failures new run quiet
    have count := taskCount_of_run new run
    rw [claims_eq_taken quiet] at count
    have exact : (last.shared.queued + taken last + failures) % 2 ^ width =
        last.shared.queued + taken last ↔
          last.shared.queued + taken last < 2 ^ width ∧ 2 ^ width ∣ failures :=
      add_mod_eq_iff (Nat.two_pow_pos width)
    rw [count]
    refine ⟨exact, fun nothing => ?_⟩
    rw [nothing] at exact ⊢
    exact exact.trans (and_iff_right (Nat.two_pow_pos width))

end Failures

/-- A run whose only submit throws while it builds its task, and a run whose only submit succeeds;
the pool has no worker. -/
theorem taskCount_eq_iff_not_failed_apart : ∃ after last : Config (Fin 1),
    (after.shared.workQueue = .empty ∧ after.shared.taskCount = 1) ∧
      last.shared.taskCount = last.shared.queued + taken last := by
  let start := (program 32 []).finish (fun _ _ _ => True) [(0, .call .submit)]
    (initial ([] : List (Fin 1)))
  let last := (program 32 []).finish (SubmitAlone 0) [(0, .run)] start
  let after := (program 32 []).finish (fun _ _ _ => True) [(0, .throw)] last
  let succeeds (before : Config (Fin 1)) (label : Fin 1 × Action (Fin 1))
      (after : Config (Fin 1)) := True ∧ ¬ SubmitFails before label after
  let final := (program 32 []).finish succeeds (submission 0) (initial ([] : List (Fin 1)))
  have begins : ((program 32 []).system.restrict fun _ _ _ => True).Step (initial [])
      (0, .call .submit) start := (Program.run_finish (by decide)).step_of_single
  have alone : ((program 32 []).system.restrict (SubmitAlone (0 : Fin 1))).Run start _ last :=
    Program.run_finish (by decide)
  have exits : ((program 32 []).system.restrict fun _ _ _ => True).Step last (0, .throw) after :=
    (Program.run_finish (by decide)).step_of_single
  have whole : ((program 32 []).system.restrict succeeds).Run (initial ([] : List (Fin 1)))
      (submission 0) final := Program.run_finish (by decide)
  have fails : SubmitFails last (0, .throw) after := by decide
  refine ⟨after, final, ?_, ?_⟩
  · exact taskCount_eq_iff_not_failed.1 (.initial ⟨rfl, rfl⟩) begins.1 alone fails exits.1
  · exact ((taskCount_eq_iff_not_failed.2 ⟨rfl, rfl⟩
      (TransitionSystem.CountedRun.zero_of_run whole).of_restrict (by decide)).1).mpr
      ⟨by decide, Nat.dvd_zero _⟩

/-- After a failed submit a client sleeps in `wait_all` though there is no task. -/
theorem waiter_without_tasks : ∃ config : Config (Fin 2),
    (program 32 [(0 : Fin 2)]).system.Reachable config ∧
      (∀ thread, (config.threads thread).call.inSubmit = false) ∧
      config.shared.taskCount ≠ config.shared.queued + taken config ∧
      config.shared.queued + taken config = 0 ∧
      (config.threads 1).call = .waiting ∧ 1 ∈ config.shared.tasksComplete := by
  have waits : ∃ config, ((program 32 [(0 : Fin 2)]).system.restrict fun _ _ _ => True).Run
      (initial [0]) [(1, .call .submit), (1, .run), (1, .throw), (1, .call .waitAll), (1, .run),
        (1, .run), (1, .run)] config ∧
      (∀ thread, (config.threads thread).call.inSubmit = false) ∧
      config.shared.taskCount ≠ config.shared.queued + taken config ∧
      config.shared.queued + taken config = 0 ∧
      (config.threads 1).call = .waiting ∧ 1 ∈ config.shared.tasksComplete :=
    Program.exists_run_of_execute (by decide)
  obtain ⟨config, run, facts⟩ := waits
  exact ⟨config, (run.reachable initial_reachable).of_restrict, facts⟩

end ThreadPool
end ConcurrencyCourse
