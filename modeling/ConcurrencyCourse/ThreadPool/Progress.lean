import ConcurrencyCourse.ThreadPool.Measure
import ConcurrencyCourse.ThreadPool.Submission
import ConcurrencyCourse.ThreadPool.Completion

/-!
# A live pool can finish its work

With at least one worker and no submit that throws, the pool can be brought to rest from any state
without a new call: whoever holds a mutex lets go of it, the submits end, the workers run what is in
the queue, and then the waiters find the counter at zero.  Without a worker, which is what
`hardware_concurrency() == 0` gives, an accepted task stays in the queue for ever.
-/

namespace ConcurrencyCourse
namespace ThreadPool

open Program (sumThreads le_sumThreads)

variable {Tid : Type*}

/-- The constructor: `hardware_concurrency()` threads are started one by one; `none` when one cannot
be started, where it throws. -/
def construct (threadCount : Nat) (start : Nat → Option Tid) : Option (List Tid) :=
  (List.range threadCount).mapM start

/-- The begin of a call. -/
def Action.begins : Action Tid → Bool
  | .call _ => true
  | _ => false

/-- The destructor has not started, nothing is thrown inside a submit, and no task calls the
pool. -/
def Undisturbed (workers : List Tid) (_ : Config Tid) (label : Tid × Action Tid)
    (_ : Config Tid) : Prop :=
  label.2 ≠ .call .destroy ∧ label.2 ≠ .throw ∧ label.2 ≠ .queue .throw ∧
    (label.1 ∈ workers → label.2.begins = false)

/-- A step of a worker or of a call in progress, with no new call. -/
def Proceeds (_ : Config Tid) (label : Tid × Action Tid) (_ : Config Tid) : Prop :=
  label.2.proceeds = true

instance [DecidableEq Tid] (workers : List Tid) (before after : Config Tid)
    (label : Tid × Action Tid) : Decidable (Undisturbed workers before label after) :=
  inferInstanceAs (Decidable (_ ∧ _))

instance (before after : Config Tid) (label : Tid × Action Tid) :
    Decidable (Proceeds before label after) :=
  inferInstanceAs (Decidable (_ = _))

theorem Proceeds.undisturbed {workers : List Tid} {before after : Config Tid}
    {label : Tid × Action Tid} (proceeds : Proceeds before label after) :
    Undisturbed workers before label after := by
  obtain ⟨thread, action⟩ := label
  unfold Proceeds at proceeds
  refine ⟨?_, ?_, ?_, fun _ => ?_⟩
  · rintro rfl
    simp [Action.proceeds] at proceeds
  · rintro rfl
    simp [Action.proceeds] at proceeds
  · rintro rfl
    simp [Action.proceeds] at proceeds
  · cases action with
    | call => simp [Action.proceeds] at proceeds
    | _ => rfl

/-- Positions of a call of `wait_all`. -/
def CallPc.inWait : CallPc Tid → Bool
  | .waitLock | .waitTest | .waitBlock | .waiting | .waitUnlock => true
  | _ => false

/-- The counter is zero, every accepted task has run, and no thread is inside `wait_all`. -/
structure Finished (config : Config Tid) : Prop where
  taskCount : config.shared.taskCount = 0
  completed : ∀ task ∈ config.shared.returned, task ∈ config.shared.completed.map Prod.snd
  waiters : ∀ thread, (config.threads thread).call.inWait = false

/-! ## Undisturbed runs -/

/-- Where a thread can stand in an undisturbed run. -/
structure Orderly (workers : List Tid) (thread : Tid) (state : Local Tid) : Prop where
  worker : thread ∈ workers → state.loop ≠ .client ∧ state.call = .idle
  alive : state.loop ≠ .exited
  expected : state.call.expected = true

variable [DecidableEq Tid] {width : Nat} {workers : List Tid} {thread : Tid}
  {pool pool' : Pool Tid} {state state' : Local Tid} {action : Action Tid} {config : Config Tid}

theorem StepCase.orderly {before after : Config Tid}
    (step : StepCase width thread pool action state pool' state')
    (undisturbed : Undisturbed workers before (thread, action) after)
    (running : pool.done = false) (orderly : Orderly workers thread state) :
    pool'.done = false ∧ Orderly workers thread state' := by
  obtain ⟨noDestroy, noThrow, noQueueThrow, noCall⟩ := undisturbed
  obtain ⟨worker, alive, expected⟩ := orderly
  cases step with
  | submit | waitAll =>
      exact ⟨running, fun member => absurd (noCall member) nofun, alive, rfl⟩
  | destroy => exact absurd rfl noDestroy
  | loop taken =>
      cases taken with
      | exit done => simp [running] at done
      | enter | tryPop | took | nothing | ran | last | more | lock | notifyAll | unlock | yield
      | drop => exact ⟨running, fun _ => ⟨nofun, rfl⟩, nofun, rfl⟩
  | call _ taken =>
      have outside : thread ∉ workers := by
        intro member
        obtain rfl := (worker member).2
        cases taken
      refine ⟨?_, fun member => absurd member outside, alive, ?_⟩
      · cases taken <;> first | exact running | simp [CallPc.expected] at expected
      · cases taken with
        | push task taken within =>
            cases taken with
            | throwEmplace => exact absurd rfl noQueueThrow
            | unwind => simp [CallPc.expected] at expected
            | lock | emplace | notifyNobody | notify | unlock => rfl
        | setDone | destroyed | joinAll | destroy | joined | join | threw =>
            simp [CallPc.expected] at expected
        | add | convert | throwConvert | submitted | lock | testZero | testMore | block | wake
        | relock | unlock => rfl

theorem orderly_of_reachable
    (reach : ((program width workers).system.restrict (Undisturbed workers)).Reachable config) :
    config.shared.done = false ∧ ∀ thread, Orderly workers thread (config.threads thread) := by
  refine reach.invariant (motive := fun config => config.shared.done = false ∧
    ∀ thread, Orderly workers thread (config.threads thread)) ?_ ?_
  · rintro ⟨pool, threads⟩ ⟨rfl, rfl⟩
    refine ⟨rfl, fun thread => ?_⟩
    by_cases worker : thread ∈ workers
    · simp only [initial, if_pos worker]
      exact ⟨fun _ => ⟨by simp, rfl⟩, by simp, rfl⟩
    · simp only [initial, if_neg worker]
      exact ⟨fun member => absurd member worker, by simp, rfl⟩
  · rintro before ⟨thread, action⟩ after earlier ⟨running, orderly⟩ step
    obtain ⟨pool', state', change, rfl⟩ := exists_stepCase earlier.of_restrict step.1
    obtain ⟨running', mine⟩ := change.orderly step.2 running (orderly thread)
    refine ⟨running', fun other => ?_⟩
    by_cases same : other = thread
    · subst same
      simpa using mine
    · simpa [same] using orderly other

variable [Fintype Tid]

/-- No submit of an undisturbed run fails, so a task that is not counted down is in the queue or on
its way. -/
theorem balance_of_undisturbed
    (reach : ((program width workers).system.restrict (Undisturbed workers)).Reachable config) :
    config.shared.added.length = config.shared.counted.length + config.shared.queued +
      sumThreads Local.claims config.threads := by
  have succeeds : ((program width workers).system.restrict fun before label after =>
      Undisturbed workers before label after ∧ ¬ SubmitFails before label after).Reachable
      config := reach.mono ?_
  · obtain ⟨start, trace, new, run⟩ := succeeds.exists_run
    exact balance_of_run new (TransitionSystem.CountedRun.zero_of_run run).of_restrict
  · rintro before ⟨thread, action⟩ after earlier - undisturbed
    refine ⟨undisturbed, fun fails => ?_⟩
    have expected := ((orderly_of_reachable earlier).2 thread).expected
    unfold SubmitFails submitFails at fails
    split at fails
    · exact undisturbed.2.1 ‹_›
    · rename_i position
      simp [position, CallPc.expected] at expected
    · simp at fails

/-! ## The workers come to rest -/

/-- The three ranks of the pool. -/
def ranks (config : Config Tid) : Nat × Nat × Nat :=
  (sumThreads (fun state => state.call.submitRank) config.threads,
    config.shared.stored + sumThreads (fun state => state.loop.taskRank) config.threads,
    sumThreads (Local.restRank config.shared.drained) config.threads)

/-- The first rank that changes goes down. -/
def RanksLt : Nat × Nat × Nat → Nat × Nat × Nat → Prop :=
  Prod.Lex (· < ·) (Prod.Lex (· < ·) (· < ·))

theorem ranksLt_wellFounded : WellFounded RanksLt :=
  WellFounded.prod_lex wellFounded_lt (WellFounded.prod_lex wellFounded_lt wellFounded_lt)

theorem Lowers.ranksLt (lowers : Lowers config.shared (config.threads thread) pool' state') :
    RanksLt (ranks ⟨pool', Function.update config.threads thread state'⟩) (ranks config) := by
  have submits := Program.sumThreads_update (fun state : Local Tid => state.call.submitRank)
    config.threads thread state'
  have tasks := Program.sumThreads_update (fun state : Local Tid => state.loop.taskRank)
    config.threads thread state'
  simp only [RanksLt, ranks, Prod.lex_def]
  cases lowers with
  | submit less => exact Or.inl (by omega)
  | task submit less => exact Or.inr ⟨by omega, Or.inl (by omega)⟩
  | rest submit drained task less =>
      have rest := Program.sumThreads_update (Local.restRank config.shared.drained)
        config.threads thread state'
      rw [drained]
      exact Or.inr ⟨by omega, Or.inr ⟨by omega, by omega⟩⟩

theorem exists_lowering
    (reach : ((program width workers).system.restrict (Undisturbed workers)).Reachable config)
    (ready : Ready thread config.shared (config.threads thread)) :
    ∃ label after, ((program width workers).system.restrict Proceeds).Step config label after ∧
      ((program width workers).system.restrict (Undisturbed workers)).Reachable after ∧
      RanksLt (ranks after) (ranks config) := by
  obtain ⟨running, orderly⟩ := orderly_of_reachable reach
  obtain ⟨-, asserted⟩ := assertion_of_reachable reach.of_restrict
  obtain ⟨action, proceeds, enabled⟩ := (asserted thread).enabled width
    (orderly thread).alive (orderly thread).expected ready
  obtain ⟨⟨pool', state'⟩, taken⟩ := Option.isSome_iff_exists.mp enabled
  have change := (asserted thread).threadStep_cases taken
  have step : (program width workers).system.Step config (thread, action)
      ⟨pool', Function.update config.threads thread state'⟩ :=
    Program.system_step_iff.mpr ⟨pool', state', taken, rfl⟩
  have proceeds' : Proceeds config (thread, action)
      ⟨pool', Function.update config.threads thread state'⟩ := proceeds
  refine ⟨_, _, ⟨step, proceeds'⟩, reach.step ⟨step, proceeds'.undisturbed⟩, ?_⟩
  exact (change.lowers proceeds running (orderly thread).expected ready.useful).ranksLt

/-- No submit is in progress, no task is in the queue, and no worker has one. -/
structure AtRest (config : Config Tid) : Prop where
  submits : ∀ thread, (config.threads thread).call.submitRank = 0
  tasks : ∀ thread, (config.threads thread).loop.taskRank = 0
  drained : config.shared.drained = true

/-- Until the pool is at rest some thread is ready: whoever holds a mutex, else a submit, else a
worker that has a task or finds one in the queue. -/
theorem atRest_or_ready (hired : workers ≠ [])
    (reach : ((program width workers).system.restrict (Undisturbed workers)).Reachable config) :
    AtRest config ∨ ∃ thread, Ready thread config.shared (config.threads thread) := by
  obtain ⟨-, orderly⟩ := orderly_of_reachable reach
  obtain ⟨-, asserted⟩ := assertion_of_reachable reach.of_restrict
  have roles := roles_of_reachable reach.of_restrict
  cases queueMutex : config.shared.workQueue.mutex with
  | some holder => exact Or.inr ⟨holder, (asserted holder).ready_of_queueHolder queueMutex⟩
  | none =>
  by_cases submits : ∀ thread, (config.threads thread).call.submitRank = 0
  swap
  · obtain ⟨thread, submits⟩ := not_forall.mp submits
    exact Or.inr ⟨thread, (asserted thread).ready_of_submit queueMutex submits⟩
  cases completeMutex : config.shared.tasksCompleteMutex with
  | some holder =>
      exact Or.inr ⟨holder, (asserted holder).ready_of_completeHolder queueMutex completeMutex⟩
  | none =>
  have worker {thread : Tid} (member : thread ∈ workers)
      (work : (config.threads thread).loop.taskRank ≠ 0 ∨ config.shared.drained = false) :
      Ready thread config.shared (config.threads thread) := by
    obtain ⟨inside, idle⟩ := (orderly thread).worker member
    have assertion := asserted thread
    generalize config.threads thread = state at *
    obtain ⟨loop, call⟩ := state
    obtain rfl : call = .idle := idle
    exact assertion.ready_of_worker queueMutex completeMutex inside work
  by_cases tasks : ∀ thread, (config.threads thread).loop.taskRank = 0
  swap
  · obtain ⟨thread, busy⟩ := not_forall.mp tasks
    have member := (roles.loops thread).resolve_right fun client =>
      busy (by simp [client, LoopPc.taskRank])
    exact Or.inr ⟨thread, worker member (Or.inl busy)⟩
  cases drained : config.shared.drained with
  | true => exact Or.inl ⟨submits, tasks, drained⟩
  | false =>
      obtain ⟨thread, member⟩ := List.exists_mem_of_ne_nil workers hired
      exact Or.inr ⟨thread, worker member (Or.inr drained)⟩

theorem exists_run_to_rest (hired : workers ≠ [])
    (reach : ((program width workers).system.restrict (Undisturbed workers)).Reachable config) :
    ∃ trace after, ((program width workers).system.restrict Proceeds).Run config trace after ∧
      ((program width workers).system.restrict (Undisturbed workers)).Reachable after ∧
      AtRest after := by
  refine TransitionSystem.exists_run_of_decreasing ranksLt_wellFounded ranks (fun reach => ?_)
    reach
  rcases atRest_or_ready hired reach with rest | ⟨thread, ready⟩
  · exact Or.inl rest
  · exact Or.inr (exists_lowering reach ready)

/-! ## The waiters return -/

/-- Every task added is counted down, and no worker has a notification to make or holds
`m_tasksCompleteMutex`. -/
structure Quiet (config : Config Tid) : Prop where
  counted : config.shared.counted.length = config.shared.added.length
  notified : ∀ thread, (config.threads thread).loop.owesNotify = false
  unheld : ∀ thread, (config.threads thread).loop.holds = false

omit [DecidableEq Tid] [Fintype Tid] in
theorem claims_of_ranks (submits : state.call.submitRank = 0) (tasks : state.loop.taskRank = 0)
    (expected : state.call.expected = true) : state.claims = 0 := by
  have unheld : state.loop.held = none := by
    cases held : state.loop.held with
    | none => rfl
    | some task =>
        unfold LoopPc.held at held
        split at held <;> simp_all [LoopPc.taskRank]
  have queued : state.call.unqueued = false := by
    unfold CallPc.unqueued
    split <;> simp_all [CallPc.submitRank, CallPc.expected]
  simp [Local.claims, unheld, queued]

theorem AtRest.quiet
    (reach : ((program width workers).system.restrict (Undisturbed workers)).Reachable config)
    (rest : AtRest config) : Quiet config := by
  obtain ⟨-, orderly⟩ := orderly_of_reachable reach
  have balance := balance_of_undisturbed reach
  have claims : sumThreads Local.claims config.threads = 0 :=
    Program.sumThreads_eq_zero fun thread =>
      claims_of_ranks (rest.submits thread) (rest.tasks thread) (orderly thread).expected
  have queued : config.shared.queued = 0 := by
    have drained := rest.drained
    rw [Pool.drained, List.isEmpty_iff] at drained
    rw [Pool.queued, drained, List.length_nil]
  refine ⟨by omega, fun thread => ?_, fun thread => ?_⟩
  · have tasks := rest.tasks thread
    unfold LoopPc.owesNotify
    split <;> simp_all [LoopPc.taskRank]
  · have tasks := rest.tasks thread
    unfold LoopPc.holds
    split <;> simp_all [LoopPc.taskRank]

/-- Without workers nothing has ever been counted down or notified. -/
theorem quiet_of_nothing (reach : (program width ([] : List Tid)).system.Reachable config)
    (nothing : config.shared.added = []) : Quiet config := by
  have counted := (counted_subperm reach).length_le
  have client thread : (config.threads thread).loop = .client :=
    ((roles_of_reachable reach).loops thread).resolve_left List.not_mem_nil
  rw [nothing, List.length_nil, Nat.le_zero] at counted
  refine ⟨by rw [nothing, counted, List.length_nil], fun thread => ?_, fun thread => ?_⟩
  · rw [client thread]
    rfl
  · rw [client thread]
    rfl

/-- Number of steps of a waiter that finds the counter at zero. -/
def CallPc.waitRank : CallPc Tid → Nat
  | .waitLock | .waiting => 3
  | .waitTest => 2
  | .waitUnlock => 1
  | _ => 0

omit [Fintype Tid] in
theorem StepCase.waits (step : StepCase width thread pool action state pool' state')
    (proceeds : action.proceeds = true) (inside : state.call.inWait = true)
    (zero : pool.taskCount = 0) (notBlocking : state.call ≠ .waitBlock) :
    state'.call.waitRank < state.call.waitRank ∧ state'.loop = state.loop ∧
      pool'.added = pool.added ∧ pool'.counted = pool.counted := by
  cases step with
  | submit | waitAll | destroy | loop => simp [CallPc.inWait] at inside
  | call _ taken =>
      cases taken with
      | lock | testZero | relock | unlock => exact ⟨by simp [CallPc.waitRank], rfl, rfl, rfl⟩
      | testMore several => exact absurd zero several
      | block => exact absurd rfl notBlocking
      | wake => simp [Action.proceeds] at proceeds
      | add | convert | throwConvert | push | submitted | threw | setDone | destroyed | joinAll
      | destroy | joined | join => simp [CallPc.inWait] at inside

theorem Quiet.not_sleeping (quiet : Quiet config)
    (reach : (program width workers).system.Reachable config) : ¬ Sleeping config := by
  intro sleeping
  rcases due_of_sleeping reach sleeping with outstanding | ⟨worker, -, owes⟩
  · exact absurd quiet.counted outstanding.ne
  · simp [quiet.notified worker] at owes

theorem Quiet.taskCount (quiet : Quiet config)
    (reach : (program width workers).system.Reachable config) : config.shared.taskCount = 0 := by
  rw [counter_mod_of_reachable reach, quiet.counted, Nat.sub_self, Nat.zero_mod]

omit [Fintype Tid] in
/-- In a quiet pool some waiter can go on: the one that holds the mutex, else any. -/
theorem Quiet.exists_waiter (quiet : Quiet config)
    (reach : (program width workers).system.Reachable config)
    (inside : (config.threads thread).call.inWait = true) :
    ∃ waiter, (config.threads waiter).call.inWait = true ∧
      (Local.wantsComplete (config.threads waiter) = true →
        config.shared.tasksCompleteMutex = none) := by
  obtain ⟨-, asserted⟩ := assertion_of_reachable reach
  cases mutex : config.shared.tasksCompleteMutex with
  | none => exact ⟨thread, inside, fun _ => rfl⟩
  | some holder =>
      have holds := (asserted holder).held.mp mutex
      rw [quiet.unheld holder, Bool.false_or] at holds
      refine ⟨holder, ?_, fun wants => ?_⟩
      · cases position : (config.threads holder).call <;>
          simp [position, CallPc.holds, CallPc.inWait] at holds ⊢
      · cases position : (config.threads holder).call <;>
          simp [position, CallPc.holds, Local.wantsComplete] at holds wants

/-- A waiter in a quiet pool takes a step towards its return. -/
theorem Quiet.exists_step (quiet : Quiet config)
    (reach : ((program width workers).system.restrict (Undisturbed workers)).Reachable config)
    (inside : (config.threads thread).call.inWait = true) :
    ∃ label after, ((program width workers).system.restrict Proceeds).Step config label after ∧
      ((program width workers).system.restrict (Undisturbed workers)).Reachable after ∧
      Quiet after ∧ sumThreads (fun state => state.call.waitRank) after.threads <
        sumThreads (fun state => state.call.waitRank) config.threads := by
  obtain ⟨waiter, inside, free⟩ := quiet.exists_waiter reach.of_restrict inside
  obtain ⟨-, orderly⟩ := orderly_of_reachable reach
  obtain ⟨-, asserted⟩ := assertion_of_reachable reach.of_restrict
  have awake := quiet.not_sleeping reach.of_restrict
  have busy : (config.threads waiter).call ≠ .idle := by
    intro idle
    simp [idle, CallPc.inWait] at inside
  have outside : (config.threads waiter).wantsQueue = true →
      config.shared.workQueue.mutex = none := by
    intro wants
    have calls := (asserted waiter).consistent.calls.resolve_right busy
    rw [Local.wantsQueue, show config.threads waiter = ⟨_, _⟩ from rfl,
      Local.queuePc_of_mayCall calls] at wants
    cases position : (config.threads waiter).call <;>
      simp [position, CallPc.inWait, CallPc.queuePc] at inside wants
  obtain ⟨action, proceeds, enabled⟩ := (asserted waiter).call_enabled width busy
    (orderly waiter).expected outside free (fun member => awake ⟨waiter, Or.inl member⟩)
  obtain ⟨⟨pool', state'⟩, taken⟩ := Option.isSome_iff_exists.mp enabled
  have change := (asserted waiter).threadStep_cases taken
  obtain ⟨less, loop, added, counted⟩ := change.waits proceeds inside
    (quiet.taskCount reach.of_restrict) (fun blocking => awake ⟨waiter, Or.inr blocking⟩)
  have step : (program width workers).system.Step config (waiter, action)
      ⟨pool', Function.update config.threads waiter state'⟩ :=
    Program.system_step_iff.mpr ⟨pool', state', taken, rfl⟩
  have proceeds' : Proceeds config (waiter, action)
      ⟨pool', Function.update config.threads waiter state'⟩ := proceeds
  have loops other : (Function.update config.threads waiter state' other).loop =
      (config.threads other).loop := by
    by_cases same : other = waiter
    · subst same
      simpa using loop
    · simp [same]
  refine ⟨_, _, ⟨step, proceeds'⟩, reach.step ⟨step, proceeds'.undisturbed⟩,
    ⟨by rw [added, counted, quiet.counted], fun other => ?_, fun other => ?_⟩, ?_⟩
  · rw [loops]
    exact quiet.notified other
  · rw [loops]
    exact quiet.unheld other
  · have rank := Program.sumThreads_update (fun state : Local Tid => state.call.waitRank)
      config.threads waiter state'
    dsimp only
    omega

theorem Quiet.completed (quiet : Quiet config)
    (reach : (program width workers).system.Reachable config) {task : Task}
    (returned : task ∈ config.shared.returned) :
    task ∈ config.shared.completed.map Prod.snd := by
  have perm := (counted_subperm reach).perm_of_length_le quiet.counted.ge
  have counted := List.count_pos_iff.mpr (perm.symm.subset (returned_subset_added reach returned))
  have ran := (ledger_of_reachable reach task).completed
  exact List.count_pos_iff.mp (by omega)

/-- From a quiet pool the waiters return. -/
theorem Quiet.exists_run (quiet : Quiet config)
    (reach : ((program width workers).system.restrict (Undisturbed workers)).Reachable config) :
    ∃ trace after, ((program width workers).system.restrict Proceeds).Run config trace after ∧
      Finished after := by
  have returns : ∃ trace after,
      ((program width workers).system.restrict Proceeds).Run config trace after ∧
      (((program width workers).system.restrict (Undisturbed workers)).Reachable after ∧
        Quiet after) ∧ ∀ thread, (after.threads thread).call.inWait = false := by
    refine TransitionSystem.exists_run_of_decreasing wellFounded_lt
      (fun config => sumThreads (fun state => state.call.waitRank) config.threads) ?_
      ⟨reach, quiet⟩
    rintro before ⟨reach, quiet⟩
    by_cases outside : ∀ thread, (before.threads thread).call.inWait = false
    · exact Or.inl outside
    · obtain ⟨thread, inside⟩ := not_forall.mp outside
      obtain ⟨label, next, step, reach', quiet', less⟩ :=
        quiet.exists_step reach (Bool.eq_true_of_not_eq_false inside)
      exact Or.inr ⟨label, next, step, ⟨reach', quiet'⟩, less⟩
  obtain ⟨trace, after, run, ⟨reach', quiet'⟩, outside⟩ := returns
  exact ⟨trace, after, run, quiet'.taskCount reach'.of_restrict,
    fun _ => quiet'.completed reach'.of_restrict, outside⟩

/-! ## A schedule that finishes the work -/

omit [DecidableEq Tid] [Fintype Tid] in
theorem length_of_construct {threadCount : Nat} {start : Nat → Option Tid}
    (constructed : construct threadCount start = some workers) :
    workers.length = threadCount := by
  induction threadCount generalizing workers with
  | zero =>
      obtain rfl : [] = workers := by simpa [construct] using constructed
      rfl
  | succ threadCount ih =>
      obtain ⟨earlier, started, last, -, rfl⟩ : ∃ earlier,
          construct threadCount start = some earlier ∧
            ∃ last, start threadCount = some last ∧ earlier ++ [last] = workers := by
        simpa [construct, List.range_succ, Option.bind_eq_some_iff] using constructed
      rw [List.length_append, ih started, List.length_singleton]

/-- From every state of a pool that has been constructed and is not being destroyed, whose tasks do
not call it and whose submits have met no exception, the steps of the workers and of the calls in
progress can finish the work, if `hardware_concurrency()` was not zero or no task has been
added. -/
theorem exists_run_to_finished {hardwareConcurrency : Nat} {start : Nat → Option Tid}
    (constructed : construct hardwareConcurrency start = some workers)
    (reach : ((program width workers).system.restrict (Undisturbed workers)).Reachable config)
    (served : 0 < hardwareConcurrency ∨ config.shared.added = []) :
    ∃ trace after, ((program width workers).system.restrict Proceeds).Run config trace after ∧
      Finished after := by
  have length := length_of_construct constructed
  cases workers with
  | nil =>
      have nothing := served.resolve_left (by simp at length; omega)
      exact (quiet_of_nothing reach.of_restrict nothing).exists_run reach
  | cons worker others =>
      obtain ⟨trace, middle, run, reach', rest⟩ := exists_run_to_rest (List.cons_ne_nil _ _) reach
      obtain ⟨trace', after, run', finished⟩ := (rest.quiet reach').exists_run reach'
      exact ⟨_, after, run.append run', finished⟩

/-- A client has submitted a task and sleeps in `wait_all`; the only worker has not started. -/
theorem exists_run_to_finished_sleeping : ∃ config : Config (Fin 2),
    (config.shared.workQueue.contents = [0] ∧ 1 ∈ config.shared.tasksComplete) ∧
      ∃ trace after, ((program 32 [0]).system.restrict Proceeds).Run config trace after ∧
        Finished after := by
  have sleeps : ∃ config, ((program 32 [(0 : Fin 2)]).system.restrict (Undisturbed [0])).Run
      (initial [0]) (submission 1 ++ (1, .call .waitAll) :: List.replicate 3 (1, .run)) config ∧
      (config.shared.workQueue.contents = [0] ∧ 1 ∈ config.shared.tasksComplete) :=
    Program.exists_run_of_execute (by decide +kernel)
  obtain ⟨config, run, facts⟩ := sleeps
  exact ⟨config, facts, exists_run_to_finished
    (show construct 1 (fun _ => some 0) = some [0] by decide)
    (run.reachable initial_reachable) (Or.inl Nat.one_pos)⟩

omit [Fintype Tid] in
/-- Without a worker, a pool that has accepted a task never finishes, whatever is called. -/
theorem not_finished_of_no_worker {after : Config Tid} {trace : List (Tid × Action Tid)}
    (reach : (program width ([] : List Tid)).system.Reachable config)
    (accepted : config.shared.returned ≠ [])
    (run : (program width ([] : List Tid)).system.Run config trace after) : ¬ Finished after := by
  have kept := run.preserves (motive := fun config => config.shared.returned ≠ []) reach accepted ?_
  · intro finished
    obtain ⟨task, member⟩ := List.exists_mem_of_ne_nil _ kept
    obtain ⟨⟨worker, _⟩, entry, -⟩ := List.mem_map.mp (finished.completed task member)
    exact List.not_mem_nil ((roles_of_reachable (run.reachable reach)).completed _ entry)
  · rintro before ⟨thread, action⟩ next earlier accepted step
    obtain ⟨pool', state', change, rfl⟩ := exists_stepCase earlier step
    dsimp only
    rcases change.returned with same | ⟨task, -, returned⟩
    · rwa [same]
    · simp [returned]

/-- Where `hardware_concurrency()` is zero, a submitted task is never run. -/
theorem unserved_task : ∃ (workers : List (Fin 1)) (config : Config (Fin 1)),
    construct 0 (fun _ => some 0) = some workers ∧
      ((program 32 workers).system.restrict (Undisturbed workers)).Reachable config ∧
      config.shared.returned = [0] ∧
      ¬ ∃ trace after, ((program 32 workers).system.restrict Proceeds).Run config trace after ∧
        Finished after := by
  have submits : ∃ config, ((program 32 ([] : List (Fin 1))).system.restrict (Undisturbed [])).Run
      (initial []) (submission 0) config ∧
      config.shared.returned = [0] := Program.exists_run_of_execute (by decide)
  obtain ⟨config, run, returned⟩ := submits
  have reach := run.reachable initial_reachable
  refine ⟨[], config, rfl, reach, returned, ?_⟩
  rintro ⟨trace, after, run, finished⟩
  exact not_finished_of_no_worker reach.of_restrict (by simp [returned]) run.of_restrict finished

end ThreadPool
end ConcurrencyCourse
