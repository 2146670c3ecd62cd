import ConcurrencyCourse.ThreadPool.Ledger
import Mathlib.Data.List.Count

/-!
# wait_all is a barrier

While fewer than `2 ^ width` tasks are outstanding, `m_taskCount` is the number of tasks added and
not yet counted down.  A `wait_all` that finds it at zero finds every added task counted, and by
the ledger a counted task has been taken once and has run once.
-/

namespace ConcurrencyCourse
namespace ThreadPool

open Program (sumThreads le_sumThreads)

variable {Tid : Type*} [DecidableEq Tid] {width : Nat} {workers : List Tid} {thread : Tid}
  {pool pool' : Pool Tid} {state state' : Local Tid} {action : Action Tid} {task : Task}
  {config : Config Tid}

/-- The destructor has not started, and fewer than `2 ^ width` tasks are outstanding. -/
def InUse (width : Nat) (_ : Config Tid) (label : Tid × Action Tid) (after : Config Tid) : Prop :=
  label.2 ≠ .call .destroy ∧
    after.shared.added.length < after.shared.counted.length + 2 ^ width

instance (before after : Config Tid) (label : Tid × Action Tid) :
    Decidable (InUse width before label after) :=
  inferInstanceAs (Decidable (_ ∧ _))

/-! ## The counter -/

/-- What a step does to the counter. -/
inductive CounterStep (width : Nat) (pool : Pool Tid) (loop : LoopPc) (pool' : Pool Tid) : Prop
  | same : pool'.taskCount = pool.taskCount → pool'.added = pool.added →
      pool'.counted = pool.counted → CounterStep width pool loop pool'
  | add (task : Task) : pool'.taskCount = (pool.taskCount + 1) % 2 ^ width →
      pool'.added = pool.added ++ [task] → pool'.counted = pool.counted →
      CounterStep width pool loop pool'
  | sub (task : Task) : loop = .fetchSub task →
      pool'.taskCount = (pool.taskCount + (2 ^ width - 1)) % 2 ^ width →
      pool'.added = pool.added → pool'.counted = pool.counted ++ [task] →
      CounterStep width pool loop pool'

theorem StepCase.counterStep (step : StepCase width thread pool action state pool' state') :
    CounterStep width pool state.loop pool' := by
  cases step with
  | submit | waitAll | destroy => exact .same rfl rfl rfl
  | loop taken =>
      cases taken with
      | last task _ | more task _ => exact .sub task rfl rfl rfl rfl
      | exit | enter | tryPop | took | nothing | ran | lock | notifyAll | unlock | yield | drop =>
          exact .same rfl rfl rfl
  | call _ taken =>
      cases taken with
      | add task => exact .add task rfl rfl rfl
      | convert | throwConvert | push | submitted | threw | lock | testZero | testMore | block
      | wake | relock | unlock | setDone | destroyed | joinAll | destroy | joined | join =>
          exact .same rfl rfl rfl

variable [Fintype Tid]

/-- Tasks counted down, with those a worker holds, are among the tasks added. -/
theorem count_held_le (reach : (program width workers).system.Reachable config) (task : Task) :
    sumThreads (fun state => state.loop.held.toList.count task) config.threads +
        config.shared.counted.count task ≤ config.shared.added.count task := by
  have ledger := ledger_of_reachable reach task
  obtain ⟨shape, -⟩ := assertion_of_reachable reach
  have order := congrArg (List.count task) shape.order
  rw [List.count_append] at order
  have pushed := ledger.pushed
  have removed := ledger.removed
  omega

theorem counted_subperm (reach : (program width workers).system.Reachable config) :
    config.shared.counted.Subperm config.shared.added := by
  rw [List.subperm_ext_iff]
  intro task _
  have bound := count_held_le reach task
  omega

theorem counted_lt_added (reach : (program width workers).system.Reachable config)
    (held : (config.threads thread).loop.held = some task) :
    config.shared.counted.length < config.shared.added.length := by
  have subperm : (task :: config.shared.counted).Subperm config.shared.added := by
    rw [List.subperm_ext_iff]
    intro other _
    have bound := count_held_le reach other
    have mine := le_sumThreads (fun state : Local Tid => state.loop.held.toList.count other)
      config.threads thread
    rw [held] at mine
    rw [List.count_cons]
    simp only [Option.toList_some, List.count_singleton] at mine
    omega
  exact subperm.length_le

/-- The counter is the number of outstanding tasks, as far as it fits. -/
theorem counter_mod_of_reachable (reach : (program width workers).system.Reachable config) :
    config.shared.taskCount =
      (config.shared.added.length - config.shared.counted.length) % 2 ^ width := by
  refine reach.invariant (motive := fun config => config.shared.taskCount =
    (config.shared.added.length - config.shared.counted.length) % 2 ^ width) ?_ ?_
  · rintro ⟨pool, threads⟩ ⟨rfl, rfl⟩
    rfl
  · rintro before ⟨thread, action⟩ after earlier counter step
    obtain ⟨pool', state', change, rfl⟩ := exists_stepCase earlier step
    have counted := (counted_subperm earlier).length_le
    dsimp only
    cases change.counterStep with
    | same taskCount added counted' => rw [taskCount, added, counted', counter]
    | add task taskCount added counted' =>
        rw [taskCount, added, counted', counter, Nat.mod_add_mod, List.length_append,
          List.length_singleton]
        congr 1
        omega
    | sub task position taskCount added counted' =>
        have held : (before.threads thread).loop.held = some task := by
          rw [position]
          rfl
        have positive := counted_lt_added earlier held
        have power := Nat.two_pow_pos width
        have wrapped : before.shared.added.length - before.shared.counted.length +
            (2 ^ width - 1) = before.shared.added.length -
              (before.shared.counted.length + 1) + 2 ^ width := by omega
        rw [taskCount, added, counted', counter, Nat.mod_add_mod, wrapped, Nat.add_mod_right,
          List.length_append, List.length_singleton]

theorem counter_of_reachable
    (reach : ((program width workers).system.restrict (InUse width)).Reachable config) :
    config.shared.taskCount + config.shared.counted.length = config.shared.added.length := by
  have counter := counter_mod_of_reachable reach.of_restrict
  have counted := (counted_subperm reach.of_restrict).length_le
  cases reach with
  | initial new =>
      obtain ⟨pool, threads⟩ := config
      obtain ⟨rfl, rfl⟩ := new
      rfl
  | step _ last =>
      have bound := last.2.2
      rw [counter, Nat.mod_eq_of_lt (by omega)]
      omega

theorem added_subset_counted
    (reach : ((program width workers).system.restrict (InUse width)).Reachable config)
    (zero : config.shared.taskCount = 0) : config.shared.added ⊆ config.shared.counted := by
  have counter := counter_of_reachable reach
  have perm := (counted_subperm reach.of_restrict).perm_of_length_le (by omega)
  exact perm.symm.subset

/-! ## Who takes and runs tasks -/

omit [Fintype Tid]

/-- Only workers run `worker_thread`, and so only workers take and run tasks. -/
structure Roles (workers : List Tid) (config : Config Tid) : Prop where
  loops : ∀ thread, thread ∈ workers ∨ (config.threads thread).loop = .client
  removed : ∀ entry ∈ config.shared.workQueue.removed, entry.1 ∈ workers
  completed : ∀ entry ∈ config.shared.completed, entry.1 ∈ workers

/-- What a step does to the records of removals and runs. -/
inductive RoleStep (thread : Tid) (pool : Pool Tid) (loop : LoopPc) (pool' : Pool Tid)
    (loop' : LoopPc) : Prop
  | same : pool'.workQueue.removed = pool.workQueue.removed → pool'.completed = pool.completed →
      (loop = .client → loop' = .client) → RoleStep thread pool loop pool' loop'
  | removed (task : Task) : loop ≠ .client →
      pool'.workQueue.removed = pool.workQueue.removed ++ [(thread, task)] →
      pool'.completed = pool.completed → RoleStep thread pool loop pool' loop'
  | completed (task : Task) : loop ≠ .client →
      pool'.workQueue.removed = pool.workQueue.removed →
      pool'.completed = pool.completed ++ [(thread, task)] → RoleStep thread pool loop pool' loop'

theorem StepCase.roleStep (step : StepCase width thread pool action state pool' state') :
    RoleStep thread pool state.loop pool' state'.loop := by
  cases step with
  | submit | waitAll | destroy => exact .same rfl rfl id
  | loop taken =>
      cases taken with
      | tryPop taken within =>
          cases taken with
          | move _ => exact .removed _ nofun rfl rfl
          | lock | empty | nonempty | popFront | unlock => exact .same rfl rfl nofun
      | ran task => exact .completed task nofun rfl rfl
      | exit | enter | took | nothing | last | more | lock | notifyAll | unlock | yield | drop =>
          exact .same rfl rfl nofun
  | call _ taken =>
      cases taken with
      | push task taken within =>
          cases taken with
          | lock | emplace | throwEmplace | notifyNobody | notify | unlock | unwind =>
              exact .same rfl rfl id
      | add | convert | throwConvert | submitted | threw | lock | testZero | testMore | block
      | wake | relock | unlock | setDone | destroyed | joinAll | destroy | joined | join =>
          exact .same rfl rfl id

theorem roles_of_reachable (reach : (program width workers).system.Reachable config) :
    Roles workers config := by
  refine reach.invariant (motive := Roles workers) ?_ ?_
  · rintro ⟨pool, threads⟩ ⟨rfl, rfl⟩
    refine ⟨fun thread => ?_, nofun, nofun⟩
    by_cases worker : thread ∈ workers
    · exact Or.inl worker
    · exact Or.inr (by simp [initial, worker])
  · rintro before ⟨thread, action⟩ after earlier roles step
    obtain ⟨pool', state', change, rfl⟩ := exists_stepCase earlier step
    have change := change.roleStep
    have worker (inside : (before.threads thread).loop ≠ .client) : thread ∈ workers :=
      (roles.loops thread).resolve_right inside
    have loops : ∀ other, other ∈ workers ∨
        (Function.update before.threads thread state' other).loop = .client := by
      intro other
      by_cases same : other = thread
      · subst same
        rcases roles.loops other with worker' | client
        · exact Or.inl worker'
        · cases change with
          | same _ _ stays => exact Or.inr (by simp [stays client])
          | removed _ inside _ _ => exact absurd client inside
          | completed _ inside _ _ => exact absurd client inside
      · simpa [same] using roles.loops other
    cases change with
    | same removed completed _ =>
        refine ⟨loops, ?_, ?_⟩
        · rw [removed]
          exact roles.removed
        · rw [completed]
          exact roles.completed
    | removed task inside removed completed =>
        refine ⟨loops, ?_, by rw [completed]; exact roles.completed⟩
        rw [removed]
        exact List.forall_mem_append.mpr
          ⟨roles.removed, List.forall_mem_singleton.mpr (worker inside)⟩
    | completed task inside removed completed =>
        refine ⟨loops, by rw [removed]; exact roles.removed, ?_⟩
        rw [completed]
        exact List.forall_mem_append.mpr
          ⟨roles.completed, List.forall_mem_singleton.mpr (worker inside)⟩

/-! ## The barrier -/

/-- The log has exactly one entry for a task, made by a worker. -/
def ExactlyOnce (workers : List Tid) (log : List (Tid × Task)) (task : Task) : Prop :=
  ∃ worker ∈ workers, log.filter (fun entry => entry.2 = task) = [(worker, task)]

omit [DecidableEq Tid] in
theorem exactlyOnce_of_count {log : List (Tid × Task)} (byWorkers : ∀ entry ∈ log,
    entry.1 ∈ workers) (once : (log.map Prod.snd).count task = 1) :
    ExactlyOnce workers log task := by
  rw [List.count, List.countP_map, List.countP_eq_length_filter, List.length_eq_one_iff] at once
  obtain ⟨⟨worker, task'⟩, single⟩ := once
  have member : (worker, task') ∈ log.filter ((· == task) ∘ Prod.snd) := by simp [single]
  rw [List.mem_filter] at member
  obtain rfl : task' = task := by simpa using member.2
  exact ⟨worker, byWorkers _ member.1, single⟩

variable [Fintype Tid]

theorem settled_of_counted (reach : (program width workers).system.Reachable config)
    (counted : task ∈ config.shared.counted) :
    config.shared.counted.count task = 1 ∧ config.shared.workQueue.contents.count task = 0 ∧
      sumThreads (fun state => state.loop.held.toList.count task) config.threads = 0 := by
  have ledger := ledger_of_reachable reach task
  have positive := List.count_pos_iff.mpr counted
  have issued : config.shared.issued task ≤ 1 := by
    unfold Pool.issued
    split <;> omega
  obtain ⟨shape, -⟩ := assertion_of_reachable reach
  have order := congrArg (List.count task) shape.order
  rw [List.count_append] at order
  have added := ledger.added
  have pushed := ledger.pushed
  have removed := ledger.removed
  omega

/-- A counted task has been taken once and has run once. -/
theorem exactlyOnce_of_counted (reach : (program width workers).system.Reachable config)
    (counted : task ∈ config.shared.counted) :
    ExactlyOnce workers config.shared.workQueue.removed task ∧
      ExactlyOnce workers config.shared.completed task := by
  have ledger := ledger_of_reachable reach task
  have roles := roles_of_reachable reach
  obtain ⟨once, -, unheld⟩ := settled_of_counted reach counted
  have ranHeld : sumThreads (fun state : Local Tid => state.loop.ran.toList.count task)
      config.threads ≤
      sumThreads (fun state : Local Tid => state.loop.held.toList.count task) config.threads := by
    refine Program.sumThreads_mono _ fun state => ?_
    cases state.loop with
    | fetchSub => exact Nat.le_refl _
    | _ => exact Nat.zero_le _
  have removed := ledger.removed
  have completed := ledger.completed
  exact ⟨exactlyOnce_of_count roles.removed (by omega),
    exactlyOnce_of_count roles.completed (by omega)⟩

omit [Fintype Tid] in
theorem StepCase.grows (step : StepCase width thread pool action state pool' state') :
    pool.added ⊆ pool'.added ∧ pool.counted ⊆ pool'.counted := by
  cases step.counterStep with
  | same _ added counted => rw [added, counted]; exact ⟨List.Subset.refl _, List.Subset.refl _⟩
  | add task _ added counted =>
      rw [added, counted]
      exact ⟨List.subset_append_left _ _, List.Subset.refl _⟩
  | sub task _ _ added counted =>
      rw [added, counted]
      exact ⟨List.Subset.refl _, List.subset_append_left _ _⟩

omit [Fintype Tid] in
theorem StepCase.returned (step : StepCase width thread pool action state pool' state') :
    pool'.returned = pool.returned ∨
      ∃ task, state.call.submitted = some task ∧ pool'.returned = pool.returned ++ [task] := by
  cases step with
  | submit | waitAll | destroy => exact Or.inl rfl
  | loop taken =>
      cases taken with
      | exit | enter | tryPop | took | nothing | ran | last | more | lock | notifyAll | unlock
      | yield | drop => exact Or.inl rfl
  | call _ taken =>
      cases taken with
      | submitted task => exact Or.inr ⟨task, rfl, rfl⟩
      | add | convert | throwConvert | push | threw | lock | testZero | testMore | block | wake
      | relock | unlock | setDone | destroyed | joinAll | destroy | joined | join =>
          exact Or.inl rfl

omit [Fintype Tid] in
theorem returned_subset_added (reach : (program width workers).system.Reachable config) :
    config.shared.returned ⊆ config.shared.added := by
  refine reach.invariant (motive := fun config => config.shared.returned ⊆ config.shared.added)
    ?_ ?_
  · rintro ⟨pool, threads⟩ ⟨rfl, rfl⟩
    exact List.nil_subset _
  · rintro before ⟨thread, action⟩ after earlier subset step
    obtain ⟨pool', state', change, rfl⟩ := exists_stepCase earlier step
    have known := List.Subset.trans subset change.grows.1
    rcases change.returned with same | ⟨task, submitted, returned⟩
    · dsimp only
      rw [same]
      exact known
    · obtain ⟨-, asserted⟩ := assertion_of_reachable earlier
      dsimp only
      rw [returned]
      refine List.append_subset.mpr ⟨known, List.cons_subset.mpr ⟨?_, List.nil_subset _⟩⟩
      exact change.grows.1 ((asserted thread).added task submitted)

omit [Fintype Tid] in
theorem StepCase.waitLock
    (step : StepCase width thread pool (.call .waitAll) state pool' state') :
    state'.call = .waitLock := by
  cases step with
  | waitAll => rfl
  | loop taken => cases taken
  | call _ taken => cases taken

omit [Fintype Tid] in
/-- Only the test that finds the counter at zero leads out of the waiting positions. -/
theorem StepCase.waits_or_zero (step : StepCase width thread pool action state pool' state')
    (waits : state.call.waits = true) : state'.call.waits = true ∨ pool'.taskCount = 0 := by
  cases step with
  | submit | waitAll | destroy | loop => simp [CallPc.waits] at waits
  | call _ taken =>
      cases taken with
      | lock | testMore | block | wake | relock => exact Or.inl rfl
      | testZero zero => exact Or.inr zero
      | _ => simp [CallPc.waits] at waits

/-- A call of `wait_all` that has left the waiting positions, whether or not it has returned by now,
has found every task counted that was added before. -/
theorem counted_of_waited {start after : Config Tid} {trace : List (Tid × Action Tid)}
    (reach : ((program width workers).system.restrict (InUse width)).Reachable start)
    (run : ((program width workers).system.restrict (InUse width)).Run start trace after)
    (waits : (start.threads thread).call.waits = true)
    (left : (after.threads thread).call.waits = false) {tasks : List Task}
    (added : tasks ⊆ start.shared.added) : tasks ⊆ after.shared.counted := by
  have kept := run.preserves (motive := fun config => tasks ⊆ config.shared.added ∧
    ((config.threads thread).call.waits = true ∨ tasks ⊆ config.shared.counted)) reach
    ⟨added, Or.inl waits⟩ ?_
  · exact kept.2.resolve_left (by simp [left])
  · rintro before ⟨mover, action⟩ after earlier ⟨known, still⟩ ⟨step, inUse⟩
    have reach' := earlier.step ⟨step, inUse⟩
    obtain ⟨pool', state', change, rfl⟩ := exists_stepCase earlier.of_restrict step
    have known' := List.Subset.trans known change.grows.1
    refine ⟨known', ?_⟩
    rcases still with waiting | counted
    · by_cases same : thread = mover
      · subst same
        rcases change.waits_or_zero waiting with waiting' | zero
        · exact Or.inl (by simpa using waiting')
        · exact Or.inr (List.Subset.trans known' (added_subset_counted reach' zero))
      · exact Or.inl (by simpa [same] using waiting)
    · exact Or.inr (List.Subset.trans counted change.grows.2)

/-- When a call of `wait_all` is over, every task is counted whose submit had returned before it
began. -/
theorem counted_of_waitAll {before start after : Config Tid} {trace : List (Tid × Action Tid)}
    (reach : ((program width workers).system.restrict (InUse width)).Reachable before)
    (call : ((program width workers).system.restrict (InUse width)).Step before
      (thread, .call .waitAll) start)
    (run : ((program width workers).system.restrict (InUse width)).Run start trace after)
    (ended : (after.threads thread).call = .idle) :
    before.shared.returned ⊆ after.shared.counted := by
  have added := returned_subset_added reach.of_restrict
  have reachStart := reach.step call
  obtain ⟨pool', state', begins, rfl⟩ := exists_stepCase reach.of_restrict call.1
  refine counted_of_waited reachStart run ?_ (by rw [ended]; rfl)
    (List.Subset.trans added begins.grows.1)
  simp [begins.waitLock, CallPc.waits]

/-- `wait_all` is a barrier: the counter is always the number of tasks added and not counted down
and never wraps, and when a call of `wait_all` is over, every task whose submit had returned before
it began has been taken by one worker and has run once. -/
theorem waitAll_barrier :
    (∀ config : Config Tid,
      ((program width workers).system.restrict (InUse width)).Reachable config →
      config.shared.taskCount + config.shared.counted.length = config.shared.added.length ∧
        ∀ thread task, (config.threads thread).loop = .fetchSub task →
          0 < config.shared.taskCount) ∧
    ∀ (before start after : Config Tid) trace thread,
      ((program width workers).system.restrict (InUse width)).Reachable before →
      ((program width workers).system.restrict (InUse width)).Step before
        (thread, .call .waitAll) start →
      ((program width workers).system.restrict (InUse width)).Run start trace after →
      (after.threads thread).call = .idle →
      ∀ task ∈ before.shared.returned,
        ExactlyOnce workers after.shared.workQueue.removed task ∧
          ExactlyOnce workers after.shared.completed task := by
  constructor
  · intro config reach
    have counter := counter_of_reachable reach
    refine ⟨counter, fun thread task position => ?_⟩
    have held : (config.threads thread).loop.held = some task := by
      rw [position]
      rfl
    have uncounted := counted_lt_added reach.of_restrict held
    omega
  · intro before start after trace thread reach call run ended task returned
    have reachAfter := run.reachable (reach.step call)
    have counted := counted_of_waitAll reach call run ended
    exact exactlyOnce_of_counted reachAfter.of_restrict (counted returned)

/-- A client submits a task and waits for it; the worker takes and runs it in between. -/
theorem waitAll_barrier_once : ∃ after : Config (Fin 2),
    ((after.threads 1).call = .idle ∧ after.shared.taskCount = 0) ∧
    ExactlyOnce [0] after.shared.workQueue.removed 0 ∧
      ExactlyOnce [0] after.shared.completed 0 := by
  let before : Config (Fin 2) := (program 32 [0]).finish (InUse 32) (submission 1) (initial [0])
  let start := (program 32 [0]).finish (InUse 32) [(1, .call .waitAll)] before
  let after := (program 32 [0]).finish (InUse 32)
    (List.replicate 3 (1, .run) ++ service 0 ++ List.replicate 3 (0, .run) ++
      List.replicate 3 (1, .run)) start
  have reach : ((program 32 [0]).system.restrict (InUse 32)).Reachable before :=
    (Program.run_finish (by decide +kernel)).reachable initial_reachable
  have called : (((program 32 [0]).system.restrict (InUse 32)).Step before
      (1, .call .waitAll) start) := (Program.run_finish (by decide +kernel)).step_of_single
  have ended : (after.threads 1).call = .idle := by decide +kernel
  exact ⟨after, ⟨ended, by decide +kernel⟩, waitAll_barrier.2 before start after _ 1 reach called
    (Program.run_finish (by decide +kernel)) ended 0 (by decide +kernel)⟩

end ThreadPool
end ConcurrencyCourse
