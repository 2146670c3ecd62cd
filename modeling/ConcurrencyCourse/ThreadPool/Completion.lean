import ConcurrencyCourse.ThreadPool.Barrier

/-!
# No wake-up of wait_all is lost

A waiter blocks only after it has seen outstanding tasks under `m_tasksCompleteMutex`.  The worker
that counts the last task down notifies under the same mutex, so it cannot do so between that test
and the blocking.
-/

namespace ConcurrencyCourse
namespace ThreadPool

variable {Tid : Type*} [DecidableEq Tid] {width : Nat} {workers : List Tid} {thread : Tid}
  {pool pool' : Pool Tid} {state state' : Local Tid} {action : Action Tid} {config : Config Tid}

/-- A worker whose `fetch_sub` has returned 1 and that has not yet executed `notify_all`. -/
def LoopPc.owesNotify : LoopPc → Bool
  | .lockComplete _ | .notifyAll _ => true
  | _ => false

/-- What a step does to the sleepers and to what they wait for. -/
inductive SleepStep (thread : Tid) (pool : Pool Tid) (state : Local Tid) (pool' : Pool Tid)
    (state' : Local Tid) : Prop
  | kept : pool'.taskCount = pool.taskCount →
      (state.loop.owesNotify = true → state'.loop.owesNotify = true) →
      (∀ other ∈ pool'.tasksComplete, other ∈ pool.tasksComplete ∨
        other = thread ∧ state.call = .waitBlock) →
      (state'.call = .waitBlock → state.call = .waitBlock) →
      SleepStep thread pool state pool' state'
  | tested : pool'.taskCount ≠ 0 → SleepStep thread pool state pool' state'
  | added (task : Task) : pool'.added = pool.added ++ [task] → pool'.counted = pool.counted →
      SleepStep thread pool state pool' state'
  | more (task : Task) : pool.taskCount ≠ 1 → state.loop = .fetchSub task →
      pool'.added = pool.added → pool'.counted = pool.counted ++ [task] →
      SleepStep thread pool state pool' state'
  | owes : state'.loop.owesNotify = true → SleepStep thread pool state pool' state'
  | notified : pool'.tasksComplete = ∅ → pool.tasksCompleteMutex = some thread →
      state'.call = .idle → SleepStep thread pool state pool' state'

theorem Assertion.sleepStep (assertion : Assertion thread pool state)
    (step : StepCase width thread pool action state pool' state') :
    SleepStep thread pool state pool' state' := by
  cases step with
  | submit | waitAll | destroy => exact .kept rfl id (fun _ => Or.inl) nofun
  | loop taken =>
      cases taken with
      | last task _ => exact .owes rfl
      | more task several => exact .more task several rfl rfl rfl
      | notifyAll task => exact .notified rfl (assertion.held.mpr rfl) rfl
      | lock => exact .kept rfl id (fun _ => Or.inl) nofun
      | exit | enter | tryPop | took | nothing | ran | unlock | yield | drop =>
          exact .kept rfl nofun (fun _ => Or.inl) nofun
  | call _ taken =>
      cases taken with
      | add task => exact .added task rfl rfl
      | testMore several => exact .tested several
      | block =>
          refine .kept rfl id (fun other member => ?_) nofun
          rcases Finset.mem_insert.mp member with rfl | member
          · exact Or.inr ⟨rfl, rfl⟩
          · exact Or.inl member
      | wake _ =>
          exact .kept rfl id (fun _ member => Or.inl (Finset.mem_of_mem_erase member)) nofun
      | convert | throwConvert | push | submitted | threw | lock | testZero | relock | unlock
      | setDone | destroyed | joinAll | destroy | joined | join =>
          exact .kept rfl id (fun _ => Or.inl) nofun

/-- A thread that sleeps in `wait_all`, or is about to. -/
def Sleeping (config : Config Tid) : Prop :=
  ∃ thread, thread ∈ config.shared.tasksComplete ∨ (config.threads thread).call = .waitBlock

/-- Tasks are outstanding, or a worker owes a notification. -/
def WakeUpDue (workers : List Tid) (config : Config Tid) : Prop :=
  config.shared.taskCount ≠ 0 ∨
    ∃ worker ∈ workers, (config.threads worker).loop.owesNotify = true

theorem mem_workers_of_owesNotify (reach : (program width workers).system.Reachable config)
    (owes : (config.threads thread).loop.owesNotify = true) : thread ∈ workers := by
  refine ((roles_of_reachable reach).loops thread).resolve_right fun client => ?_
  simp [client, LoopPc.owesNotify] at owes

/-- A thread comes to block only through a test that has found the counter above zero. -/
theorem StepCase.blocks (step : StepCase width thread pool action state pool' state')
    (blocks : state'.call = .waitBlock ∨ state'.call = .waiting) :
    (state.call = .waitBlock ∨ state.call = .waiting) ∨ pool.taskCount ≠ 0 := by
  cases step with
  | submit | waitAll | destroy => simp at blocks
  | loop => exact Or.inl blocks
  | call _ taken =>
      cases taken with
      | testMore several => exact Or.inr several
      | block => exact Or.inl (Or.inl rfl)
      | wake => exact Or.inl (Or.inr rfl)
      | add | convert | throwConvert | push | submitted | threw | lock | testZero | relock | unlock
      | setDone | destroyed | joinAll | destroy | joined | join => simp at blocks

variable [Fintype Tid]

/-- A counter without bits is always zero, so that nobody sleeps. -/
theorem width_pos_of_sleeping (reach : (program width workers).system.Reachable config)
    (sleeping : Sleeping config) : 0 < width := by
  have blocking : ∀ thread, (config.threads thread).call = .waitBlock ∨
      (config.threads thread).call = .waiting → 0 < width := by
    refine reach.invariant (motive := fun config => ∀ thread,
      (config.threads thread).call = .waitBlock ∨ (config.threads thread).call = .waiting →
        0 < width) ?_ ?_
    · rintro ⟨pool, threads⟩ ⟨rfl, rfl⟩ thread blocks
      simp [initial] at blocks
    · rintro before ⟨mover, action⟩ after earlier positive step thread blocks
      obtain ⟨pool', state', change, rfl⟩ := exists_stepCase earlier step
      by_cases same : thread = mover
      · subst same
        rcases change.blocks (by simpa using blocks) with blocks' | several
        · exact positive thread blocks'
        · refine Nat.pos_of_ne_zero fun none => several ?_
          have counter := counter_mod_of_reachable earlier
          simpa [none, Nat.mod_one] using counter
      · exact positive thread (by simpa [same] using blocks)
  obtain ⟨-, asserted⟩ := assertion_of_reachable reach
  obtain ⟨sleeper, member | blocks⟩ := sleeping
  · exact blocking sleeper (Or.inr ((asserted sleeper).blocked member))
  · exact blocking sleeper (Or.inl blocks)

omit [DecidableEq Tid] [Fintype Tid] in
theorem sub_one_mod_ne {modulus value : Nat} (several : 1 < modulus) (small : value < modulus) :
    (value + (modulus - 1)) % modulus ≠ value := by
  rcases Nat.eq_zero_or_pos value with rfl | positive
  · rw [Nat.zero_add, Nat.mod_eq_of_lt (by omega)]
    omega
  · rw [show value + (modulus - 1) = value - 1 + modulus by omega, Nat.add_mod_right,
      Nat.mod_eq_of_lt (by omega)]
    omega

/-- Tasks are added and not counted down, or a worker owes a notification. -/
def Due (workers : List Tid) (config : Config Tid) : Prop :=
  config.shared.counted.length < config.shared.added.length ∨
    ∃ worker ∈ workers, (config.threads worker).loop.owesNotify = true

omit [Fintype Tid] in
theorem Sleeping.of_kept {before : Config Tid}
    (sleeping : Sleeping ⟨pool', Function.update before.threads thread state'⟩)
    (members : ∀ other ∈ pool'.tasksComplete, other ∈ before.shared.tasksComplete ∨
      other = thread ∧ (before.threads thread).call = .waitBlock)
    (blocks : state'.call = .waitBlock → (before.threads thread).call = .waitBlock) :
    Sleeping before := by
  obtain ⟨sleeper, member | blocking⟩ := sleeping
  · rcases members sleeper member with member' | ⟨rfl, blocking⟩
    · exact ⟨sleeper, Or.inl member'⟩
    · exact ⟨sleeper, Or.inr blocking⟩
  · by_cases same : sleeper = thread
    · subst same
      exact ⟨sleeper, Or.inr (blocks (by simpa using blocking))⟩
    · exact ⟨sleeper, Or.inr (by simpa [same] using blocking)⟩

omit [Fintype Tid] in
/-- A worker that notifies holds the mutex, so that no thread stands between its test and its
sleep. -/
theorem not_sleeping_of_notified {before : Config Tid}
    (reach : (program width workers).system.Reachable before) (nobody : pool'.tasksComplete = ∅)
    (held : before.shared.tasksCompleteMutex = some thread) (position : state'.call = .idle) :
    ¬ Sleeping ⟨pool', Function.update before.threads thread state'⟩ := by
  obtain ⟨-, asserted⟩ := assertion_of_reachable reach
  rintro ⟨sleeper, member | blocking⟩
  · simp [nobody] at member
  · by_cases same : sleeper = thread
    · subst same
      simp [position] at blocking
    · simp only [Function.update_of_ne same] at blocking
      have held' := (asserted sleeper).held.mpr (by simp [blocking, CallPc.holds])
      exact absurd (Option.some.inj (held'.symm.trans held)) same

/-- Each step keeps the wake-up of every sleeper due. -/
theorem due_step {before after : Config Tid} {label : Tid × Action Tid}
    (reach : (program width workers).system.Reachable before)
    (step : (program width workers).system.Step before label after)
    (due : Sleeping before → Due workers before) (sleeping : Sleeping after) :
    Due workers after := by
  have reach' := reach.step step
  have positive := width_pos_of_sleeping reach' sleeping
  have counter := counter_mod_of_reachable reach
  have counter' := counter_mod_of_reachable reach'
  have counted := (counted_subperm reach).length_le
  obtain ⟨thread, action⟩ := label
  obtain ⟨pool', state', change, rfl⟩ := exists_stepCase reach step
  obtain ⟨-, asserted⟩ := assertion_of_reachable reach
  have power := Nat.one_lt_two_pow positive.ne'
  cases (asserted thread).sleepStep change with
  | tested several =>
      refine Or.inl (Nat.lt_of_not_le fun none => several ?_)
      rw [counter', Nat.sub_eq_zero_of_le none, Nat.zero_mod]
  | added task added counted' =>
      refine Or.inl ?_
      dsimp only
      rw [added, counted', List.length_append, List.length_singleton]
      omega
  | more task several position added counted' =>
      have held : (before.threads thread).loop.held = some task := by
        rw [position]
        rfl
      have uncounted := counted_lt_added reach held
      refine Or.inl ?_
      dsimp only
      rw [added, counted', List.length_append, List.length_singleton]
      by_contra none
      rw [show before.shared.added.length - before.shared.counted.length = 1 by omega,
        Nat.mod_eq_of_lt power] at counter
      exact several counter
  | owes owes =>
      have owes' : ((Function.update before.threads thread state') thread).loop.owesNotify =
          true := by simpa using owes
      exact Or.inr ⟨thread, mem_workers_of_owesNotify reach' owes', owes'⟩
  | notified nobody held position =>
      exact absurd sleeping (not_sleeping_of_notified reach nobody held position)
  | kept taskCount owes members blocks =>
      have sleeping' := sleeping.of_kept members blocks
      rcases due sleeping' with outstanding | ⟨worker, member, owes'⟩
      · refine Or.inl ?_
        dsimp only
        cases change.counterStep with
        | same _ added counted' => rwa [added, counted']
        | add task _ added counted' =>
            rw [added, counted', List.length_append]
            omega
        | sub task _ taskCount' _ _ =>
            rw [taskCount] at taskCount'
            exact absurd taskCount'.symm (sub_one_mod_ne power (counter ▸ Nat.mod_lt _ (by omega)))
      · refine Or.inr ⟨worker, member, ?_⟩
        by_cases same : worker = thread
        · subst same
          simpa using owes owes'
        · simpa [same] using owes'

/-- Whenever a thread sleeps in `wait_all`, or is about to, tasks are outstanding or a worker is
about to notify it. -/
theorem due_of_sleeping (reach : (program width workers).system.Reachable config)
    (sleeping : Sleeping config) : Due workers config := by
  refine reach.invariant (motive := fun config => Sleeping config → Due workers config) ?_ ?_
    sleeping
  · rintro ⟨pool, threads⟩ ⟨rfl, rfl⟩ ⟨sleeper, member | blocking⟩
    · simp [initial] at member
    · simp [initial] at blocking
  · rintro before label after earlier due step sleeping
    exact due_step earlier step due sleeping

/-- Whenever a thread is blocked in `wait_all` and not notified, tasks are outstanding or a worker
is about to notify it. -/
theorem wakeUpDue_of_blocked
    (reach : ((program width workers).system.restrict (InUse width)).Reachable config)
    (blocked : (config.threads thread).call = .waiting ∧ thread ∈ config.shared.tasksComplete) :
    WakeUpDue workers config := by
  have counter := counter_of_reachable reach
  rcases due_of_sleeping reach.of_restrict ⟨thread, Or.inl blocked.2⟩ with outstanding | owed
  · exact Or.inl (by omega)
  · exact Or.inr owed

/-- A client sleeps while the worker that counted the last task down is about to notify. -/
theorem wakeUpDue_of_blocked_last : ∃ config : Config (Fin 2),
    (config.shared.taskCount = 0 ∧ (config.threads 1).call = .waiting) ∧
      WakeUpDue [0] config := by
  have blocked : ∃ config, ((program 32 [(0 : Fin 2)]).system.restrict (InUse 32)).Run
      (initial [0]) (submission 1 ++ (1, .call .waitAll) :: List.replicate 3 (1, .run) ++
        service 0) config ∧
      (config.shared.taskCount = 0 ∧ (config.threads 1).call = .waiting ∧
        1 ∈ config.shared.tasksComplete) :=
    Program.exists_run_of_execute (by decide +kernel)
  obtain ⟨config, run, zero, waiting, member⟩ := blocked
  exact ⟨config, ⟨zero, waiting⟩,
    wakeUpDue_of_blocked (run.reachable initial_reachable) ⟨waiting, member⟩⟩

end ThreadPool
end ConcurrencyCourse
