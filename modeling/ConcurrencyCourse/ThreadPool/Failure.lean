import ConcurrencyCourse.ThreadPool.Unwinding

/-!
# When the constructor fails cleanly

Once `done` is set, every step of a worker brings it nearer to its exit, and every step of the
constructing thread brings it nearer to the end of the unwinding.  When the growth of the vector
throws, the constructing thread joins the worker it has just started while `done` is false.
-/

namespace ConcurrencyCourse
namespace ThreadPool

/-! ## The rank -/

/-- Number of steps that a worker without a task still takes once `done` is set. -/
def LoopPc.exitRank : LoopPc → Nat
  | .tryPop .tryLock => 7
  | .tryPop .tryTest => 6
  | .tryPop (.tryUnlock _) => 5
  | .tryPop (.returning _) => 4
  | .yield => 3
  | .dropTask _ => 2
  | .testDone => 1
  | _ => 0

/-- Number of steps to the end of the unwinding when that many threads have been started. -/
def ConstructorPc.unwindRank (started : Nat) : ConstructorPc → Nat
  | .unwinding (.destroying rest) =>
      rest.length + 1 + if .threads ∈ rest then started + 1 else 0
  | .unwinding (.joining remaining rest) => rest.length + remaining.length + 2
  | _ => 0

/-- The rank of a thread. -/
def ThreadState.rank (started : Nat) : ThreadState → Nat
  | .constructing pc => pc.unwindRank started
  | .working loop => loop.exitRank

/-- Number of steps to the end of the constructor once `done` is set. -/
def unwindingRank (config : ConstructionConfig) : Nat :=
  (config.threads none).rank config.shared.started +
    ∑ worker ∈ Finset.range config.shared.started,
      (config.threads (some worker)).rank config.shared.started

variable {width threadCount worker : Nat} {failure : Option FailurePoint} {action : Action Nat}
  {pool pool' : Pool Nat} {loop loop' : LoopPc} {config before after : ConstructionConfig}

theorem SearchCase.exitRank_lt (step : SearchCase worker pool loop pool' loop')
    (done : pool.done = true) : loop'.exitRank < loop.exitRank := by
  cases step with
  | enter running => simp [running] at done
  | _ => simp [LoopPc.exitRank]

/-- Where the constructing thread is once `done` is set. -/
theorem Progress.unwinding_or_threw {construction : Construction} {pc : ConstructorPc}
    (progress : Progress threadCount construction pc) (done : construction.pool.done = true) :
    (∃ call, pc = .unwinding call) ∨ pc = .threw := by
  cases pc with
  | createThread | pushBack =>
      obtain ⟨-, running, -⟩ := progress
      simp [running] at done
  | destroyTemporary => exact progress.elim
  | catchHandler =>
      obtain ⟨running, -⟩ := progress
      simp [running] at done
  | unwinding call => exact Or.inl ⟨call, rfl⟩
  | threw => exact Or.inr rfl
  | returned =>
      have running : construction.pool.done = false := progress
      simp [running] at done

theorem Progress.unwindRank_lt {construction : Construction} {call call' : CallPc Nat}
    (progress : Progress threadCount construction (.unwinding call))
    (step : destroyStep .run construction.pool call = some (pool', call')) :
    pool'.done = construction.pool.done ∧
      (if call' = .idle then ConstructorPc.threw else .unwinding call').unwindRank
          construction.started <
        (ConstructorPc.unwinding call).unwindRank construction.started := by
  have change : CallCase 0 0 construction.pool .run call pool' call' := destroyStep_cases step
  cases change with
  | destroyed => exact ⟨rfl, by simp [ConstructorPc.unwindRank]⟩
  | joinAll rest =>
      obtain ⟨-, -, threads, -⟩ := progress
      refine ⟨rfl, ?_⟩
      simp only [reduceCtorEq, if_false, ConstructorPc.unwindRank, List.length_cons,
        List.mem_cons_self, if_true, threads, List.length_range]
      omega
  | @destroy member rest notThreads =>
      refine ⟨rfl, ?_⟩
      simp only [reduceCtorEq, if_false, ConstructorPc.unwindRank, List.length_cons,
        List.mem_cons, notThreads.symm, false_or]
      omega
  | joined rest =>
      obtain ⟨-, -, fresh, -⟩ := progress
      exact ⟨rfl, by simp [ConstructorPc.unwindRank, fresh]⟩
  | join remaining rest =>
      refine ⟨rfl, ?_⟩
      simp only [reduceCtorEq, if_false, ConstructorPc.unwindRank, List.length_cons]
      omega
  | _ => exact progress.elim

/-! ## Every step lowers it -/

theorem ConstructionAssertion.constructing {construction : Construction} {state : ThreadState}
    (assertion : ConstructionAssertion threadCount none construction state) :
    ∃ pc, state = .constructing pc ∧ Progress threadCount construction pc := by
  cases state with
  | constructing pc => exact ⟨pc, rfl, assertion⟩
  | working => exact assertion.elim

theorem ConstructionAssertion.working {construction : Construction} {state : ThreadState}
    (assertion : ConstructionAssertion threadCount (some worker) construction state) :
    ∃ loop, state = .working loop ∧ Searches worker construction loop := by
  cases state with
  | constructing => exact assertion.elim
  | working loop => exact ⟨loop, rfl, assertion⟩

theorem unwindingRank_lt (grows : ∀ i < threadCount, failure ≠ some (.growVector i))
    (reach : (construction width threadCount failure).system.Reachable before)
    (done : before.shared.pool.done = true) {label : Option Nat × Action Nat}
    (step : (construction width threadCount failure).system.Step before label after) :
    after.shared.pool.done = true ∧ unwindingRank after < unwindingRank before := by
  obtain ⟨noTasks, asserted⟩ := assertion_of_construction grows reach
  obtain ⟨thread, action⟩ := label
  obtain ⟨construction', state', taken, rfl⟩ := Program.system_step_iff.mp step
  rcases constructionStep_cases taken with ⟨pc, pc', rfl, position, rfl, moved⟩ |
    ⟨worker, loop, pool', loop', rfl, position, rfl, started, rfl, moved⟩
  · have progress : Progress threadCount before.shared pc := by
      simpa only [ConstructionAssertion, position] using asserted none
    rcases progress.unwinding_or_threw done with ⟨call, rfl⟩ | rfl
    · obtain ⟨⟨pool', call'⟩, destroyed, same⟩ := Option.map_eq_some_iff.mp moved
      cases same
      obtain ⟨kept, lower⟩ := progress.unwindRank_lt destroyed
      refine ⟨kept.trans done, ?_⟩
      simp only [unwindingRank, position, Function.update_self, ThreadState.rank, ne_eq,
        reduceCtorEq, not_false_eq_true, Function.update_of_ne]
      omega
    · simp [constructorStep] at moved
  · have searches : Searches worker before.shared loop := by
      simpa only [ConstructionAssertion, position] using asserted (some worker)
    have search := searches.searchCase noTasks moved
    refine ⟨search.kept.1.trans done, ?_⟩
    simp only [unwindingRank, ne_eq, reduceCtorEq, not_false_eq_true, Function.update_of_ne]
    refine Nat.add_lt_add_left (Finset.sum_lt_sum (fun other _ => ?_)
      ⟨worker, Finset.mem_range.mpr started, ?_⟩) _
    · by_cases same : other = worker
      · subst same
        simpa [position, ThreadState.rank] using (search.exitRank_lt done).le
      · simp [same]
    · simpa [position, ThreadState.rank] using search.exitRank_lt done

/-! ## The unwinding does not stop -/

/-- A worker without a task can take a step unless it needs a mutex that is held. -/
theorem LoopPc.enabled_of_searching (width worker : Nat) (pool : Pool Nat)
    (searching : loop.searching = true) (alive : loop ≠ .exited)
    (free : loop = .tryPop .tryLock → pool.workQueue.mutex = none) :
    ∃ action, (loopStep width worker action pool loop).isSome = true := by
  cases loop with
  | testDone =>
      refine ⟨.run, ?_⟩
      cases done : pool.done <;> simp [loopStep, done]
  | tryPop pc =>
      cases pc with
      | tryLock =>
          refine ⟨.queue .run, ?_⟩
          simp [loopStep, SimpleQueue.callStep, SimpleQueue.pushStep, SimpleQueue.tryStep,
            SimpleQueue.Queue.lock, free rfl]
      | tryTest | tryUnlock => exact ⟨.queue .run, rfl⟩
      | returning result =>
          cases result with
          | popped value => cases value <;> exact ⟨.run, rfl⟩
          | _ => simp [LoopPc.searching] at searching
      | _ => simp [LoopPc.searching] at searching
  | yield | dropTask => exact ⟨.run, rfl⟩
  | exited => exact absurd rfl alive
  | _ => simp [LoopPc.searching] at searching

theorem exists_step_of_worker (position : config.threads (some worker) = .working loop)
    (started : worker < config.shared.started)
    (enabled : ∃ action, (loopStep width worker action config.shared.pool loop).isSome = true) :
    ∃ label next, (construction width threadCount failure).system.Step config label next := by
  obtain ⟨action, enabled⟩ := enabled
  refine Program.exists_step_of_enabled (some worker) action ?_
  simpa [construction, position, constructionStep, started] using enabled

/-- While a worker that has been started has not returned, some worker can take a step. -/
theorem exists_step_of_unfinished (grows : ∀ i < threadCount, failure ≠ some (.growVector i))
    (reach : (construction width threadCount failure).system.Reachable config)
    (started : worker < config.shared.started)
    (unfinished : worker ∉ config.shared.pool.finished) :
    ∃ label next, (construction width threadCount failure).system.Step config label next := by
  obtain ⟨-, asserted⟩ := assertion_of_construction grows reach
  obtain ⟨loop, position, searches⟩ := (asserted (some worker)).working
  have alive : loop ≠ .exited := fun exited => unfinished (searches.finished.mpr exited)
  cases held : config.shared.pool.workQueue.mutex with
  | none =>
      exact exists_step_of_worker position started
        (loop.enabled_of_searching width worker _ searches.searching alive fun _ => held)
  | some holder =>
      -- The worker may wait for the mutex of the queue; its holder is past the lock.
      obtain ⟨inner, position', holds⟩ := (asserted (some holder)).working
      have locks := holds.locksQueue.mp held
      have begun : holder < config.shared.started := by
        by_contra above
        rw [holds.waits (Nat.le_of_not_lt above)] at locks
        simp [LoopPc.locksQueue] at locks
      refine exists_step_of_worker position' begun
        (inner.enabled_of_searching width holder _ holds.searching ?_ ?_)
      · rintro rfl
        simp [LoopPc.locksQueue] at locks
      · rintro rfl
        simp [LoopPc.locksQueue] at locks

/-- Once `done` is set, the constructor has ended with the exception or some thread can take a
step. -/
theorem ended_or_exists_step (grows : ∀ i < threadCount, failure ≠ some (.growVector i))
    (reach : (construction width threadCount failure).system.Reachable config)
    (done : config.shared.pool.done = true) : EndedByException config ∨
      ∃ label next, (construction width threadCount failure).system.Step config label next := by
  obtain ⟨-, asserted⟩ := assertion_of_construction grows reach
  obtain ⟨pc, position, progress⟩ := (asserted none).constructing
  rcases progress.unwinding_or_threw done with ⟨call, rfl⟩ | rfl
  · right
    have enabled (moves : (destroyStep .run config.shared.pool call).isSome = true) :
        ∃ label next, (construction width threadCount failure).system.Step config label next := by
      refine Program.exists_step_of_enabled none .run ?_
      simpa [construction, position, constructionStep, constructorStep] using moves
    cases call with
    | destroying rest =>
        cases rest with
        | nil => exact enabled rfl
        | cons member rest => cases member <;> exact enabled rfl
    | joining remaining rest =>
        cases remaining with
        | nil => exact enabled rfl
        | cons worker remaining =>
            obtain ⟨-, -, -, -, joined⟩ := progress
            have started : worker < config.shared.started :=
              List.mem_range.mp (joined ▸ List.mem_append_right _ List.mem_cons_self)
            by_cases finished : worker ∈ config.shared.pool.finished
            · exact enabled (by simp [destroyStep, finished])
            · exact exists_step_of_unfinished grows reach started finished
    | _ => exact progress.elim
  · exact Or.inl ⟨position, progress.2⟩

/-! ## The join of a running worker -/

theorem step_of_constructorStep {construction' : Construction} {pc pc' : ConstructorPc}
    (position : config.threads none = .constructing pc)
    (moved : constructorStep threadCount failure config.shared pc = some (construction', pc')) :
    (construction width threadCount failure).system.Step config (none, .run)
      ⟨construction', Function.update config.threads none (.constructing pc')⟩ := by
  refine Program.system_step_iff.mpr ⟨construction', .constructing pc', ?_, rfl⟩
  simp [construction, position, constructionStep, moved]

theorem exists_pushBack {i k : Nat} (within : k < threadCount)
    (reach : (construction width threadCount (some (.growVector i))).system.Reachable config)
    (position : config.threads none = .constructing (.createThread k)) :
    ∃ after, (construction width threadCount (some (.growVector i))).system.Reachable after ∧
      after.threads none = .constructing (.pushBack k) ∧
      after.shared.pool = config.shared.pool := by
  have created : constructorStep threadCount (some (.growVector i)) config.shared
      (.createThread k) = some ({ config.shared with started := k + 1 }, .pushBack k) := by
    simp [constructorStep, within]
  exact ⟨_, reach.step (step_of_constructorStep position created), by simp, rfl⟩

/-- The constructing thread comes to every iteration up to the one that fails, while the workers
have not begun. -/
theorem exists_iteration {i : Nat} (bounded : i < threadCount) (k : Nat) (early : k ≤ i) :
    ∃ config, (construction width threadCount (some (.growVector i))).system.Reachable config ∧
      config.threads none = .constructing (.createThread k) ∧
      config.shared.pool.done = false ∧ config.shared.pool.finished = ∅ := by
  induction k with
  | zero => exact ⟨beginConstruction, .initial ⟨rfl, rfl⟩, rfl, rfl, rfl⟩
  | succ k ih =>
      obtain ⟨config, reach, position, running, unfinished⟩ := ih (Nat.le_of_succ_le early)
      obtain ⟨created, reach, position, same⟩ :=
        exists_pushBack ((Nat.lt_of_succ_le early).trans bounded) reach position
      have other : i ≠ k := (Nat.lt_of_succ_le early).ne'
      have pushed : constructorStep threadCount (some (.growVector i)) created.shared
          (.pushBack k) = some ({ created.shared with
            pool := { created.shared.pool with threads := created.shared.pool.threads ++ [k] } },
            .createThread (k + 1)) := by
        simp [constructorStep, other]
      exact ⟨_, reach.step (step_of_constructorStep position pushed), by simp,
        by simpa [same] using running, by simpa [same] using unfinished⟩

/-- When the growth of the vector fails, the constructing thread joins a running worker. -/
theorem exists_joinsRunning (width : Nat) {i : Nat} (bounded : i < threadCount) :
    ∃ config, (construction width threadCount (some (.growVector i))).system.Reachable config ∧
      JoinsRunning config := by
  obtain ⟨config, reach, position, running, unfinished⟩ := exists_iteration bounded i le_rfl
  obtain ⟨created, reach, position, same⟩ := exists_pushBack bounded reach position
  have thrown : constructorStep threadCount (some (.growVector i)) created.shared (.pushBack i) =
      some (created.shared, .destroyTemporary i) := by
    simp [constructorStep]
  refine ⟨_, reach.step (step_of_constructorStep position thrown), by simpa [same] using running,
    i, ?_, Or.inl (by simp)⟩
  simp [same, unfinished]

/-- While `done` is false, no worker returns. -/
theorem loopStep_of_running (running : pool.done = false)
    (step : loopStep width worker action pool loop = some (pool', loop')) :
    pool'.done = false ∧ pool'.finished = pool.finished := by
  unfold loopStep at step
  split at step
  · simp only [running, Bool.false_eq_true, if_false] at step
    cases step
    exact ⟨running, rfl⟩
  · simp at step
  · obtain ⟨result, -, same⟩ := Option.map_eq_some_iff.mp step
    cases same
    exact ⟨running, rfl⟩
  case h_8 =>
    obtain ⟨_, locked, same⟩ := Option.map_eq_some_iff.mp step
    cases same
    obtain ⟨-, rfl⟩ := Pool.lock_eq_some locked
    exact ⟨running, rfl⟩
  all_goals cases step <;> exact ⟨running, rfl⟩

/-- A constructing thread in the destructor of the temporary never leaves it. -/
theorem destroyTemporary_forever {i : Nat} {trace : List (Option Nat × Action Nat)}
    (run : (construction width threadCount failure).system.Run before trace after)
    (position : before.threads none = .constructing (.destroyTemporary i))
    (running : before.shared.pool.done = false) (unfinished : i ∉ before.shared.pool.finished) :
    after.threads none = .constructing (.destroyTemporary i) ∧
      after.shared.pool.done = false ∧ i ∉ after.shared.pool.finished := by
  induction run with
  | nil => exact ⟨position, running, unfinished⟩
  | @snoc trace middle after label _ step ih =>
      obtain ⟨position, running, unfinished⟩ := ih
      obtain ⟨thread, action⟩ := label
      obtain ⟨construction', state', taken, rfl⟩ := Program.system_step_iff.mp step
      rcases constructionStep_cases taken with ⟨pc, pc', rfl, position', rfl, moved⟩ |
        ⟨worker, loop, pool', loop', rfl, position', rfl, started, rfl, moved⟩
      · obtain rfl : pc = .destroyTemporary i := by simpa [position] using position'.symm
        simp [constructorStep, unfinished] at moved
      · obtain ⟨running', same⟩ := loopStep_of_running running moved
        exact ⟨by simpa using position, running', by simpa [same] using unfinished⟩

/-! ## When the constructor fails cleanly -/

/-- The constructing thread never joins a worker while `done` is false; while the stack is unwound,
its next step sets `done`; and once `done` is set, every run comes to the end. -/
def FailsCleanly (width threadCount : Nat) (failure : Option FailurePoint) : Prop :=
  ∀ config, (construction width threadCount failure).system.Reachable config →
    ¬ JoinsRunning config ∧
    ∀ pc, config.threads none = .constructing pc → pc.unwinds = true →
      (config.shared.pool.done = false → ∃ after, after.shared.pool.done = true ∧
        (construction width threadCount failure).system.Step config (none, .run) after) ∧
      (config.shared.pool.done = true →
        (construction width threadCount failure).system.Inevitable EndedByException config)

theorem Progress.joins_done {construction : Construction} {pc : ConstructorPc}
    (progress : Progress threadCount construction pc) (worker : Nat)
    (joins : pc = .destroyTemporary worker ∨
      ∃ remaining rest, pc = .unwinding (.joining (worker :: remaining) rest)) :
    construction.pool.done = true := by
  rcases joins with rfl | ⟨remaining, rest, rfl⟩
  · exact progress.elim
  · exact progress.1

theorem Progress.catchHandler_of_running {construction : Construction} {pc : ConstructorPc}
    (progress : Progress threadCount construction pc) (unwinds : pc.unwinds = true)
    (running : construction.pool.done = false) : pc = .catchHandler := by
  cases pc with
  | createThread | pushBack | returned => simp [ConstructorPc.unwinds] at unwinds
  | destroyTemporary => exact progress.elim
  | catchHandler => rfl
  | unwinding call =>
      cases call with
      | destroying | joining => exact absurd (progress.1.symm.trans running) (by decide)
      | _ => exact progress.elim
  | threw => exact absurd (progress.1.symm.trans running) (by decide)

/-- The constructor fails cleanly unless the operation that fails is the growth of the vector. -/
theorem failsCleanly_iff (width threadCount : Nat) (failure : Option FailurePoint) :
    FailsCleanly width threadCount failure ↔
      ∀ i < threadCount, failure ≠ some (.growVector i) := by
  constructor
  · rintro clean i bounded rfl
    obtain ⟨config, reach, joins⟩ := exists_joinsRunning width bounded
    exact (clean config reach).1 joins
  · intro grows config reach
    obtain ⟨-, asserted⟩ := assertion_of_construction grows reach
    obtain ⟨pc, position, progress⟩ := (asserted none).constructing
    constructor
    · rintro ⟨running, worker, -, joins⟩
      have done := progress.joins_done worker (by simpa [position] using joins)
      simp [running] at done
    rintro pc' position' unwinds
    obtain rfl : pc = pc' := by simpa [position] using position'
    constructor
    · intro running
      obtain rfl := progress.catchHandler_of_running unwinds running
      exact ⟨_, rfl, step_of_constructorStep position rfl⟩
    · intro done
      refine TransitionSystem.inevitable_of_decreasing
        (motive := fun config => (construction width threadCount failure).system.Reachable config ∧
          config.shared.pool.done = true) unwindingRank ⟨reach, done⟩ ?_ ?_
      · rintro before label next ⟨reach, done⟩ step
        obtain ⟨kept, lower⟩ := unwindingRank_lt grows reach done step
        exact ⟨⟨reach.step step, kept⟩, lower⟩
      · rintro before ⟨reach, done⟩
        exact ended_or_exists_step grows reach done

/-- With one worker and a vector that cannot grow, the constructing thread joins that worker and
never returns from the join. -/
theorem joins_forever_of_growVector : ∃ config,
    (construction 32 1 (some (.growVector 0))).system.Reachable config ∧ JoinsRunning config ∧
      ∀ trace after, (construction 32 1 (some (.growVector 0))).system.Run config trace after →
        JoinsRunning after := by
  have schedule : ∃ config : ConstructionConfig,
      ((construction 32 1 (some (.growVector 0))).system.restrict fun _ _ _ => True).Run
        beginConstruction [(none, .run), (none, .run), (some 0, .run)] config ∧
        config.threads none = .constructing (.destroyTemporary 0) ∧
        config.shared.pool.done = false ∧ 0 ∉ config.shared.pool.finished :=
    Program.exists_run_of_execute (by decide)
  obtain ⟨config, run, position, running, unfinished⟩ := schedule
  refine ⟨config, run.of_restrict.reachable (.initial ⟨rfl, rfl⟩),
    ⟨running, 0, unfinished, Or.inl position⟩, fun trace after later => ?_⟩
  obtain ⟨position, running, unfinished⟩ :=
    destroyTemporary_forever later position running unfinished
  exact ⟨running, 0, unfinished, Or.inl position⟩

end ThreadPool
end ConcurrencyCourse
