import ConcurrencyCourse.ThreadPool.Destruction

/-!
# After the workers have been joined

The destruction of `threads` ends when every worker has returned from `worker_thread`.  From then on
nobody runs tasks: a task whose submit has returned has been run exactly once, or is still in the
queue, where the destruction of `work_queue` drops it.
-/

namespace ConcurrencyCourse
namespace ThreadPool

variable {Tid : Type*} [DecidableEq Tid] {width : Nat} {workers : List Tid} {thread : Tid}
  {pool pool' : Pool Tid} {state state' : Local Tid} {action : Action Tid} {task : Task}
  {config : Config Tid}

/-! ## What the destructor waits for -/

/-- The workers that the destructor has still to join. -/
def CallPc.unjoined : CallPc Tid → Option (List Tid)
  | .joining remaining _ => some remaining
  | _ => none

/-- Whoever has been joined has finished, and `threads` is destroyed after that. -/
structure Joined (workers : List Tid) (config : Config Tid) : Prop where
  threads : config.shared.threads = workers
  finished : ∀ worker ∈ config.shared.finished, (config.threads worker).loop = .exited
  joining : ∀ thread remaining, (config.threads thread).call.unjoined = some remaining →
    ∀ worker ∈ workers, worker ∈ remaining ∨ worker ∈ config.shared.finished
  joined : .threads ∈ config.shared.destroyed → ∀ worker ∈ workers, worker ∈ config.shared.finished

/-- What a step does for the destructor's joins. -/
inductive JoinStep (pool : Pool Tid) (call : CallPc Tid) (pool' : Pool Tid) (call' : CallPc Tid) :
    Prop
  | outside : pool'.destroyed = pool.destroyed ∨
      (∃ member, member ≠ Member.threads ∧ pool'.destroyed = member :: pool.destroyed) →
      call'.unjoined = none → JoinStep pool call pool' call'
  | begin : pool'.destroyed = pool.destroyed → call'.unjoined = some pool.threads →
      JoinStep pool call pool' call'
  | join {worker : Tid} {remaining : List Tid} : worker ∈ pool.finished →
      pool'.destroyed = pool.destroyed → call.unjoined = some (worker :: remaining) →
      call'.unjoined = some remaining → JoinStep pool call pool' call'
  | joined : call.unjoined = some [] → call'.unjoined = none → JoinStep pool call pool' call'

theorem StepCase.joinStep (step : StepCase width thread pool action state pool' state') :
    pool'.threads = pool.threads ∧ pool.finished ⊆ pool'.finished ∧
      JoinStep pool state.call pool' state'.call := by
  cases step with
  | submit | waitAll | destroy =>
      exact ⟨rfl, Finset.Subset.refl _, .outside (Or.inl rfl) rfl⟩
  | loop taken =>
      cases taken with
      | exit => exact ⟨rfl, Finset.subset_insert _ _, .outside (Or.inl rfl) rfl⟩
      | enter | tryPop | took | nothing | ran | last | more | lock | notifyAll | unlock | yield
      | drop => exact ⟨rfl, Finset.Subset.refl _, .outside (Or.inl rfl) rfl⟩
  | call _ taken =>
      refine ⟨?_, ?_, ?_⟩
      · cases taken <;> rfl
      · cases taken <;> exact Finset.Subset.refl _
      · cases taken with
        | joinAll rest => exact .begin rfl rfl
        | destroy rest other => exact .outside (Or.inr ⟨_, other, rfl⟩) rfl
        | joined rest => exact .joined rfl rfl
        | join remaining rest ended => exact .join ended rfl rfl rfl
        | add | convert | throwConvert | push | submitted | threw | lock | testZero | testMore
        | block | wake | relock | unlock | setDone | destroyed => exact .outside (Or.inl rfl) rfl

theorem joined_of_reachable (reach : (program width workers).system.Reachable config) :
    Joined workers config := by
  refine reach.invariant (motive := Joined workers) ?_ ?_
  · rintro ⟨pool, threads⟩ ⟨rfl, rfl⟩
    exact ⟨rfl, nofun, nofun, nofun⟩
  · rintro before ⟨thread, action⟩ after earlier ⟨threads, finished, joining, joined⟩ step
    obtain ⟨pool', state', change, rfl⟩ := exists_stepCase earlier step
    obtain ⟨same, grows, joins⟩ := change.joinStep
    obtain ⟨-, stays, ends⟩ := change.finishing
    refine ⟨same.trans threads, fun worker member => ?_, fun other remaining position => ?_, ?_⟩
    · rcases ends worker member with earlier | ⟨rfl, exited⟩
      · exact change.loop_exited worker (finished worker earlier)
      · simpa using exited
    · by_cases own : other = thread
      · subst own
        simp only [Function.update_self] at position
        cases joins with
        | outside _ none | joined _ none => simp [none] at position
        | begin _ all =>
            obtain rfl := Option.some.inj (all.symm.trans position)
            exact fun worker member => Or.inl (by rwa [threads])
        | @join joiner _ ended _ earlier rest =>
            obtain rfl := Option.some.inj (rest.symm.trans position)
            intro worker member
            rcases joining other _ earlier worker member with waits | ended'
            · rcases List.mem_cons.mp waits with rfl | waits
              · exact Or.inr (grows ended)
              · exact Or.inl waits
            · exact Or.inr (grows ended')
      · simp only [Function.update_of_ne own] at position
        exact fun worker member => (joining other remaining position worker member).imp_right
          fun ended => grows ended
    · intro gone worker member
      have earlier (gone : .threads ∈ before.shared.destroyed) := grows (joined gone worker member)
      cases joins with
      | outside destroyed _ =>
          rcases destroyed with same | ⟨destroyed, other, same⟩
          · exact earlier (same ▸ gone)
          · rw [same] at gone
            exact earlier ((List.mem_cons.mp gone).resolve_left other.symm)
      | begin same _ | join _ same _ _ => exact earlier (same ▸ gone)
      | joined all _ =>
          exact grows ((joining thread [] all worker member).resolve_left List.not_mem_nil)

/-! ## What has been submitted is in the queue -/

/-- The task that a submit has put into the queue. -/
def CallPc.queued : CallPc Tid → Option Task
  | .submitPush task .pushNotify | .submitPush task .pushUnlock
  | .submitPush task (.returning .pushed) => some task
  | _ => none

/-- What a step does to the tasks whose submit has returned. -/
inductive ReturnStep (pool : Pool Tid) (call : CallPc Tid) (pool' : Pool Tid) (call' : CallPc Tid) :
    Prop
  | same : pool'.returned = pool.returned → pool.workQueue.pushed ⊆ pool'.workQueue.pushed →
      (call'.queued = none ∨ call'.queued = call.queued ∨
        ∃ task ∈ pool'.workQueue.pushed, call'.queued = some task) →
      ReturnStep pool call pool' call'
  | returned (task : Task) : call.queued = some task → pool'.returned = pool.returned ++ [task] →
      pool'.workQueue.pushed = pool.workQueue.pushed → call'.queued = none →
      ReturnStep pool call pool' call'

theorem StepCase.returnStep (step : StepCase width thread pool action state pool' state')
    (consistent : Consistent state) : ReturnStep pool state.call pool' state'.call := by
  cases step with
  | submit | waitAll | destroy => exact .same rfl (List.Subset.refl _) (Or.inl rfl)
  | loop taken =>
      refine .same ?_ ?_ (Or.inr (Or.inl rfl))
      · cases taken <;> rfl
      · cases taken with
        | tryPop taken within => cases taken <;> exact List.Subset.refl _
        | _ => exact List.Subset.refl _
  | call _ taken =>
      cases taken with
      | push task taken within =>
          cases taken with
          | lock => exact .same rfl (List.Subset.refl _) (Or.inl rfl)
          | emplace newValue =>
              obtain rfl : newValue = task := consistent.pushes task _ rfl
              exact .same rfl (List.subset_append_left _ _)
                (Or.inr (Or.inr ⟨newValue, by simp, rfl⟩))
          | throwEmplace | unwind => exact .same rfl (List.Subset.refl _) (Or.inl rfl)
          | notifyNobody | notify | unlock =>
              exact .same rfl (List.Subset.refl _) (Or.inr (Or.inl rfl))
      | submitted task => exact .returned task rfl rfl rfl rfl
      | add | convert | throwConvert | threw | lock | testZero | testMore | block | wake | relock
      | unlock | setDone | destroyed | joinAll | destroy | joined | join =>
          exact .same rfl (List.Subset.refl _) (Or.inl rfl)

theorem returned_subset_pushed (reach : (program width workers).system.Reachable config) :
    config.shared.returned ⊆ config.shared.workQueue.pushed := by
  refine (reach.invariant (motive := fun config =>
    config.shared.returned ⊆ config.shared.workQueue.pushed ∧
      ∀ thread task, (config.threads thread).call.queued = some task →
        task ∈ config.shared.workQueue.pushed) ?_ ?_).1
  · rintro ⟨pool, threads⟩ ⟨rfl, rfl⟩
    exact ⟨List.Subset.refl _, nofun⟩
  · rintro before ⟨thread, action⟩ after earlier ⟨returned, queued⟩ step
    obtain ⟨pool', state', change, rfl⟩ := exists_stepCase earlier step
    have consistent := ((assertion_of_reachable earlier).2 thread).consistent
    have others (grows : before.shared.workQueue.pushed ⊆ pool'.workQueue.pushed)
        (mine : ∀ task, state'.call.queued = some task → task ∈ pool'.workQueue.pushed)
        (other : Tid) (task : Task)
        (position : (Function.update before.threads thread state' other).call.queued = some task) :
        task ∈ pool'.workQueue.pushed := by
      by_cases own : other = thread
      · subst own
        exact mine task (by simpa using position)
      · exact grows (queued other task (by simpa [own] using position))
    cases change.returnStep consistent with
    | same same grows now =>
        refine ⟨by rw [same]; exact List.Subset.trans returned grows,
          others grows fun task position => ?_⟩
        rcases now with none | kept | ⟨other, member, pushed⟩
        · simp [none] at position
        · exact grows (queued thread task (kept ▸ position))
        · obtain rfl := Option.some.inj (pushed.symm.trans position)
          exact member
    | returned task position same pushed none =>
        refine ⟨?_, others (by rw [pushed]; exact List.Subset.refl _) (by simp [none])⟩
        rw [same, pushed]
        exact List.append_subset.mpr
          ⟨returned, List.cons_subset.mpr ⟨queued thread task position, List.nil_subset _⟩⟩

variable [Fintype Tid]

theorem count_pushed_le (reach : (program width workers).system.Reachable config) (task : Task) :
    config.shared.workQueue.pushed.count task ≤ 1 := by
  have ledger := ledger_of_reachable reach task
  have issued : config.shared.issued task ≤ 1 := by
    unfold Pool.issued
    split <;> omega
  have pushed := ledger.pushed
  have added := ledger.added
  omega

/-- Once `threads` has been destroyed, every worker has left `worker_thread`, and a task whose
submit has returned has been run to its end exactly once by one of them and is not stored, or it has
not been started and is stored once.  An access to a destroyed member is a step like any other
here. -/
theorem run_or_stored_of_joined (reach : (program width workers).system.Reachable config)
    (joined : .threads ∈ config.shared.destroyed) :
    (∀ worker ∈ workers, (config.threads worker).loop = .exited) ∧
      ∀ task ∈ config.shared.returned,
        ExactlyOnce workers config.shared.completed task ∧
            config.shared.workQueue.contents.count task = 0 ∨
          (∀ worker, (worker, task) ∉ config.shared.workQueue.removed) ∧
            config.shared.workQueue.contents.count task = 1 := by
  have joins := joined_of_reachable reach
  have exited (worker : Tid) (member : worker ∈ workers) :
      (config.threads worker).loop = .exited :=
    joins.finished worker (joins.joined joined worker member)
  refine ⟨exited, fun task member => ?_⟩
  have roles := roles_of_reachable reach
  have unheld : Program.sumThreads (fun state : Local Tid => state.loop.held.toList.count task)
      config.threads = 0 := by
    refine Program.sumThreads_eq_zero fun thread => ?_
    rcases roles.loops thread with worker | outside
    · rw [exited thread worker]
      rfl
    · rw [outside]
      rfl
  have ledger := ledger_of_reachable reach task
  have order := congrArg (List.count task) (assertion_of_reachable reach).1.order
  rw [List.count_append] at order
  have pushed := List.count_pos_iff.mpr (returned_subset_pushed reach member)
  have once := count_pushed_le reach task
  have removed := ledger.removed
  by_cases counted : task ∈ config.shared.counted
  · have settled := settled_of_counted reach counted
    exact Or.inl ⟨(exactlyOnce_of_counted reach counted).2, settled.2.1⟩
  · have none := List.count_eq_zero.mpr counted
    refine Or.inr ⟨fun worker entry => ?_, by omega⟩
    have taken : 0 < (config.shared.workQueue.removed.map Prod.snd).count task :=
      List.count_pos_iff.mpr (List.mem_map_of_mem entry)
    omega

/-- The worker takes the first of two tasks, and the destructor sets `done` while it runs. -/
theorem run_or_stored_of_joined_both : ∃ config : Config (Fin 2),
    config.shared.returned = [0, 1] ∧ ExactlyOnce [0] config.shared.completed 0 ∧
      config.shared.workQueue.contents.count 1 = 1 := by
  have destroyed : ∃ config : Config (Fin 2),
      ((program 32 [(0 : Fin 2)]).system.restrict fun _ _ _ => True).Run (initial [0])
        (submission 1 ++ submission 1 ++ (0, .run) :: List.replicate 5 (0, .queue .run) ++
          [(0, .run), (1, .call .destroy), (1, .run)] ++ List.replicate 4 (0, .run) ++
          List.replicate 6 (1, .run)) config ∧
        (config.shared.returned = [0, 1] ∧ .threads ∈ config.shared.destroyed ∧
          (0, 0) ∈ config.shared.workQueue.removed ∧
          config.shared.workQueue.contents = [1]) :=
    Program.exists_run_of_execute (by decide +kernel)
  obtain ⟨config, run, returned, joined, taken, contents⟩ := destroyed
  have reach := (run.reachable initial_reachable).of_restrict
  obtain ⟨-, settled⟩ := run_or_stored_of_joined reach joined
  refine ⟨config, returned, ?_, ?_⟩
  · rcases settled 0 (by simp [returned]) with ⟨once, -⟩ | ⟨untouched, -⟩
    · exact once
    · exact absurd taken (untouched 0)
  · rcases settled 1 (by simp [returned]) with ⟨-, gone⟩ | ⟨-, stored⟩
    · simp [contents] at gone
    · exact stored

end ThreadPool
end ConcurrencyCourse
