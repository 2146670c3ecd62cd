import ConcurrencyCourse.ThreadPool.Barrier

/-!
# The order of the tasks

Tasks are taken in the order in which they were pushed, and a worker runs a task to its end before
it takes the next one.  A pool with a single worker therefore completes its tasks in the order of
the pushes.
-/

namespace ConcurrencyCourse
namespace ThreadPool

variable {Tid : Type*} {width : Nat} {workers : List Tid} {thread worker : Tid}
  {pool pool' : Pool Tid} {state state' : Local Tid} {action : Action Tid} {task : Task}
  {config : Config Tid}

/-- The task that a worker has taken from the queue and not yet run to its end. -/
def LoopPc.current : LoopPc → Option Task
  | .tryPop (.tryPopFront task) | .running task => some task
  | .tryPop (.tryUnlock task) | .tryPop (.returning (.popped task)) => task
  | _ => none

/-- What a step does to the records of removals and runs. -/
inductive OrderStep (thread : Tid) (pool : Pool Tid) (loop : LoopPc) (pool' : Pool Tid)
    (loop' : LoopPc) : Prop
  | same : pool'.workQueue.removed = pool.workQueue.removed → pool'.completed = pool.completed →
      loop'.current = loop.current → OrderStep thread pool loop pool' loop'
  | took (task : Task) : pool'.workQueue.removed = pool.workQueue.removed ++ [(thread, task)] →
      pool'.completed = pool.completed → loop.current = none → loop'.current = some task →
      OrderStep thread pool loop pool' loop'
  | ran (task : Task) : pool'.workQueue.removed = pool.workQueue.removed →
      pool'.completed = pool.completed ++ [(thread, task)] → loop.current = some task →
      loop'.current = none → OrderStep thread pool loop pool' loop'

variable [DecidableEq Tid]

theorem StepCase.orderStep (step : StepCase width thread pool action state pool' state') :
    OrderStep thread pool state.loop pool' state'.loop := by
  cases step with
  | submit | waitAll | destroy => exact .same rfl rfl rfl
  | loop taken =>
      cases taken with
      | tryPop taken within =>
          cases taken with
          | move front => exact .took _ rfl rfl rfl rfl
          | lock | empty | nonempty | popFront | unlock => exact .same rfl rfl rfl
      | ran task => exact .ran task rfl rfl rfl rfl
      | exit | enter | took | nothing | last | more | lock | notifyAll | unlock | yield | drop =>
          exact .same rfl rfl rfl
  | call _ taken =>
      cases taken with
      | push task taken within => cases taken <;> exact .same rfl rfl rfl
      | add | convert | throwConvert | submitted | threw | lock | testZero | testMore | block
      | wake | relock | unlock | setDone | destroyed | joinAll | destroy | joined | join =>
          exact .same rfl rfl rfl

/-- The tasks of one worker in a record. -/
def entriesOf (worker : Tid) (record : List (Tid × Task)) : List Task :=
  (record.filter fun entry => entry.1 = worker).map Prod.snd

theorem entriesOf_append (record : List (Tid × Task)) (worker thread : Tid) (task : Task) :
    entriesOf worker (record ++ [(thread, task)]) =
      entriesOf worker record ++ if thread = worker then [task] else [] := by
  by_cases same : thread = worker <;> simp [entriesOf, same]

theorem entriesOf_sublist (record : List (Tid × Task)) (worker : Tid) :
    (entriesOf worker record).Sublist (record.map Prod.snd) :=
  List.filter_sublist.map _

theorem entriesOf_eq_map {record : List (Tid × Task)} (alone : ∀ entry ∈ record, entry.1 = worker) :
    entriesOf worker record = record.map Prod.snd := by
  rw [entriesOf, List.filter_eq_self.mpr]
  exact fun entry member => decide_eq_true (alone entry member)

/-- What a worker has taken it has completed, but for the task at hand. -/
def InTurn (config : Config Tid) : Prop :=
  ∀ worker, entriesOf worker config.shared.workQueue.removed =
    entriesOf worker config.shared.completed ++ (config.threads worker).loop.current.toList

theorem InTurn.step (inTurn : InTurn config)
    (step : OrderStep thread config.shared (config.threads thread).loop pool' state'.loop) :
    InTurn ⟨pool', Function.update config.threads thread state'⟩ := by
  intro worker
  have earlier := inTurn worker
  dsimp only
  by_cases own : worker = thread
  · subst own
    rw [Function.update_self]
    cases step with
    | same removed completed current => rw [removed, completed, current, earlier]
    | took task removed completed none some =>
        rw [removed, completed, entriesOf_append, if_pos rfl, earlier, none, some]
        simp
    | ran task removed completed some none =>
        rw [removed, completed, entriesOf_append, if_pos rfl, earlier, none, some]
        simp
  · rw [Function.update_of_ne own]
    cases step with
    | same removed completed current => rw [removed, completed, earlier]
    | took task removed completed none some =>
        rw [removed, completed, entriesOf_append, if_neg (Ne.symm own), List.append_nil, earlier]
    | ran task removed completed some none =>
        rw [removed, completed, entriesOf_append, if_neg (Ne.symm own), List.append_nil, earlier]

/-- After every run, each worker has completed the tasks that it took, but for the one at hand, in
the order in which they were pushed; a single worker completes all tasks in this order.  Runs that
access destroyed members are no exception. -/
theorem completed_in_order (reach : (program width workers).system.Reachable config) :
    (∀ worker, ∃ current : Option Task,
      entriesOf worker config.shared.workQueue.removed =
        entriesOf worker config.shared.completed ++ current.toList ∧
      (entriesOf worker config.shared.workQueue.removed).Sublist
        config.shared.workQueue.pushed) ∧
    ∀ worker, workers = [worker] →
      config.shared.completed.map Prod.snd <+: config.shared.workQueue.pushed := by
  have inTurn : InTurn config := by
    refine reach.invariant (motive := InTurn) ?_ ?_
    · rintro ⟨pool, threads⟩ ⟨rfl, rfl⟩ worker
      have current : ((initial workers).threads worker).loop.current = none := by
        by_cases member : worker ∈ workers <;> simp [initial, member, LoopPc.current]
      dsimp only
      rw [current]
      rfl
    · rintro before ⟨thread, action⟩ after earlier inTurn step
      obtain ⟨pool', state', change, rfl⟩ := exists_stepCase earlier step
      exact inTurn.step change.orderStep
  have order := (assertion_of_reachable reach).1.order
  have front : config.shared.workQueue.removed.map Prod.snd <+: config.shared.workQueue.pushed :=
    ⟨_, order.symm⟩
  refine ⟨fun worker => ⟨_, inTurn worker, ?_⟩, ?_⟩
  · exact (entriesOf_sublist _ _).trans front.sublist
  · rintro worker rfl
    have roles := roles_of_reachable reach
    have turn := inTurn worker
    rw [entriesOf_eq_map fun entry member => List.mem_singleton.mp (roles.removed entry member),
      entriesOf_eq_map fun entry member => List.mem_singleton.mp (roles.completed entry member)]
      at turn
    exact List.IsPrefix.trans ⟨_, turn.symm⟩ front

/-- One worker has completed the first of two tasks. -/
theorem completed_in_order_first : ∃ config : Config (Fin 2),
    config.shared.completed.map Prod.snd = [0] ∧
      config.shared.completed.map Prod.snd <+: config.shared.workQueue.pushed := by
  have completed : ∃ config : Config (Fin 2),
      ((program 32 [(0 : Fin 2)]).system.restrict fun _ _ _ => True).Run (initial [0])
        (submission 1 ++ submission 1 ++ service 0) config ∧
        config.shared.completed.map Prod.snd = [0] :=
    Program.exists_run_of_execute (by decide +kernel)
  obtain ⟨config, run, first⟩ := completed
  have reach := (run.reachable initial_reachable).of_restrict
  exact ⟨config, first, (completed_in_order reach).2 0 rfl⟩

end ThreadPool
end ConcurrencyCourse
