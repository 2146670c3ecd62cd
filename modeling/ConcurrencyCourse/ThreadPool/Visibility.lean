import ConcurrencyCourse.ThreadPool.MemoryOrder

/-!
# What wait_all makes visible

`m_taskCount` publishes nothing, so only the two mutexes hand a completion over.  The worker that
counts the last task down locks `m_tasksCompleteMutex` only after its `fetch_sub`, and the other
workers do not lock it at all; a `wait_all` may find the count at zero without any of this.
-/

namespace ConcurrencyCourse
namespace ThreadPool

open HandOver (Event Relay knowledge)

variable {Tid : Type*}

/-- What a step does to `done` and to the place of its thread, by the kind of its access. -/
inductive AccessCase (pool : Pool Tid) (loop : LoopPc) (pool' : Pool Tid) (loop' : LoopPc) :
    Access → Prop
  | none : pool'.done = pool.done → (loop' ≠ .exited → loop ≠ .exited) →
      AccessCase pool loop pool' loop' .none
  | lock (mutex : Mutex) : pool'.done = pool.done → (loop' ≠ .exited → loop ≠ .exited) →
      AccessCase pool loop pool' loop' (.lock mutex)
  | unlock (mutex : Mutex) : pool'.done = pool.done → loop ≠ .exited →
      AccessCase pool loop pool' loop' (.unlock mutex)
  | complete (task : Task) : pool'.done = pool.done → (loop' ≠ .exited → loop ≠ .exited) →
      AccessCase pool loop pool' loop' (.complete task)
  | count : pool'.done = pool.done → (loop' ≠ .exited → loop ≠ .exited) →
      AccessCase pool loop pool' loop' (.readModifyWrite .taskCount .relaxed)
  | test : pool'.done = pool.done → (loop' ≠ .exited → loop ≠ .exited) →
      AccessCase pool loop pool' loop' (.load .taskCount .seqCst)
  | testDone : pool'.done = pool.done → (loop' ≠ .exited → pool.done = false ∧ loop ≠ .exited) →
      AccessCase pool loop pool' loop' (.load .done .seqCst)
  | setDone : pool'.done = true → (loop' ≠ .exited → loop ≠ .exited) →
      AccessCase pool loop pool' loop' (.store .done .seqCst)

theorem LoopPc.ne_exited_of_mayCall {loop : LoopPc} (calls : loop.mayCall = true) :
    loop ≠ .exited := by
  rintro rfl
  simp [LoopPc.mayCall] at calls

section Cases

variable [DecidableEq Tid] {width : Nat} {thread : Tid} {pool pool' : Pool Tid}
  {action : Action Tid}

theorem LoopCase.accessCase {loop loop' : LoopPc}
    (step : LoopCase width thread pool action loop pool' loop') :
    AccessCase pool loop pool' loop' (loopAccess action loop) := by
  cases step with
  | exit _ => exact .testDone rfl fun stays => absurd rfl stays
  | enter running => exact .testDone rfl fun _ => ⟨running, nofun⟩
  | tryPop taken within =>
      cases taken with
      | lock _ => exact .lock _ rfl nofun
      | unlock _ => exact .unlock _ rfl nofun
      | empty | nonempty | move | popFront => exact .none rfl nofun
  | ran task => exact .complete task rfl nofun
  | last | more => exact .count rfl nofun
  | lock => exact .lock _ rfl nofun
  | unlock => exact .unlock _ rfl nofun
  | took | nothing | notifyAll | yield | drop => exact .none rfl nofun

theorem CallCase.accessCase {loop : LoopPc} {call call' : CallPc Tid} (inside : loop ≠ .exited)
    (step : CallCase width thread pool action call pool' call') :
    AccessCase pool loop pool' loop (callAccess action call) := by
  cases step with
  | add => exact .count rfl id
  | push task taken within =>
      cases taken with
      | lock => exact .lock _ rfl id
      | unlock | unwind => exact .unlock _ rfl inside
      | emplace | throwEmplace | notifyNobody | notify => exact .none rfl id
  | lock | relock => exact .lock _ rfl id
  | testZero | testMore => exact .test rfl id
  | block | unlock => exact .unlock _ rfl inside
  | setDone => exact .setDone rfl id
  | convert | throwConvert | submitted | threw | wake | destroyed | joinAll | destroy | joined
  | join => exact .none rfl id

theorem StepCase.accessCase {state state' : Local Tid}
    (step : StepCase width thread pool action state pool' state') :
    AccessCase pool state.loop pool' state'.loop (access action state) := by
  cases step with
  | submit | waitAll | destroy =>
      rename_i loop _
      cases loop <;> exact .none rfl id
  | loop taken => exact taken.accessCase
  | @call action loop call call' pool' calls taken =>
      have kind : access action ⟨loop, call⟩ = callAccess action call := by
        cases taken <;> rfl
      rw [kind]
      exact taken.accessCase (LoopPc.ne_exited_of_mayCall calls)

end Cases

/-! ## The sets are what the locks hand over -/

/-- The pool and its threads, without the sets. -/
def plain (config : OrderedConfig Tid) : Config Tid :=
  ⟨config.shared.pool, fun thread => (config.threads thread).state⟩

/-- The sets record what the mutexes have handed over, and the counter publishes nothing.  A worker
that has found `done` set is left out: it has also read what the destructor published. -/
structure Recorded [DecidableEq Tid] (config : OrderedConfig Tid) : Prop where
  carried : ∀ thread, (config.threads thread).state.loop ≠ .exited →
    ↑(config.threads thread).carried = (knowledge config.shared.log).carried thread
  left : ∀ mutex, ↑(config.shared.left mutex) = (knowledge config.shared.log).left mutex
  taskCount : config.shared.published .taskCount = ∅
  done : config.shared.pool.done = false → config.shared.published .done = ∅

variable [DecidableEq Tid] {width : Nat} {workers : List Tid} {thread : Tid}
  {action : Action Tid} {config before after : OrderedConfig Tid} {task : Task}

theorem exists_orderedStep
    (step : (orderedProgram width workers).system.Step before (thread, action) after) :
    ∃ pool' state', threadStep width thread action before.shared.pool
        (before.threads thread).state = some (pool', state') ∧
      after = ⟨{ (before.shared.perform thread (before.threads thread).carried
            (access action (before.threads thread).state)).1 with pool := pool' },
        Function.update before.threads thread ⟨state', (before.shared.perform thread
          (before.threads thread).carried (access action (before.threads thread).state)).2⟩⟩ := by
  obtain ⟨memory', ordered', taken, rfl⟩ := Program.system_step_iff.mp step
  obtain ⟨⟨pool', state'⟩, own, same⟩ := Option.map_eq_some_iff.mp taken
  cases same
  exact ⟨pool', state', own, rfl⟩

theorem plain_update (config : OrderedConfig Tid) (memory : Memory Tid)
    (ordered : Ordered Tid) :
    plain ⟨memory, Function.update config.threads thread ordered⟩ =
      ⟨memory.pool, Function.update (plain config).threads thread ordered.state⟩ := by
  simp only [plain, Program.Config.mk.injEq, true_and]
  funext other
  by_cases same : other = thread
  · subst same
    simp
  · simp [same]

theorem plain_reachable (reach : (orderedProgram width workers).system.Reachable config) :
    (program width workers).system.Reachable (plain config) := by
  refine reach.invariant (motive := fun config =>
    (program width workers).system.Reachable (plain config)) ?_ ?_
  · rintro ⟨memory, threads⟩ ⟨rfl, rfl⟩
    exact .initial ⟨rfl, rfl⟩
  · rintro before ⟨thread, action⟩ after - earlier step
    obtain ⟨pool', state', taken, rfl⟩ := exists_orderedStep step
    rw [plain_update]
    exact earlier.step (Program.system_step_iff.mpr ⟨pool', state', taken, rfl⟩)

theorem carried_update {threads : Tid → Ordered Tid} {ordered : Ordered Tid}
    {log log' : List (Event Tid Mutex Task)}
    (carried : ∀ thread, (threads thread).state.loop ≠ .exited →
      ↑(threads thread).carried = (knowledge log).carried thread)
    (others : ∀ other, other ≠ thread →
      (knowledge log').carried other = (knowledge log).carried other)
    (mine : ordered.state.loop ≠ .exited →
      ↑ordered.carried = (knowledge log').carried thread) (other : Tid)
    (inside : (Function.update threads thread ordered other).state.loop ≠ .exited) :
    ↑(Function.update threads thread ordered other).carried = (knowledge log').carried other := by
  by_cases same : other = thread
  · subst same
    simpa using mine (by simpa using inside)
  · rw [others other same]
    simpa [same] using carried other (by simpa [same] using inside)

/-- One access keeps the record. -/
theorem Recorded.of_accessCase {memory : Memory Tid} {threads : Tid → Ordered Tid}
    {pool' : Pool Tid} {state' : Local Tid} {access : Access}
    (recorded : Recorded ⟨memory, threads⟩)
    (step : AccessCase memory.pool (threads thread).state.loop pool' state'.loop access) :
    Recorded ⟨{ (memory.perform thread (threads thread).carried access).1 with pool := pool' },
      Function.update threads thread
        ⟨state', (memory.perform thread (threads thread).carried access).2⟩⟩ := by
  obtain ⟨carried, left, taskCount, done⟩ := recorded
  dsimp only at carried left taskCount done
  have mine := carried thread
  cases step with
  | none doneSame stays | count doneSame stays =>
      refine ⟨carried_update carried (fun _ _ => rfl) fun inside => mine (stays inside), left, ?_,
        ?_⟩
      · simpa [Memory.perform, MemoryOrder.releases] using taskCount
      · intro running
        simpa [Memory.perform, MemoryOrder.releases] using done (doneSame ▸ running)
  | test doneSame stays =>
      refine ⟨carried_update carried (fun _ _ => rfl) fun inside => ?_, left, taskCount,
        fun running => done (doneSame ▸ running)⟩
      simpa [Memory.perform, MemoryOrder.acquires, taskCount] using mine (stays inside)
  | testDone doneSame stays =>
      refine ⟨carried_update carried (fun _ _ => rfl) fun inside => ?_, left, taskCount,
        fun running => done (doneSame ▸ running)⟩
      obtain ⟨running, inside⟩ := stays inside
      simpa [Memory.perform, MemoryOrder.acquires, done running] using mine inside
  | setDone doneSet stays =>
      refine ⟨carried_update carried (fun _ _ => rfl) fun inside => mine (stays inside), left, ?_,
        fun running => ?_⟩
      · simpa [Memory.perform] using taskCount
      · rw [doneSet] at running
        simp at running
  | lock mutex doneSame stays =>
      refine ⟨carried_update carried (fun other foreign => ?_) fun inside => ?_, left, taskCount,
        fun running => done (doneSame ▸ running)⟩
      · simp [Memory.perform, knowledge, HandOver.Knowledge.after, foreign]
      · simp [Memory.perform, knowledge, HandOver.Knowledge.after, mine (stays inside), left]
  | unlock mutex doneSame inside =>
      refine ⟨carried_update carried (fun other _ => rfl) fun _ => mine inside, fun other => ?_,
        taskCount, fun running => done (doneSame ▸ running)⟩
      by_cases same : other = mutex
      · subst same
        simp [Memory.perform, knowledge, HandOver.Knowledge.after, left, mine inside]
      · simp [Memory.perform, knowledge, HandOver.Knowledge.after, left, same]
  | complete task doneSame stays =>
      refine ⟨carried_update carried (fun other foreign => ?_) fun inside => ?_, left, taskCount,
        fun running => done (doneSame ▸ running)⟩
      · simp [Memory.perform, knowledge, HandOver.Knowledge.after, foreign]
      · simp [Memory.perform, knowledge, HandOver.Knowledge.after, mine (stays inside)]

theorem recorded_of_reachable (reach : (orderedProgram width workers).system.Reachable config) :
    Recorded config := by
  refine reach.invariant (motive := Recorded) ?_ ?_
  · rintro ⟨memory, threads⟩ ⟨rfl, rfl⟩
    constructor
    · intro thread _
      simp [orderedInitial, knowledge]
    · intro mutex
      simp [orderedInitial, knowledge]
    · rfl
    · exact fun _ => rfl
  · rintro before ⟨thread, action⟩ after earlier recorded step
    obtain ⟨pool', state', taken, rfl⟩ := exists_orderedStep step
    obtain ⟨-, asserted⟩ := assertion_of_reachable (plain_reachable earlier)
    exact recorded.of_accessCase ((asserted thread).threadStep_cases taken).accessCase

/-! ## What wait_all sees -/

/-- The completion of a task has been handed over to the caller: the caller itself ran the task;
or the worker, after running it, unlocked a mutex that the caller later locked; or another thread
came between them, which locked one mutex after the worker unlocked it and then unlocked the other
one before the caller locked that.  The log has the latest event first. -/
def HandedOver (log : List (Event Tid Mutex Task)) (task : Task) (caller : Tid) : Prop :=
  .learn caller task ∈ log ∨
    (∃ worker mutex, [.acquire mutex caller, .release mutex worker, .learn worker task].Sublist
      log) ∨
    ∃ worker between first second, first ≠ second ∧
      [.acquire second caller, .release second between, .acquire first between,
        .release first worker, .learn worker task].Sublist log

omit [DecidableEq Tid] in
/-- There are only two mutexes, so a chain of hand-overs has at most two links. -/
theorem handedOver_of_relay {log events : List (Event Tid Mutex Task)} {locks : List Mutex}
    (relay : Relay task events thread locks) (distinct : locks.Nodup)
    (sublist : events.Sublist log) : HandedOver log task thread := by
  cases relay with
  | learn => exact Or.inl (List.singleton_sublist.mp sublist)
  | handOver second _ relay =>
      cases relay with
      | learn => exact Or.inr (Or.inl ⟨_, second, sublist⟩)
      | handOver first _ relay =>
          cases relay with
          | learn =>
              refine Or.inr (Or.inr ⟨_, _, first, second, ?_, sublist⟩)
              rintro rfl
              simp at distinct
          | handOver third _ relay =>
              cases first <;> cases second <;> cases third <;> simp at distinct

/-- A thread carries the completions that have been handed over to it. -/
theorem Recorded.mem_carried_iff (recorded : Recorded config)
    (inside : (config.threads thread).state.loop ≠ .exited) :
    task ∈ (config.threads thread).carried ↔ HandedOver config.shared.log task thread := by
  rw [← Finset.mem_coe, recorded.carried thread inside, HandOver.carried_iff_relay]
  constructor
  · rintro ⟨events, locks, relay, sublist, distinct⟩
    exact handedOver_of_relay relay distinct sublist
  · rintro (ran | ⟨worker, mutex, sublist⟩ | ⟨worker, between, first, second, distinct, sublist⟩)
    · exact ⟨_, [], .learn thread, List.singleton_sublist.mpr ran, List.nodup_nil⟩
    · exact ⟨_, [mutex], .handOver mutex thread (.learn worker), sublist, List.nodup_singleton _⟩
    · exact ⟨_, [second, first],
        .handOver second thread (.handOver first between (.learn worker)), sublist,
        by simpa using distinct.symm⟩

theorem StepCase.caller {pool pool' : Pool Tid} {state state' : Local Tid}
    (step : StepCase width thread pool action state pool' state') (inside : state.call ≠ .idle) :
    state'.loop ≠ .exited := by
  cases step with
  | submit | waitAll | destroy | loop => exact absurd rfl inside
  | call calls _ => exact LoopPc.ne_exited_of_mayCall calls

/-- When a call of `wait_all` ends, the completion of every task whose submit had returned before it
began is visible to the caller exactly when each of them has been handed over through the
mutexes. -/
theorem visible_iff_handedOver :
    ∀ (before start last after : OrderedConfig Tid) trace thread action,
      (orderedProgram width workers).system.Reachable before →
      (orderedProgram width workers).system.Step before (thread, .call .waitAll) start →
      (orderedProgram width workers).system.Run start trace last →
      (last.threads thread).state.call ≠ .idle →
      (orderedProgram width workers).system.Step last (thread, action) after →
      (after.threads thread).state.call = .idle →
      ((∀ task ∈ before.shared.pool.returned, task ∈ (after.threads thread).carried) ↔
        ∀ task ∈ before.shared.pool.returned, HandedOver after.shared.log task thread) := by
  intro before start last after trace thread action reach call run inCall ret _
  have reachLast := run.reachable (reach.step call)
  have inside : (after.threads thread).state.loop ≠ .exited := by
    obtain ⟨pool', state', taken, rfl⟩ := exists_orderedStep ret
    obtain ⟨-, asserted⟩ := assertion_of_reachable (plain_reachable reachLast)
    have caller := ((asserted thread).threadStep_cases taken).caller inCall
    simpa using caller
  have recorded := recorded_of_reachable (reachLast.step ret)
  exact forall₂_congr fun task _ => recorded.mem_carried_iff inside

theorem orderedInitial_reachable
    {allowed : OrderedConfig Tid → Tid × Action Tid → OrderedConfig Tid → Prop} :
    ((orderedProgram width workers).system.restrict allowed).Reachable (orderedInitial workers) :=
  .initial ⟨rfl, rfl⟩

/-- A client submits a task; the worker runs it, and has notified and unlocked before the client
waits. -/
theorem visible_iff_handedOver_notified : ∃ before after : OrderedConfig (Fin 2),
    before.shared.pool.returned = [0] ∧
      ∀ task ∈ before.shared.pool.returned, HandedOver after.shared.log task 1 := by
  let before : OrderedConfig (Fin 2) := (orderedProgram 32 [0]).finish (fun _ _ _ => True)
    (submission 1 ++ service 0 ++ List.replicate 3 (0, .run)) (orderedInitial [0])
  let start := (orderedProgram 32 [0]).finish (fun _ _ _ => True) [(1, .call .waitAll)] before
  let last := (orderedProgram 32 [0]).finish (fun _ _ _ => True) [(1, .run), (1, .run)] start
  let after := (orderedProgram 32 [0]).finish (fun _ _ _ => True) [(1, .run)] last
  have reach : ((orderedProgram 32 [0]).system.restrict fun _ _ _ => True).Reachable before :=
    (Program.run_finish (by decide +kernel)).reachable orderedInitial_reachable
  have called : ((orderedProgram 32 [0]).system.restrict fun _ _ _ => True).Step before
      (1, .call .waitAll) start := (Program.run_finish (by decide +kernel)).step_of_single
  have run : ((orderedProgram 32 [0]).system.restrict fun _ _ _ => True).Run start _ last :=
    Program.run_finish (by decide +kernel)
  have returns : ((orderedProgram 32 [0]).system.restrict fun _ _ _ => True).Step last (1, .run)
      after := (Program.run_finish (by decide +kernel)).step_of_single
  refine ⟨before, after, by decide +kernel, ?_⟩
  exact (visible_iff_handedOver before start last after _ 1 .run reach.of_restrict called.1
    run.of_restrict (by decide +kernel) returns.1 (by decide +kernel)).mp (by decide +kernel)

/-- The worker has counted the only task down and has not locked `m_tasksCompleteMutex` when the
client locks it: `wait_all` finds the count at zero and returns, and the task's completion is not
visible to the client. -/
theorem invisible_to_waiter : ∃ before start last after : OrderedConfig (Fin 2), ∃ trace,
    (orderedProgram 32 [0]).system.Reachable before ∧
    (orderedProgram 32 [0]).system.Step before (1, .call .waitAll) start ∧
    (orderedProgram 32 [0]).system.Run start trace last ∧
    (last.threads 1).state.call = .waitUnlock ∧
    (orderedProgram 32 [0]).system.Step last (1, .run) after ∧
    (after.threads 1).state.call = .idle ∧
    0 ∈ before.shared.pool.returned ∧ 0 ∉ (after.threads 1).carried := by
  let before : OrderedConfig (Fin 2) := (orderedProgram 32 [0]).finish (fun _ _ _ => True)
    (submission 1) (orderedInitial [0])
  let start := (orderedProgram 32 [0]).finish (fun _ _ _ => True) [(1, .call .waitAll)] before
  let last := (orderedProgram 32 [0]).finish (fun _ _ _ => True)
    (service 0 ++ [(1, .run), (1, .run)]) start
  let after := (orderedProgram 32 [0]).finish (fun _ _ _ => True) [(1, .run)] last
  have reach : ((orderedProgram 32 [0]).system.restrict fun _ _ _ => True).Reachable before :=
    (Program.run_finish (by decide +kernel)).reachable orderedInitial_reachable
  have called : ((orderedProgram 32 [0]).system.restrict fun _ _ _ => True).Step before
      (1, .call .waitAll) start := (Program.run_finish (by decide +kernel)).step_of_single
  have run : ((orderedProgram 32 [0]).system.restrict fun _ _ _ => True).Run start _ last :=
    Program.run_finish (by decide +kernel)
  have returns : ((orderedProgram 32 [0]).system.restrict fun _ _ _ => True).Step last (1, .run)
      after := (Program.run_finish (by decide +kernel)).step_of_single
  exact ⟨before, start, last, after, _, reach.of_restrict, called.1, run.of_restrict,
    by decide +kernel, returns.1, by decide +kernel, by decide +kernel, by decide +kernel⟩

end ThreadPool
end ConcurrencyCourse
