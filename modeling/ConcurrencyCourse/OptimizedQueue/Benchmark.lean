import ConcurrencyCourse.OptimizedQueue.Implementation
import ConcurrencyCourse.ThreadSafeQueue.Benchmark

/-!
# The benchmark of the queue with two locks

If one iteration of `bench_body<optimized_thread_safe_queue<int>>` ends, it has handed every number
over in order.  It need not end: the second thread may find the list empty, the first thread may
push all its numbers and notify nobody, and then the second thread blocks for good.
-/

namespace ConcurrencyCourse
namespace OptimizedQueue

open ThreadSafeQueue ThreadSafeQueue.Benchmark

variable {Tid Value : Type*}

/-- A new queue, and users that are about to make these calls. -/
def users (script : Tid → List (Call Value)) :
    Program.Config Tid (Queue Tid Value) (List (Call Value) × Pc Value) where
  shared := initial.shared
  threads thread := (script thread, .idle)

/-- The start of one iteration of `bench_body` in which `rand` returns `numbers`. -/
def iteration (numbers : List Value) :
    ForkJoin.State Thread (Queue Thread Value) (List (Call Value) × Pc Value) where
  config := users (body numbers)
  started := ∅
  commands := main

variable [DecidableEq Value] {numbers : List Value}

theorem eq_iteration
    {start : ForkJoin.State Thread (Queue Thread Value) (List (Call Value) × Pc Value)}
    (new : (benchBody (implementation Thread Value) numbers).Initial start) :
    start = iteration numbers := by
  obtain ⟨⟨shared, threads⟩, started, commands⟩ := start
  obtain ⟨⟨⟨queue, positions⟩, todo⟩, nobody, rest⟩ := new
  simp only [iteration, users, ForkJoin.State.mk.injEq, Program.Config.mk.injEq]
  exact ⟨⟨queue, funext fun thread => Prod.ext (todo thread) (congrFun positions thread)⟩, nobody,
    rest⟩

theorem iteration_initial : (benchBody (implementation Thread Value) numbers).Initial
    (iteration numbers) :=
  ⟨⟨⟨rfl, rfl⟩, fun _ => rfl⟩, rfl, rfl⟩

/-! ## The first thread alone -/

/-- Positions of a thread that only pushes. -/
def Pc.inPush : Pc Value → Bool
  | .idle | .pushAllocate _ | .pushLock _ _ | .pushReadTail _ _ | .pushData _ _ _
  | .pushReadTailAgain _ _ | .pushNext _ _ _ | .pushTail _ _ | .pushUnlock | .pushNotify
  | .pushUnwind _ | .pushDiscard _ | .returning _ => true
  | _ => false

section Producer

omit [DecidableEq Value]

variable [DecidableEq Tid] {thread : Tid} {queue queue' : Queue Tid Value} {pc pc' : Pc Value}

theorem StepCase.inPush {action : Action Tid Value}
    (step : StepCase thread queue action pc queue' pc') (inPush : pc.inPush = true)
    (pushes : ∀ call, action.called = some call → Call.pushes call = true) :
    pc'.inPush = true := by
  cases step with
  | call call =>
      cases call with
      | push => rfl
      | tryPop | waitAndPop => exact absurd (pushes _ rfl) Bool.false_ne_true
  | push taken => cases taken <;> rfl
  | compare taken => cases taken <;> simp [Pc.inPush] at inPush
  | pop taken => cases taken <;> first | rfl | simp [Pc.inPush] at inPush
  | block | wake | relock | throwTake => simp [Pc.inPush] at inPush
  | allocate | notifyNobody | notify | ret | throwAllocate | throwData => rfl

theorem StepCase.dataCond_subset {action : Action Tid Value}
    (step : StepCase thread queue action pc queue' pc') (inPush : pc.inPush = true) :
    queue'.dataCond ⊆ queue.dataCond := by
  cases step with
  | block => simp [Pc.inPush] at inPush
  | notify | wake => exact Finset.erase_subset _ _
  | push taken => cases taken <;> exact subset_rfl
  | compare taken => cases taken <;> exact subset_rfl
  | pop taken => cases taken <;> exact subset_rfl
  | call | allocate | notifyNobody | relock | ret | throwAllocate | throwData | throwTake =>
      exact subset_rfl

/-- A producer goes on while nobody sleeps and no other thread holds `tail_mutex`. -/
theorem advances_of_inPush {config : Config Tid Value} (reach : program.system.Reachable config)
    (inPush : (config.threads thread).inPush = true) (busy : config.threads thread ≠ .idle)
    (nobody : config.shared.dataCond = ∅)
    (others : ∀ other, other ≠ thread → (config.threads other).holdsTail = false) :
    Advances config thread := by
  cases position : config.threads thread with
  | idle => exact absurd position busy
  | pushAllocate value =>
      obtain ⟨bound, free⟩ := exists_free_from reach
      refine advances_of_isSome (.allocate bound) rfl rfl rfl ?_
      simp [position, threadStep, free bound le_rfl]
  | pushLock =>
      have free : config.shared.tailMutex = none := by
        obtain ⟨layout, -, asserted⟩ := exists_layout reach
        rw [Option.eq_none_iff_forall_ne_some]
        intro holder held
        have holds := (asserted holder).tailHeld.mp held
        by_cases same : holder = thread
        · rw [same, position] at holds
          simp [Pc.holdsTail] at holds
        · rw [others holder same] at holds
          simp at holds
      refine advances_of_isSome .run rfl rfl rfl ?_
      simp [position, threadStep, pushStep, free]
  | pushNotify =>
      refine advances_of_isSome (.notifyOne none) rfl rfl rfl ?_
      simp [position, threadStep, nobody]
  | pushReadTail | pushData | pushReadTailAgain | pushNext | pushTail | pushUnlock | pushUnwind
  | pushDiscard | returning => exact advances_of_not_mayBlock (by rw [position]; rfl)
  | _ => simp [position, Pc.inPush] at inPush

end Producer

/-- The clients of one iteration. -/
abbrev Clients (Value : Type*) :=
  Program.Config Thread (Queue Thread Value) (List (Call Value) × Pc Value)

variable {client : Clients Value}

theorem inPush_t1 (reach : ((implementation Thread Value).clientSystem (body numbers)).Reachable
    client) : (client.threads .t1).2.inPush = true ∧
      ∀ call ∈ client.todo .t1, Call.pushes call = true := by
  refine reach.invariant (motive := fun client => (client.threads .t1).2.inPush = true ∧
    ∀ call ∈ client.todo .t1, Call.pushes call = true) ?_ ?_
  · rintro start ⟨⟨-, threads⟩, todo⟩
    have idle : (start.threads .t1).2 = .idle := congrFun threads .t1
    have calls : start.todo .t1 = numbers.map .push := todo .t1
    rw [idle, calls]
    exact ⟨rfl, by simp [Call.pushes, Call.pushedValue]⟩
  · rintro before ⟨thread, action⟩ after earlier ⟨inPush, todo⟩ step
    obtain ⟨taken, split, others⟩ := Program.scripted_step_iff.mp step.1
    obtain ⟨-, queue', pc', -, -, change, same⟩ :=
      exists_stepCase (Implementation.reachable_base earlier).of_restrict taken
    have position : (after.threads .t1).2 =
        Function.update before.base.threads thread pc' .t1 :=
      congrArg (fun config => config.threads .t1) same
    cases thread with
    | t1 =>
        rw [position, Function.update_self]
        have split' : before.todo .t1 = action.called.toList ++ after.todo .t1 := split
        rw [split'] at todo
        refine ⟨change.inPush inPush fun call called => todo call ?_, fun call member =>
          todo call (List.mem_append_right _ member)⟩
        rw [called]
        exact List.mem_append_left _ List.mem_cons_self
    | t2 =>
        have distinct : Thread.t1 ≠ Thread.t2 := by decide
        rw [position, others .t1 distinct, Function.update_of_ne distinct]
        exact ⟨inPush, todo⟩

/-- While the second thread is about to block and nobody sleeps, the first one makes all its
calls. -/
theorem exists_producer_step
    (reach : ((implementation Thread Value).clientSystem (body numbers)).Reachable client)
    (blocks : (client.threads .t2).2 = .waitBlock) (nobody : client.shared.dataCond = ∅)
    (running : (implementation Thread Value).finished (client.threads .t1) = false) :
    ∃ action after, ((implementation Thread Value).clientSystem (body numbers)).Step client
        (.t1, action) after ∧ action.spurious = false ∧
      after.threads .t2 = client.threads .t2 ∧ after.shared.dataCond = ∅ := by
  have base := (Implementation.reachable_base reach).of_restrict
  obtain ⟨inPush, -⟩ := inPush_t1 reach
  obtain ⟨action, rest, next, noThrow, awake, step, todo⟩ : ∃ action rest next,
      action.throws = false ∧ action.spurious = false ∧
      program.system.Step client.base (.t1, action) next ∧
      client.todo .t1 = action.called.toList ++ rest := by
    by_cases idle : (client.threads .t1).2 = .idle
    · cases todo : client.todo .t1 with
      | nil =>
          have ended : client.threads .t1 = ([], .idle) := Prod.ext todo idle
          rw [ended] at running
          simp [Implementation.finished, implementation, Pc.idles] at running
      | cons call rest =>
          have position : client.base.threads .t1 = .idle := idle
          obtain ⟨next, step⟩ := exists_call_step call position
          exact ⟨.call call, rest, next, rfl, rfl, step, rfl⟩
    · obtain ⟨action, next, noThrow, called, awake, step⟩ :=
        advances_of_inPush base inPush idle nobody fun other foreign => by
          cases other with
          | t1 => exact absurd rfl foreign
          | t2 =>
              have position : client.base.threads .t2 = .waitBlock := blocks
              rw [position]
              rfl
      exact ⟨action, client.todo .t1, next, noThrow, awake, step, by rw [called]; rfl⟩
  obtain ⟨after, taken, rfl⟩ := Program.exists_scripted_step
    (implementation Thread Value).called (body numbers) rest step todo
  obtain ⟨-, queue', pc', -, -, change, same⟩ := exists_stepCase base step
  refine ⟨action, after, ⟨taken, noThrow⟩, awake, ?_, ?_⟩
  · have kept : (after.threads .t2).2 = Function.update client.base.threads .t1 pc' .t2 :=
      congrArg (fun config => config.threads .t2) same
    have distinct : Thread.t2 ≠ Thread.t1 := by decide
    rw [Function.update_of_ne distinct] at kept
    exact Prod.ext ((Program.scripted_step_iff.mp taken).2.2 .t2 distinct) kept
  · have sleepers : after.shared = queue' := congrArg Program.Config.shared same
    rw [sleepers, ← Finset.subset_empty, ← nobody]
    exact change.dataCond_subset inPush

/-! ## A schedule that loses the wake-up -/

/-- Both threads are started, and the second one finds the list empty. -/
def findEmpty : List (ForkJoin.Label Thread (Action Thread Value)) :=
  .main :: .main :: .child .t2 (.call .waitAndPop) :: List.replicate 6 (.child .t2 .run)

/-- A step that does not throw. -/
def quietNext (numbers : List Value) (label : ForkJoin.Label Thread (Action Thread Value))
    (state : ForkJoin.State Thread (Queue Thread Value) (List (Call Value) × Pc Value)) :
    Option (ForkJoin.State Thread (Queue Thread Value) (List (Call Value) × Pc Value)) :=
  match label with
  | .child _ .throw => none
  | label => ForkJoin.next ((implementation Thread Value).clients (body numbers))
      (implementation Thread Value).finished label state

theorem step_of_quietNext {label : ForkJoin.Label Thread (Action Thread Value)}
    {before after : ForkJoin.State Thread (Queue Thread Value) (List (Call Value) × Pc Value)}
    (next : quietNext numbers label before = some after) :
    (benchBody (implementation Thread Value) numbers).Step before label after := by
  cases label with
  | main => exact ⟨next, trivial⟩
  | child thread action =>
      cases action with
      | throw => simp [quietNext] at next
      | _ => exact ⟨next, rfl⟩

/-- What the schedule leads to: the second thread is about to block in its first call. -/
structure AboutToBlock (numbers : List Value)
    (state : ForkJoin.State Thread (Queue Thread Value) (List (Call Value) × Pc Value)) : Prop where
  todo : .waitAndPop :: (state.config.threads .t2).1 = body numbers .t2
  position : (state.config.threads .t2).2 = .waitBlock
  nobody : state.config.shared.dataCond = ∅
  started : ∀ thread, thread ∈ state.started
  commands : state.commands = [.join .t2, .join .t1]

theorem exists_aboutToBlock (number : Value) (numbers : List Value) :
    ∃ state, (benchBody (implementation Thread Value) (number :: numbers)).Reachable state ∧
      AboutToBlock (number :: numbers) state := by
  have execution : ∃ state, findEmpty.foldlM
      (fun state label => quietNext (number :: numbers) label state)
      (iteration (number :: numbers)) = some state ∧
      .waitAndPop :: (state.config.threads .t2).1 = body (number :: numbers) .t2 ∧
      (state.config.threads .t2).2 = .waitBlock ∧ state.config.shared.dataCond = ∅ ∧
      state.started = {.t2, .t1} ∧ state.commands = [.join .t2, .join .t1] :=
    ⟨_, rfl, rfl, rfl, rfl, rfl, rfl⟩
  obtain ⟨state, execution, todo, position, nobody, started, commands⟩ := execution
  refine ⟨state, .of_foldlM step_of_quietNext (.initial iteration_initial) execution, todo,
    position, nobody, fun thread => ?_, commands⟩
  rw [started]
  cases thread <;> decide

variable {state : ForkJoin.State Thread (Queue Thread Value) (List (Call Value) × Pc Value)}

/-- The first thread makes all its calls before the second one blocks. -/
theorem exists_producer_finished
    (reach : (benchBody (implementation Thread Value) numbers).Reachable state)
    (about : AboutToBlock numbers state) :
    ∃ trace after, (benchBody (implementation Thread Value) numbers).Run state trace after ∧
      ((benchBody (implementation Thread Value) numbers).Reachable after ∧
        AboutToBlock numbers after) ∧
      (implementation Thread Value).finished (after.config.threads .t1) = true := by
  refine TransitionSystem.exists_run_of_decreasing Nat.lt_wfRel.wf
    (fun state => (implementation Thread Value).clientRank state.config)
    (motive := fun state => (benchBody (implementation Thread Value) numbers).Reachable state ∧
      AboutToBlock numbers state) ?_ ⟨reach, about⟩
  rintro before ⟨reach, about⟩
  refine or_iff_not_imp_left.mpr fun running => ?_
  have clients := reachable_clients reach
  obtain ⟨action, config, step, awake, same, nobody⟩ := exists_producer_step clients
    about.position about.nobody (Bool.eq_false_of_not_eq_true running)
  have lower := Implementation.clientRank_lowers clients step
  have whole : (benchBody (implementation Thread Value) numbers).Step before
      (.child .t1 action) ⟨config, before.started, before.commands⟩ :=
    ⟨ForkJoin.child_step_iff.mpr ⟨about.started _, step.1, rfl, rfl⟩, step.2⟩
  have silent : (implementation Thread Value).noise (Thread.t1, action) = false := awake
  rw [silent, Bool.toNat_false, Nat.mul_zero] at lower
  exact ⟨_, _, whole, ⟨reach.step whole, same ▸ about.todo, same ▸ about.position, nobody,
    about.started, about.commands⟩, lower⟩

/-- Where the second thread sleeps, the first one has finished, and nothing but a spurious wake-up
is possible. -/
structure Hanging
    (state : ForkJoin.State Thread (Queue Thread Value) (List (Call Value) × Pc Value)) : Prop where
  first : state.config.threads .t1 = ([], .idle)
  position : (state.config.threads .t2).2 = .waiting
  asleep : .t2 ∈ state.config.shared.dataCond
  commands : ∃ rest, state.commands = .join .t2 :: rest

omit [DecidableEq Value] in
theorem eq_of_finished {local' : List (Call Value) × Pc Value}
    (ended : (implementation Thread Value).finished local' = true) : local' = ([], .idle) := by
  obtain ⟨todo, pc⟩ := local'
  simp only [Implementation.finished, Bool.and_eq_true, List.isEmpty_iff] at ended
  obtain ⟨rfl, idle⟩ := ended
  cases pc with
  | idle => rfl
  | _ => simp [implementation, Pc.idles] at idle

theorem exists_hanging (number : Value) (numbers : List Value) :
    ∃ state, (benchBody (implementation Thread Value) (number :: numbers)).Reachable state ∧
      Hanging state ∧ Stores state.config.base (number :: numbers) := by
  obtain ⟨start, reach, about⟩ := exists_aboutToBlock number numbers
  obtain ⟨-, state, -, ⟨reach', about'⟩, ended⟩ := exists_producer_finished reach about
  have base : program.system.Step state.config.base (Thread.t2, .run)
      ⟨{ state.config.shared with
          headMutex := none, dataCond := insert .t2 state.config.shared.dataCond },
        Function.update state.config.base.threads .t2 .waiting⟩ := by
    have position : state.config.base.threads .t2 = .waitBlock := about'.position
    exact Program.system_step_iff.mpr ⟨_, _, by rw [position]; rfl, rfl⟩
  obtain ⟨after, taken, same⟩ := Program.exists_scripted_step
    (implementation Thread Value).called (body (number :: numbers)) _ base rfl
  obtain ⟨-, split, others⟩ := Program.scripted_step_iff.mp taken
  have distinct : Thread.t1 ≠ Thread.t2 := by decide
  have whole : (benchBody (implementation Thread Value) (number :: numbers)).Step state
      (.child .t2 .run) ⟨after, state.started, state.commands⟩ :=
    ⟨ForkJoin.child_step_iff.mpr ⟨about'.started _, taken, rfl, rfl⟩, rfl⟩
  have threads (thread : Thread) : (after.threads thread).2 =
      Function.update state.config.base.threads .t2 .waiting thread :=
    congrArg (fun config => config.threads thread) same
  have first : after.threads .t1 = ([], .idle) := by
    have finished := eq_of_finished ended
    refine Prod.ext ((others .t1 distinct).trans (congrArg Prod.fst finished)) ?_
    rw [threads, Function.update_of_ne distinct]
    exact congrArg Prod.snd finished
  have second : (after.threads .t2).2 = .waiting := by
    rw [threads, Function.update_self]
  have clients := reachable_clients (reach'.step whole)
  refine ⟨_, reach'.step whole, ⟨first, second, ?_, _, about'.commands⟩, ?_⟩
  · have shared : after.shared = { state.config.shared with
        headMutex := none, dataCond := insert .t2 state.config.shared.dataCond } :=
      congrArg Program.Config.shared same
    rw [shared]
    exact Finset.mem_insert_self _ _
  · have pushed : after.shared.pushed = number :: numbers :=
      pushed_of_finished clients (by rw [first]; rfl)
    have removed : after.shared.removed = [] := by
      refine removed_of_left clients ?_
      have waiting : (view after.base).status .t2 = .pending .waitAndPop := by
        simp [view, Program.Config.base, second, Pc.status]
      rw [← about'.todo]
      exact (Implementation.callsLeft_of_waiting waiting).trans (congrArg _ split.symm)
    obtain ⟨layout, shape, asserted⟩ :=
      exists_layout (Implementation.reachable_base clients).of_restrict
    have stored : number :: numbers = layout.values := by
      have order := shape.order
      rwa [show after.base.shared.pushed = _ from pushed,
        show after.base.shared.removed = _ from removed] at order
    rw [stored]
    exact stores_of_shape shape asserted

omit [DecidableEq Value] in
theorem spurious_of_asleep [DecidableEq Tid] {thread : Tid} {action : Action Tid Value}
    {queue queue' : Queue Tid Value} {pc' : Pc Value} (asleep : thread ∈ queue.dataCond)
    (step : threadStep thread action queue .waiting = some (queue', pc')) :
    action.spurious = true := by
  cases action with
  | wakeSpuriously => rfl
  | notifyOne waiter => cases waiter <;> simp [threadStep] at step
  | call | run | allocate | throw => simp [threadStep, throwStep, asleep] at step

theorem Hanging.stuck (hangs : Hanging state) {label : ForkJoin.Label Thread (Action Thread Value)}
    {next : ForkJoin.State Thread (Queue Thread Value) (List (Call Value) × Pc Value)}
    (step : (benchBody (implementation Thread Value) numbers).Step state label next) :
    ForkJoin.noisy (implementation Thread Value).noise label = true := by
  cases label with
  | main =>
      obtain ⟨rest, commands⟩ := hangs.commands
      obtain ⟨-, ⟨thread, next, -⟩ | ⟨thread, next, -, ended⟩⟩ := ForkJoin.main_step_cases step.1
      · simp [commands] at next
      · obtain ⟨rfl, -⟩ : .t2 = thread ∧ _ := by simpa using commands.symm.trans next
        have idle := congrArg Prod.snd (eq_of_finished ended)
        rw [hangs.position] at idle
        simp at idle
  | child thread action =>
      obtain ⟨-, taken, -⟩ := ForkJoin.child_step_iff.mp step.1
      cases thread with
      | t1 =>
          obtain ⟨shared, local', own, -⟩ := Program.system_step_iff.mp taken
          have ended :
              (implementation Thread Value).finished (state.config.threads .t1) = true := by
            rw [hangs.first]
            rfl
          rw [Implementation.final_finished .t1 action _ _ ended] at own
          simp at own
      | t2 =>
          obtain ⟨queue', pc', own, -⟩ :=
            Program.system_step_iff.mp (Program.scripted_step_iff.mp taken).1
          have position : state.config.base.threads .t2 = .waiting := hangs.position
          rw [position] at own
          exact spurious_of_asleep hangs.asleep own

/-- Every run of the iteration is finite up to spurious wake-ups.  Where it can go no further, it
has ended and handed all numbers over in order, or the second thread sleeps. -/
theorem benchBody_delivers_or_sleeps (numbers : List Value) :
    (benchBody (implementation Thread Value) numbers).InevitableDespite
      (ForkJoin.noisy (implementation Thread Value).noise)
      (fun state => (state.commands = [] ∧ receivedBy .t2 state.config.shared.history = numbers ∧
        Stores state.config.base [] ∧ ∀ thread, state.config.threads thread = ([], .idle)) ∨
        Hanging state) (iteration numbers) := by
  refine (inevitable_through_or_waiting iteration_initial).widen (.initial iteration_initial) ?_
  rintro after reach (through | ⟨commands, stuck, first, waiting⟩)
  · obtain ⟨received, empty, -⟩ := received_of_through reach through
    have base := (Implementation.reachable_base (reachable_clients reach)).of_restrict
    obtain ⟨layout, shape, asserted⟩ := exists_layout base
    have nothing := shape.eq_values (empty.trans (List.append_nil _).symm)
    refine Or.inl ⟨through, received, ?_, fun thread => ?_⟩
    · rw [nothing]
      exact stores_of_shape shape asserted
    · refine eq_of_finished (ForkJoin.finished_of_join Implementation.final_finished
        reach.of_restrict through ?_)
      cases thread <;> decide
  · have base := (Implementation.reachable_base (reachable_clients reach)).of_restrict
    have sleepers := onlySleepers_of_still base (by
      rintro thread ⟨action, next, noThrow, called, awake, step⟩
      have wakes : action.spurious = true :=
        Implementation.spurious_of_stuck stuck noThrow called step
      simp [wakes] at awake)
    obtain ⟨position, asleep⟩ := (sleepers .t2).resolve_left fun idle => by
      have status : (view after.config.base).status .t2 = .idle := status_eq_idle.mpr idle
      have busy : (view after.config.base).status .t2 = .pending .waitAndPop := waiting
      simp [status] at busy
    exact Or.inr ⟨eq_of_finished first, position, asleep, commands⟩

end OptimizedQueue
end ConcurrencyCourse
