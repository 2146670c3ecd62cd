import ConcurrencyCourse.ThreadPool.Barrier

/-!
# Destruction of the pool

The destructor sets `done` and destroys the members in the reverse order of their declaration.
`m_tasksCompleteMutex`, `m_tasksComplete` and `m_taskCount` are declared after `threads`, so they
are destroyed before the workers are joined.  A worker that then still has a task to count down, or
the last notification to make, uses a destroyed member.  Workers for which only the loop's own tests
remain never do.
-/

namespace ConcurrencyCourse
namespace ThreadPool

variable {Tid : Type*}

/-! ## Accesses to the members -/

/-- Members that the next step of `worker_thread` accesses. -/
def LoopPc.accesses : LoopPc → List Member
  | .testDone => [.done]
  | .tryPop (.returning _) => []
  | .tryPop _ => [.workQueue]
  | .fetchSub _ => [.taskCount]
  | .lockComplete _ | .unlockComplete _ => [.tasksCompleteMutex]
  | .notifyAll _ => [.tasksComplete]
  | _ => []

/-- Members that the next step of a call of a running task accesses. -/
def CallPc.accesses : CallPc Tid → List Member
  | .submitAdd _ | .waitTest => [.taskCount]
  | .submitPush _ (.returning _) => []
  | .submitPush _ _ => [.workQueue]
  | .waitLock | .waitUnlock => [.tasksCompleteMutex]
  | .waitBlock | .waiting => [.tasksComplete, .tasksCompleteMutex]
  | _ => []

/-- Members that the next step of a thread accesses. -/
def Local.accesses (state : Local Tid) : List Member := state.loop.accesses ++ state.call.accesses

/-- A step of a worker accesses no member that has been destroyed. -/
def SafeStep (workers : List Tid) (before : Config Tid) (label : Tid × Action Tid) : Prop :=
  label.1 ∈ workers → ∀ member ∈ (before.threads label.1).accesses,
    member ∉ before.shared.destroyed

instance [DecidableEq Tid] (workers : List Tid) (before : Config Tid) (label : Tid × Action Tid) :
    Decidable (SafeStep workers before label) :=
  inferInstanceAs (Decidable (_ → _))

/-- A member is the same in two states of the pool. -/
def Member.Unchanged (pool pool' : Pool Tid) : Member → Prop
  | .done => pool'.done = pool.done
  | .workQueue => pool'.workQueue = pool.workQueue
  | .threads => pool'.threads = pool.threads
  | .taskCount => pool'.taskCount = pool.taskCount
  | .tasksComplete => pool'.tasksComplete = pool.tasksComplete
  | .tasksCompleteMutex => pool'.tasksCompleteMutex = pool.tasksCompleteMutex

/-! ## Runs of the destructor -/

/-- The pool is destroyed by one thread outside it, after every other client has left it; the tasks
that still run may call it. -/
def ClientsAside (workers : List Tid) (before : Config Tid) : Tid × Action Tid → Prop
  | (thread, .call call) => (thread ∈ workers → call ≠ .destroy) ∧
      (thread ∉ workers → before.shared.done = false ∧ ∀ other, other ∉ workers →
        (before.threads other).call ≠ .setDone ∧
          (call = .destroy → (before.threads other).call = .idle))
  | _ => True

instance [DecidableEq Tid] [Fintype Tid] (workers : List Tid) (before : Config Tid) :
    ∀ label, Decidable (ClientsAside workers before label)
  | (_, .call _) => inferInstanceAs (Decidable (_ ∧ _))
  | (_, .run) | (_, .queue _) | (_, .wakeSpuriously) | (_, .throw) =>
      inferInstanceAs (Decidable True)

/-- A worker that holds no task, has no notification to make, and will take no task of the stored
ones once `done` is set. -/
def LoopPc.clear (stored : List (Option Task)) : LoopPc → Bool
  | .running _ | .fetchSub _ | .lockComplete _ | .notifyAll _ | .unlockComplete _ => false
  | .tryPop .tryLock | .tryPop .tryTest => stored.isEmpty
  | .tryPop (.tryUnlock none) | .tryPop (.returning (.popped none)) => true
  | .tryPop _ => false
  | _ => true

/-- When the destructor is about to destroy `m_tasksCompleteMutex`, every worker is clear. -/
def ClearAtDestruction (workers : List Tid) (before : Config Tid) (label : Tid × Action Tid) :
    Prop :=
  (before.threads label.1).call = .destroying Member.destructionOrder → ∀ worker ∈ workers,
    (before.threads worker).loop.clear before.shared.workQueue.queue = true

instance [DecidableEq Tid] (workers : List Tid) (before : Config Tid) (label : Tid × Action Tid) :
    Decidable (ClearAtDestruction workers before label) :=
  inferInstanceAs (Decidable (_ → _))

/-- Steps of runs in which the destructor waits until the workers are clear. -/
def ClearRun (workers : List Tid) (before : Config Tid) (label : Tid × Action Tid)
    (_ : Config Tid) : Prop :=
  ClientsAside workers before label ∧ ClearAtDestruction workers before label

instance [DecidableEq Tid] [Fintype Tid] (workers : List Tid) (before after : Config Tid)
    (label : Tid × Action Tid) : Decidable (ClearRun workers before label after) :=
  inferInstanceAs (Decidable (_ ∧ _))

/-- Positions in the destructor. -/
def CallPc.inDestructor : CallPc Tid → Bool
  | .setDone | .destroying _ | .joining _ _ => true
  | _ => false

/-- What the position in the destructor says about the members. -/
def Stage (pool : Pool Tid) : CallPc Tid → Prop
  | .setDone => pool.done = false
  | .destroying rest =>
      pool.done = true ∧ pool.destroyed.reverse ++ rest = Member.destructionOrder
  | .joining _ rest =>
      pool.done = true ∧ pool.destroyed.reverse ++ .threads :: rest = Member.destructionOrder
  | _ => True

/-- The state of the pool during and after its destruction. -/
structure Teardown (workers : List Tid) (config : Config Tid) : Prop where
  threads : config.shared.threads = workers
  finished : ∀ worker ∈ config.shared.finished, (config.threads worker).loop = .exited
  loops : ∀ worker ∈ workers, (config.threads worker).loop ≠ .client
  outside : ∀ worker ∈ workers, (config.threads worker).call.inDestructor = false
  alone : ∀ thread, (config.threads thread).call.inDestructor = true → ∀ other, other ∉ workers →
    other ≠ thread → (config.threads other).call = .idle
  quiet : config.shared.done = true → ∀ client, client ∉ workers →
    (config.threads client).call = .idle ∨ (config.threads client).call.inDestructor = true
  order : config.shared.destroyed.reverse <+: Member.destructionOrder
  stage : ∀ thread, Stage config.shared (config.threads thread).call
  cleared : config.shared.destroyed ≠ [] → config.shared.done = true ∧ ∀ worker ∈ workers,
    (config.threads worker).loop.clear config.shared.workQueue.queue = true
  joins : ∀ thread remaining rest, (config.threads thread).call = .joining remaining rest →
    ∀ worker ∈ workers, worker ∈ remaining ∨ (config.threads worker).loop = .exited
  joined : .threads ∈ config.shared.destroyed → ∀ worker ∈ workers,
    (config.threads worker).loop = .exited

variable [DecidableEq Tid] {width : Nat} {workers : List Tid} {thread : Tid}
  {pool pool' : Pool Tid} {state state' : Local Tid} {action : Action Tid}

theorem StepCase.outside (step : StepCase width thread pool action state pool' state')
    (outside : state.call.inDestructor = false) :
    (pool'.done = pool.done ∧ pool'.destroyed = pool.destroyed ∧ pool'.threads = pool.threads) ∧
      (state'.call.inDestructor = false ∨
        action = .call .destroy ∧ state.call = .idle ∧ state'.call = .setDone) := by
  cases step with
  | submit | waitAll => exact ⟨⟨rfl, rfl, rfl⟩, Or.inl rfl⟩
  | destroy => exact ⟨⟨rfl, rfl, rfl⟩, Or.inr ⟨rfl, rfl, rfl⟩⟩
  | loop taken =>
      cases taken with
      | exit | enter | tryPop | took | nothing | ran | last | more | lock | notifyAll | unlock
      | yield | drop => exact ⟨⟨rfl, rfl, rfl⟩, Or.inl rfl⟩
  | call _ taken =>
      cases taken with
      | setDone | destroyed | joinAll | destroy | joined | join =>
          simp [CallPc.inDestructor] at outside
      | add | convert | throwConvert | push | submitted | threw | lock | testZero | testMore
      | block | wake | relock | unlock => exact ⟨⟨rfl, rfl, rfl⟩, Or.inl rfl⟩

/-- A step outside the destructor changes only members that it accesses. -/
theorem StepCase.unchanged (step : StepCase width thread pool action state pool' state')
    (outside : state.call.inDestructor = false) {member : Member}
    (untouched : member ∉ state.accesses) : member.Unchanged pool pool' := by
  cases step with
  | submit | waitAll | destroy => cases member <;> rfl
  | loop taken =>
      replace untouched := fun accessed => untouched (List.mem_append_left _ accessed)
      cases taken with
      | exit | enter | took | nothing | ran | yield | drop => cases member <;> rfl
      | tryPop taken within =>
          cases member with
          | workQueue => cases taken <;> exact absurd (List.mem_singleton_self _) untouched
          | _ => rfl
      | last | more =>
          cases member with
          | taskCount => exact absurd (List.mem_singleton_self _) untouched
          | _ => rfl
      | lock | unlock =>
          cases member with
          | tasksCompleteMutex => exact absurd (List.mem_singleton_self _) untouched
          | _ => rfl
      | notifyAll =>
          cases member with
          | tasksComplete => exact absurd (List.mem_singleton_self _) untouched
          | _ => rfl
  | call _ taken =>
      replace untouched := fun accessed => untouched (List.mem_append_right _ accessed)
      cases taken with
      | convert | throwConvert | submitted | threw | testZero | testMore => cases member <;> rfl
      | add =>
          cases member with
          | taskCount => exact absurd (List.mem_singleton_self _) untouched
          | _ => rfl
      | push task taken within =>
          cases member with
          | workQueue => cases taken <;> exact absurd (List.mem_singleton_self _) untouched
          | _ => rfl
      | lock | unlock =>
          cases member with
          | tasksCompleteMutex => exact absurd (List.mem_singleton_self _) untouched
          | _ => rfl
      | block | wake | relock =>
          cases member with
          | tasksComplete | tasksCompleteMutex => simp [CallPc.accesses] at untouched
          | _ => rfl
      | setDone | destroyed | joinAll | destroy | joined | join =>
          simp [CallPc.inDestructor] at outside

theorem StepCase.finishing (step : StepCase width thread pool action state pool' state') :
    (state'.loop = .client ↔ state.loop = .client) ∧
      (state.loop = .exited → state'.loop = .exited) ∧
      ∀ worker ∈ pool'.finished, worker ∈ pool.finished ∨
        worker = thread ∧ state'.loop = .exited := by
  cases step with
  | submit | waitAll | destroy => exact ⟨Iff.rfl, id, fun _ => Or.inl⟩
  | loop taken =>
      cases taken with
      | exit =>
          refine ⟨by simp, by simp, fun worker member => ?_⟩
          rcases Finset.mem_insert.mp member with rfl | member
          · exact Or.inr ⟨rfl, rfl⟩
          · exact Or.inl member
      | enter | tryPop | took | nothing | ran | last | more | lock | notifyAll | unlock | yield
      | drop => exact ⟨by simp, by simp, fun _ => Or.inl⟩
  | call _ taken =>
      cases taken with
      | add | convert | throwConvert | push | submitted | threw | lock | testZero | testMore
      | block | wake | relock | unlock | setDone | destroyed | joinAll | destroy | joined
      | join => exact ⟨Iff.rfl, id, fun _ => Or.inl⟩

/-- Once `done` is set, a clear worker stays clear and leaves the stored tasks alone. -/
theorem StepCase.clear (step : StepCase width thread pool action state pool' state')
    (done : pool.done = true) (worker : state.loop ≠ .client)
    (clear : state.loop.clear pool.workQueue.queue = true) :
    pool'.workQueue.queue = pool.workQueue.queue ∧
      state'.loop.clear pool.workQueue.queue = true := by
  have stays {loop : LoopPc} (calls : loop.mayCall = true) (inside : loop ≠ .client)
      (clear : loop.clear pool.workQueue.queue = true) : False := by
    cases loop with
    | client => exact inside rfl
    | running task => simp [LoopPc.clear] at clear
    | _ => simp [LoopPc.mayCall] at calls
  cases step with
  | submit calls | waitAll calls | destroy calls | call calls =>
      exact (stays calls worker clear).elim
  | loop taken =>
      cases taken with
      | exit | nothing | yield | drop => exact ⟨rfl, rfl⟩
      | enter running => simp [running] at done
      | took | ran | last | more | lock | notifyAll | unlock => simp [LoopPc.clear] at clear
      | tryPop taken within =>
          cases taken with
          | lock => exact ⟨rfl, clear⟩
          | empty => exact ⟨rfl, rfl⟩
          | nonempty stored => simp [LoopPc.clear, stored] at clear
          | move | popFront => simp [LoopPc.clear] at clear
          | unlock val =>
              cases val with
              | none => exact ⟨rfl, rfl⟩
              | some task => simp [LoopPc.clear] at clear

/-! ## The teardown -/

variable {before : Config Tid}

omit [DecidableEq Tid] in
theorem Stage.of_outside {call : CallPc Tid} (outside : call.inDestructor = false) :
    Stage pool call := by
  cases call with
  | setDone | destroying | joining => simp [CallPc.inDestructor] at outside
  | _ => trivial

omit [DecidableEq Tid] in
theorem Stage.congr {call : CallPc Tid} (done : pool'.done = pool.done)
    (destroyed : pool'.destroyed = pool.destroyed) (stage : Stage pool call) :
    Stage pool' call := by
  cases call with
  | setDone | destroying | joining => simpa only [Stage, done, destroyed] using stage
  | _ => trivial

/-- Once the destructor has started, a client outside the pool makes no step. -/
theorem Teardown.client_waits (roles : Roles workers before)
    (aside : ClientsAside workers before (thread, action))
    (step : StepCase width thread before.shared action (before.threads thread) pool' state')
    (client : thread ∉ workers) (idle : (before.threads thread).call = .idle)
    (started : before.shared.done = true ∨
      ∃ other, other ∉ workers ∧ (before.threads other).call = .setDone) : False := by
  have loop := (roles.loops thread).resolve_left client
  have quiet (call : Call) (same : action = .call call) : False := by
    subst same
    obtain ⟨running, others⟩ := aside.2 client
    rcases started with done | ⟨other, foreign, destroys⟩
    · simp [done] at running
    · exact (others other foreign).1 destroys
  generalize before.threads thread = state at step loop idle
  cases step with
  | submit | waitAll | destroy => exact quiet _ rfl
  | loop taken =>
      obtain rfl := loop
      cases taken
  | call _ taken =>
      obtain rfl := idle
      cases taken

omit [DecidableEq Tid] in
theorem Teardown.started (teardown : Teardown workers before)
    (inside : (before.threads thread).call.inDestructor = true) :
    before.shared.done = true ∨
      ∃ other, other ∉ workers ∧ (before.threads other).call = .setDone := by
  have client : thread ∉ workers := fun worker => by simp [teardown.outside thread worker] at inside
  have stage := teardown.stage thread
  cases position : (before.threads thread).call with
  | setDone => exact Or.inr ⟨thread, client, position⟩
  | destroying | joining =>
      rw [position] at stage
      exact Or.inl stage.1
  | _ => simp [position, CallPc.inDestructor] at inside

theorem StepCase.loop_exited (step : StepCase width thread before.shared action
      (before.threads thread) pool' state') (worker : Tid)
    (finished : (before.threads worker).loop = .exited) :
    (Function.update before.threads thread state' worker).loop = .exited := by
  by_cases same : worker = thread
  · subst same
    simpa using step.finishing.2.1 finished
  · simpa [same] using finished

section Outside

variable (teardown : Teardown workers before) (roles : Roles workers before)
  (aside : ClientsAside workers before (thread, action))
  (step : StepCase width thread before.shared action (before.threads thread) pool' state')
  (outside : (before.threads thread).call.inDestructor = false)
include step outside

theorem StepCase.destroys (inside : state'.call.inDestructor = true) :
    action = .call .destroy ∧ (before.threads thread).call = .idle ∧ state'.call = .setDone :=
  (step.outside outside).2.resolve_left (by simp [inside])

include teardown roles aside

theorem Teardown.mem_workers_of_done (done : before.shared.done = true) : thread ∈ workers := by
  by_contra foreign
  have idle := (teardown.quiet done thread foreign).resolve_right (by simp [outside])
  exact client_waits roles aside step foreign idle (Or.inl done)

theorem Teardown.alone_outside {destroyer other : Tid}
    (inside : (Function.update before.threads thread state' destroyer).call.inDestructor = true)
    (foreign : other ∉ workers) (different : other ≠ destroyer) :
    (Function.update before.threads thread state' other).call = .idle := by
  by_cases same : destroyer = thread
  · subst same
    obtain ⟨rfl, -, -⟩ := step.destroys outside (by simpa using inside)
    have foreign' : destroyer ∉ workers := fun worker => aside.1 worker rfl
    simpa [different] using ((aside.2 foreign').2 other foreign).2 rfl
  · have inside' : (before.threads destroyer).call.inDestructor = true := by
      simpa [same] using inside
    have idle := teardown.alone destroyer inside' other foreign different
    by_cases mover : other = thread
    · subst mover
      exact (client_waits roles aside step foreign idle (teardown.started inside')).elim
    · simpa [mover] using idle

theorem Teardown.cleared_outside (some : before.shared.destroyed ≠ []) :
    before.shared.done = true ∧ ∀ worker ∈ workers,
      (Function.update before.threads thread state' worker).loop.clear
        pool'.workQueue.queue = true := by
  obtain ⟨done, clear⟩ := teardown.cleared some
  have worker := teardown.mem_workers_of_done roles aside step outside done
  obtain ⟨stored, clear'⟩ := step.clear done (teardown.loops thread worker) (clear thread worker)
  refine ⟨done, ?_⟩
  rw [stored, Function.forall_update_iff before.threads (fun worker state => worker ∈ workers →
    state.loop.clear before.shared.workQueue.queue = true)]
  exact ⟨fun _ => clear', fun worker _ => clear worker⟩

/-- A step outside the destructor keeps the facts about the destructor. -/
theorem Teardown.step_outside :
    Teardown workers ⟨pool', Function.update before.threads thread state'⟩ := by
  obtain ⟨⟨done, destroyed, threads⟩, call⟩ := step.outside outside
  obtain ⟨client, -, finishing⟩ := step.finishing
  refine
    { threads := threads.trans teardown.threads
      finished := ?_
      loops := ?_
      outside := ?_
      alone := fun _ inside _ => teardown.alone_outside roles aside step outside inside
      quiet := ?_
      order := by rw [destroyed]; exact teardown.order
      stage := ?_
      cleared := ?_
      joins := ?_
      joined := ?_ }
  · intro worker member
    rcases finishing worker member with earlier | ⟨rfl, now⟩
    · exact step.loop_exited worker (teardown.finished worker earlier)
    · simpa using now
  · rw [Function.forall_update_iff before.threads (fun worker state => worker ∈ workers →
      state.loop ≠ .client)]
    exact ⟨fun worker same => teardown.loops thread worker (client.mp same),
      fun worker _ => teardown.loops worker⟩
  · rw [Function.forall_update_iff before.threads (fun worker state => worker ∈ workers →
      state.call.inDestructor = false)]
    refine ⟨fun worker => ?_, fun worker _ => teardown.outside worker⟩
    by_contra inside
    obtain ⟨rfl, -, -⟩ := step.destroys outside (by simpa using inside)
    exact aside.1 worker rfl
  · intro set other foreign
    have set' : before.shared.done = true := done.symm.trans set
    have worker := teardown.mem_workers_of_done roles aside step outside set'
    have different : other ≠ thread := fun same => foreign (same ▸ worker)
    simpa [different] using teardown.quiet set' other foreign
  · rw [Function.forall_update_iff before.threads (fun _ state => Stage pool' state.call)]
    refine ⟨?_, fun other _ => (teardown.stage other).congr done destroyed⟩
    rcases call with outside' | ⟨rfl, -, begun⟩
    · exact .of_outside outside'
    · have foreign : thread ∉ workers := fun worker => aside.1 worker rfl
      rw [begun]
      exact done.trans (aside.2 foreign).1
  · intro some
    obtain ⟨set, clear⟩ := teardown.cleared_outside roles aside step outside (destroyed ▸ some)
    exact ⟨done.trans set, clear⟩
  · intro joiner remaining rest position worker member
    have different : joiner ≠ thread := by
      rintro rfl
      have position : state'.call = .joining remaining rest := by simpa using position
      obtain ⟨-, -, begun⟩ := step.destroys outside (by rw [position]; rfl)
      simp [position] at begun
    have position' : (before.threads joiner).call = .joining remaining rest := by
      simpa [different] using position
    exact (teardown.joins joiner remaining rest position' worker member).imp_right
      (step.loop_exited worker)
  · intro joined worker member
    exact step.loop_exited worker (teardown.joined (destroyed ▸ joined) worker member)

end Outside

theorem Teardown.advance (teardown : Teardown workers before) (pool' : Pool Tid)
    (call' : CallPc Tid) (inside : (before.threads thread).call.inDestructor = true)
    (threads : pool'.threads = before.shared.threads)
    (finished : pool'.finished = before.shared.finished)
    (leaves : call' = .idle ∨ call'.inDestructor = true)
    (order : pool'.destroyed.reverse <+: Member.destructionOrder) (stage : Stage pool' call')
    (cleared : pool'.destroyed ≠ [] → pool'.done = true ∧ ∀ worker ∈ workers,
      (before.threads worker).loop.clear pool'.workQueue.queue = true)
    (joins : ∀ remaining rest, call' = .joining remaining rest → ∀ worker ∈ workers,
      worker ∈ remaining ∨ (before.threads worker).loop = .exited)
    (joined : .threads ∈ pool'.destroyed → ∀ worker ∈ workers,
      (before.threads worker).loop = .exited) :
    Teardown workers ⟨pool', Function.update before.threads thread
      ⟨(before.threads thread).loop, call'⟩⟩ := by
  have client : thread ∉ workers := fun worker => by simp [teardown.outside thread worker] at inside
  have loop (other : Tid) : (Function.update before.threads thread
      ⟨(before.threads thread).loop, call'⟩ other).loop = (before.threads other).loop := by
    by_cases same : other = thread
    · subst same
      simp
    · simp [same]
  have idle (other : Tid) (foreign : other ∉ workers) (different : other ≠ thread) :=
    teardown.alone thread inside other foreign different
  have outside (other : Tid) (different : other ≠ thread) :
      (before.threads other).call.inDestructor = false := by
    by_cases worker : other ∈ workers
    · exact teardown.outside other worker
    · rw [idle other worker different]
      rfl
  refine
    { threads := threads.trans teardown.threads
      finished := by simpa only [finished, loop] using teardown.finished
      loops := by simpa only [loop] using teardown.loops
      outside := fun worker member => ?_
      alone := fun destroyer inside' other foreign different => ?_
      quiet := fun _ other foreign => ?_
      order
      stage := ?_
      cleared := by simpa only [loop] using cleared
      joins := fun joiner remaining rest position => ?_
      joined := by simpa only [loop] using joined }
  · have different : worker ≠ thread := fun same => client (same ▸ member)
    simpa [different] using teardown.outside worker member
  · by_cases same : other = thread
    · subst same
      have inside' : (before.threads destroyer).call.inDestructor = true := by
        simpa [different.symm] using inside'
      simp [outside destroyer different.symm] at inside'
    · simpa [same] using idle other foreign same
  · by_cases same : other = thread
    · subst same
      simpa using leaves
    · exact Or.inl (by simpa [same] using idle other foreign same)
  · rw [Function.forall_update_iff before.threads (fun _ state => Stage pool' state.call)]
    exact ⟨stage, fun other different => .of_outside (outside other different)⟩
  · simp only [loop]
    by_cases same : joiner = thread
    · subst same
      exact joins remaining rest (by simpa using position)
    · have position' : (before.threads joiner).call = .joining remaining rest := by
        simpa [same] using position
      have inside' := outside joiner same
      simp [position', CallPc.inDestructor] at inside'

theorem Teardown.step_inside (teardown : Teardown workers before)
    (clear : ClearAtDestruction workers before (thread, action))
    (step : StepCase width thread before.shared action (before.threads thread) pool' state')
    (inside : (before.threads thread).call.inDestructor = true) :
    Teardown workers ⟨pool', Function.update before.threads thread state'⟩ := by
  have stage := teardown.stage thread
  have joins := teardown.joins thread
  have advance := fun pool' call' => teardown.advance pool' call' inside
  dsimp only [ClearAtDestruction] at clear
  generalize before.threads thread = state at step inside stage joins clear advance
  cases step with
  | submit | waitAll | destroy | loop => simp [CallPc.inDestructor] at inside
  | call _ taken =>
      cases taken with
      | setDone =>
          have whole : before.shared.destroyed = [] := by
            by_contra some
            have running : before.shared.done = false := stage
            simp [(teardown.cleared some).1] at running
          exact advance _ _ rfl rfl (Or.inr rfl) teardown.order ⟨rfl, by simp [whole]⟩
            (fun some => absurd whole some) nofun teardown.joined
      | destroyed =>
          exact advance _ _ rfl rfl (Or.inl rfl) teardown.order trivial teardown.cleared nofun
            teardown.joined
      | joinAll rest =>
          refine advance _ _ rfl rfl (Or.inr rfl) teardown.order stage teardown.cleared ?_
            teardown.joined
          rintro remaining rest' same worker member
          obtain ⟨rfl, rfl⟩ := CallPc.joining.inj same
          exact Or.inl (teardown.threads ▸ member)
      | @destroy member rest foreign =>
          obtain ⟨done, split⟩ := stage
          have split' : (member :: before.shared.destroyed).reverse ++ rest =
              Member.destructionOrder := by simpa using split
          refine advance _ _ rfl rfl (Or.inr rfl) ⟨rest, split'⟩ ⟨done, split'⟩
            (fun _ => ⟨done, fun worker inside => ?_⟩) nofun fun gone => ?_
          · by_cases whole : before.shared.destroyed = []
            · exact clear (congrArg CallPc.destroying (by simpa [whole] using split)) worker inside
            · exact (teardown.cleared whole).2 worker inside
          · exact teardown.joined ((List.mem_cons.mp gone).resolve_left foreign.symm)
      | joined rest =>
          obtain ⟨done, split⟩ := stage
          have split' : (.threads :: before.shared.destroyed).reverse ++ rest =
              Member.destructionOrder := by simpa using split
          have some : before.shared.destroyed ≠ [] := by
            intro whole
            simp [whole, Member.destructionOrder] at split
          exact advance _ _ rfl rfl (Or.inr rfl) ⟨rest, split'⟩ ⟨done, split'⟩
            (fun _ => teardown.cleared some) nofun
            fun _ worker inside => (joins [] rest rfl worker inside).resolve_left nofun
      | join remaining rest finished =>
          refine advance _ _ rfl rfl (Or.inr rfl) teardown.order stage teardown.cleared ?_
            teardown.joined
          rintro remaining' rest' same worker inside
          obtain ⟨rfl, rfl⟩ := CallPc.joining.inj same
          rcases joins _ _ rfl worker inside with member | exited
          · rcases List.mem_cons.mp member with rfl | member
            · exact Or.inr (teardown.finished _ finished)
            · exact Or.inl member
          · exact Or.inr exited
      | _ => simp [CallPc.inDestructor] at inside

/-- The facts about the teardown hold throughout the runs in which the destructor waits until the
workers are clear. -/
theorem teardown_of_reachable {config : Config Tid}
    (reach : ((program width workers).system.restrict (ClearRun workers)).Reachable config) :
    Teardown workers config := by
  refine reach.invariant (motive := Teardown workers) ?_ ?_
  · rintro ⟨pool, threads⟩ ⟨rfl, rfl⟩
    refine ⟨rfl, nofun, fun worker member => ?_, fun _ _ => rfl, nofun, nofun, List.nil_prefix,
      fun _ => trivial, fun some => absurd rfl some, nofun, nofun⟩
    simp [initial, member]
  · rintro before ⟨thread, action⟩ after earlier teardown ⟨step, aside, clear⟩
    obtain ⟨pool', state', change, rfl⟩ := exists_stepCase earlier.of_restrict step
    cases inside : (before.threads thread).call.inDestructor with
    | false =>
        have roles := roles_of_reachable earlier.of_restrict
        exact teardown.step_outside roles aside change inside
    | true => exact teardown.step_inside clear change inside

theorem threads_mem_destroyed {destroyed : List Member}
    (order : destroyed.reverse <+: Member.destructionOrder)
    (gone : .workQueue ∈ destroyed ∨ .done ∈ destroyed) : .threads ∈ destroyed := by
  have all : ∀ first ∈ Member.destructionOrder.inits,
      .workQueue ∈ first ∨ .done ∈ first → .threads ∈ first := by decide
  simpa using all _ ((List.mem_inits _ _).mpr order) (by simpa using gone)

theorem accesses_of_clear {loop : LoopPc} {stored : List (Option Task)}
    (clear : loop.clear stored = true) {member : Member} (access : member ∈ loop.accesses) :
    member = .workQueue ∨ member = .done := by
  cases loop with
  | testDone => exact Or.inr (List.mem_singleton.mp access)
  | tryPop pc =>
      cases pc with
      | returning => simp [LoopPc.accesses] at access
      | _ => exact Or.inl (List.mem_singleton.mp access)
  | fetchSub | lockComplete | notifyAll | unlockComplete => simp [LoopPc.clear] at clear
  | client | running | yield | dropTask | exited => simp [LoopPc.accesses] at access

/-- No worker accesses a destroyed member when the destructor finds every worker clear. -/
theorem safeStep_of_clearRun {label : Tid × Action Tid}
    (reach : ((program width workers).system.restrict (ClearRun workers)).Reachable before) :
    SafeStep workers before label := by
  intro worker member access gone
  have teardown := teardown_of_reachable reach
  obtain ⟨-, asserted⟩ := assertion_of_reachable reach.of_restrict
  have clear := (teardown.cleared (List.ne_nil_of_mem gone)).2 label.1 worker
  -- a clear worker runs no task, so it is in no call of the pool
  have idle : (before.threads label.1).call = .idle := by
    refine (asserted label.1).consistent.calls.resolve_left fun calls => ?_
    have inside := teardown.loops label.1 worker
    cases position : (before.threads label.1).loop with
    | client => exact inside position
    | running => simp [position, LoopPc.clear] at clear
    | _ => simp [position, LoopPc.mayCall] at calls
  have access : member ∈ (before.threads label.1).loop.accesses := by
    simpa [Local.accesses, idle, CallPc.accesses] using access
  have last : .workQueue ∈ before.shared.destroyed ∨ .done ∈ before.shared.destroyed := by
    rcases accesses_of_clear clear access with rfl | rfl
    · exact Or.inl gone
    · exact Or.inr gone
  have exited := teardown.joined (threads_mem_destroyed teardown.order last) label.1 worker
  simp [exited, LoopPc.accesses] at access

/-- A client submits a task. -/
def clientSubmits : List (Fin 2 × Action (Fin 2)) :=
  [(1, .call .submit), (1, .run), (1, .run), (1, .queue .run), (1, .queue .run),
    (1, .queue (.notifyOne none)), (1, .queue .run), (1, .run)]

/-- The worker takes the task, runs it and counts it down. -/
def workerRuns : List (Fin 2 × Action (Fin 2)) :=
  (0, .run) :: List.replicate 5 (0, .queue .run) ++ List.replicate 3 (0, .run)

/-- The client waits for the task and starts to destroy the pool. -/
def clientDestroys : List (Fin 2 × Action (Fin 2)) :=
  (1, .call .waitAll) :: List.replicate 3 (1, .run) ++ (1, .call .destroy) ::
    List.replicate 2 (1, .run)

/-- The worker has sent its notification before the destruction starts, and tests `done` after
`m_tasksCompleteMutex` has been destroyed. -/
theorem safeStep_of_clearRun_notified : ∃ before : Config (Fin 2),
    (before.shared.destroyed = [.tasksCompleteMutex] ∧ (before.threads 0).accesses = [.done]) ∧
      SafeStep [0] before (0, .run) := by
  have destroyed : ∃ before, ((program 32 [(0 : Fin 2)]).system.restrict (ClearRun [0])).Run
      (initial [0])
      (clientSubmits ++ workerRuns ++ List.replicate 4 (0, .run) ++ clientDestroys) before ∧
      (before.shared.destroyed = [.tasksCompleteMutex] ∧ (before.threads 0).accesses = [.done]) :=
    Program.exists_run_of_execute (by decide +kernel)
  obtain ⟨before, run, facts⟩ := destroyed
  exact ⟨before, facts, safeStep_of_clearRun (run.reachable initial_reachable)⟩

/-- A client waits for its task and destroys the pool while the worker that ran the task has still
to notify; the worker locks a destroyed mutex. -/
theorem locks_destroyed_mutex : ∃ before after : Config (Fin 2),
    ((program 32 [0]).system.restrict fun before label _ =>
      ClientsAside [0] before label).Reachable before ∧
    (program 32 [0]).system.Step before (0, .run) after ∧ ¬ SafeStep [0] before (0, .run) := by
  let aside (before : Config (Fin 2)) (label : Fin 2 × Action (Fin 2)) (_ : Config (Fin 2)) :=
    ClientsAside [0] before label
  let before := (program 32 [0]).finish aside (clientSubmits ++ workerRuns ++ clientDestroys)
    (initial [0])
  let after := (program 32 [0]).finish aside [(0, .run)] before
  have reach : ((program 32 [0]).system.restrict aside).Reachable before :=
    (Program.run_finish (by decide +kernel)).reachable initial_reachable
  have step : ((program 32 [0]).system.restrict aside).Step before (0, .run) after :=
    (Program.run_finish (by decide +kernel)).step_of_single
  exact ⟨before, after, reach, step.1, by decide +kernel⟩

end ThreadPool
end ConcurrencyCourse
