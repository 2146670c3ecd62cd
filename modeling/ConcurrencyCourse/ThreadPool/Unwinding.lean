import ConcurrencyCourse.ThreadPool.Construction

/-!
# How the constructor fails

No task is submitted before the constructor returns, so a worker goes round its loop until it finds
`done` set.  The handler sets `done` before the members are destroyed, and from there on every step
brings the end nearer.  The temporary of a `push_back` that throws is destroyed before the handler
is entered: its destructor joins a worker that runs until `done` is set.
-/

namespace ConcurrencyCourse
namespace ThreadPool

/-! ## Workers without a task -/

/-- Positions of a worker that has no task. -/
def LoopPc.searching : LoopPc → Bool
  | .testDone | .tryPop .tryLock | .tryPop .tryTest | .tryPop (.tryUnlock none)
  | .tryPop (.returning (.popped none)) | .yield | .dropTask none | .exited => true
  | _ => false

/-- Positions at which the mutex of the empty queue is held. -/
def LoopPc.locksQueue : LoopPc → Bool
  | .tryPop .tryTest | .tryPop (.tryUnlock none) => true
  | _ => false

/-- Effects of the steps of a worker while the queue is empty. -/
inductive SearchCase (worker : Nat) (pool : Pool Nat) : LoopPc → Pool Nat → LoopPc → Prop
  | exit : pool.done = true → SearchCase worker pool .testDone
      { pool with finished := insert worker pool.finished } .exited
  | enter : pool.done = false → SearchCase worker pool .testDone pool (.tryPop .tryLock)
  | lock : pool.workQueue.mutex = none → SearchCase worker pool (.tryPop .tryLock)
      { pool with workQueue := { pool.workQueue with mutex := some worker } } (.tryPop .tryTest)
  | test : SearchCase worker pool (.tryPop .tryTest) pool (.tryPop (.tryUnlock none))
  | unlock : SearchCase worker pool (.tryPop (.tryUnlock none))
      { pool with workQueue := { pool.workQueue with mutex := none } }
      (.tryPop (.returning (.popped none)))
  | nothing : SearchCase worker pool (.tryPop (.returning (.popped none))) pool .yield
  | yield : SearchCase worker pool .yield pool (.dropTask none)
  | drop : SearchCase worker pool (.dropTask none) pool .testDone

variable {width threadCount worker : Nat} {failure : Option FailurePoint} {action : Action Nat}
  {pool pool' : Pool Nat} {loop loop' : LoopPc}

/-- While the queue is empty, the steps of a worker without a task lead to no task. -/
theorem LoopCase.searchCase (searching : loop.searching = true) (empty : pool.workQueue.queue = [])
    (step : LoopCase width worker pool action loop pool' loop') :
    SearchCase worker pool loop pool' loop' := by
  cases step with
  | exit done => exact .exit done
  | enter running => exact .enter running
  | tryPop taken _ =>
      cases taken with
      | lock unlocked => exact .lock unlocked
      | empty => exact .test
      | nonempty front | move front => simp [empty] at front
      | popFront val front => simp [empty] at front
      | unlock val =>
          cases val with
          | none => exact .unlock
          | some val => simp [LoopPc.searching] at searching
  | nothing => exact .nothing
  | yield => exact .yield
  | drop task =>
      cases task with
      | none => exact .drop
      | some task => simp [LoopPc.searching] at searching
  | _ => simp [LoopPc.searching] at searching

theorem SearchCase.searching (step : SearchCase worker pool loop pool' loop') :
    loop'.searching = true := by
  cases step <;> rfl

/-! ## The invariant -/

/-- Nobody has submitted a task or waits for one. -/
structure NoTasks (pool : Pool Nat) : Prop where
  queue : pool.workQueue.queue = []
  condVariable : pool.workQueue.condVariable = ∅

/-- What a worker knows. -/
structure Searches (worker : Nat) (construction : Construction) (loop : LoopPc) : Prop where
  searching : loop.searching = true
  locksQueue : construction.pool.workQueue.mutex = some worker ↔ loop.locksQueue = true
  finished : worker ∈ construction.pool.finished ↔ loop = .exited
  waits : construction.started ≤ worker → loop = .testDone

/-- What the constructing thread knows, unless the growth of the vector fails. -/
def Progress (threadCount : Nat) (construction : Construction) : ConstructorPc → Prop
  | .createThread i => i ≤ threadCount ∧ construction.pool.done = false ∧
      construction.started = i ∧ construction.pool.threads = List.range i ∧
      construction.joined = []
  | .pushBack i => i < threadCount ∧ construction.pool.done = false ∧
      construction.started = i + 1 ∧ construction.pool.threads = List.range i ∧
      construction.joined = []
  | .destroyTemporary _ => False
  | .catchHandler => construction.pool.done = false ∧
      construction.pool.threads = List.range construction.started ∧ construction.joined = []
  | .unwinding (.destroying rest) => construction.pool.done = true ∧ rest.Nodup ∧
      construction.pool.threads = List.range construction.started ∧
      construction.joined =
        if .threads ∈ rest then [] else List.range construction.started
  | .unwinding (.joining remaining rest) => construction.pool.done = true ∧
      rest.Nodup ∧ .threads ∉ rest ∧
      construction.pool.threads = List.range construction.started ∧
      construction.joined ++ remaining = List.range construction.started
  | .unwinding _ => False
  | .threw => construction.pool.done = true ∧
      construction.joined = List.range construction.started
  | .returned => construction.pool.done = false

/-- The assertion of one thread. -/
def ConstructionAssertion (threadCount : Nat) :
    Option Nat → Construction → ThreadState → Prop
  | none, construction, .constructing pc => Progress threadCount construction pc
  | some worker, construction, .working loop => Searches worker construction loop
  | _, _, _ => False

/-! ## Steps of the workers -/

theorem Searches.searchCase {construction : Construction}
    (searches : Searches worker construction loop) (noTasks : NoTasks construction.pool)
    (step : loopStep width worker action construction.pool loop = some (pool', loop')) :
    SearchCase worker construction.pool loop pool' loop' := by
  refine (loopStep_cases ?_ step).searchCase searches.searching noTasks.queue
  rintro inner rfl
  have inTry : inner.inTry := by
    cases inner with
    | returning result =>
        cases result with
        | popped => trivial
        | _ => exact absurd searches.searching (by simp [LoopPc.searching])
    | tryLock | tryTest | tryUnlock => trivial
    | _ => exact absurd searches.searching (by simp [LoopPc.searching])
  have holds : inner.holds = (LoopPc.tryPop inner).locksQueue := by
    have searching := searches.searching
    cases inner with
    | tryUnlock val =>
        cases val <;> simp_all [LoopPc.searching, SimpleQueue.Pc.holds, LoopPc.locksQueue]
    | _ => simp_all [LoopPc.searching, SimpleQueue.Pc.holds, LoopPc.locksQueue]
  refine ⟨inTry, by rw [holds]; exact searches.locksQueue, by simp [noTasks.condVariable], ?_⟩
  have intact : construction.pool.workQueue.Intact := ⟨[], noTasks.queue⟩
  cases inner with
  | tryMove | tryPopFront => exact absurd searches.searching (by simp [LoopPc.searching])
  | waitMove | waitPopFront => exact inTry.elim
  | _ => exact fun _ => intact

theorem SearchCase.rely (step : SearchCase worker pool loop pool' loop')
    (locksQueue : pool.workQueue.mutex = some worker ↔ loop.locksQueue = true) {other : Nat}
    (foreign : other ≠ worker) :
    (pool'.workQueue.mutex = some other ↔ pool.workQueue.mutex = some other) ∧
      (other ∈ pool'.finished ↔ other ∈ pool.finished) := by
  cases step with
  | exit => simp [foreign]
  | lock unlocked => simp [unlocked, foreign.symm]
  | unlock =>
      have held := locksQueue.mpr rfl
      simp [held, foreign.symm]
  | _ => simp

theorem SearchCase.kept (step : SearchCase worker pool loop pool' loop') :
    pool'.done = pool.done ∧ pool'.threads = pool.threads ∧
      pool'.workQueue.queue = pool.workQueue.queue ∧
      pool'.workQueue.condVariable = pool.workQueue.condVariable := by
  cases step <;> exact ⟨rfl, rfl, rfl, rfl⟩

theorem SearchCase.searches {construction : Construction}
    (step : SearchCase worker construction.pool loop pool' loop')
    (searches : Searches worker construction loop) (started : worker < construction.started) :
    Searches worker { construction with pool := pool' } loop' := by
  refine ⟨step.searching, ?_, ?_, fun above => absurd started (Nat.not_lt.mpr above)⟩
  · have locksQueue := searches.locksQueue
    cases step with
    | lock | unlock => simp [LoopPc.locksQueue]
    | _ => simpa [LoopPc.locksQueue] using locksQueue
  · have finished := searches.finished
    cases step with
    | exit => simp
    | _ => simpa using finished

/-! ## Steps of the constructing thread -/

theorem Progress.unwinding_step {construction : Construction} {call call' : CallPc Nat}
    (progress : Progress threadCount construction (.unwinding call))
    (step : destroyStep .run construction.pool call = some (pool', call')) :
    Progress threadCount
        { construction with pool := pool', joined := construction.joined ++ call.joins }
        (if call' = .idle then .threw else .unwinding call') ∧
      pool'.workQueue = construction.pool.workQueue ∧
      pool'.finished = construction.pool.finished := by
  have change : CallCase 0 0 construction.pool .run call pool' call' := destroyStep_cases step
  cases change with
  | destroyed =>
      obtain ⟨done, -, threads, joined⟩ := progress
      refine ⟨⟨done, ?_⟩, rfl, rfl⟩
      simpa [CallPc.joins] using joined
  | joinAll rest =>
      obtain ⟨done, distinct, threads, joined⟩ := progress
      obtain ⟨fresh, distinct⟩ := List.nodup_cons.mp distinct
      refine ⟨⟨done, distinct, fresh, threads, ?_⟩, rfl, rfl⟩
      simp only [List.mem_cons_self, if_true] at joined
      simp [CallPc.joins, joined, threads]
  | @destroy member rest notThreads =>
      obtain ⟨done, distinct, threads, joined⟩ := progress
      refine ⟨⟨done, (List.nodup_cons.mp distinct).2, threads, ?_⟩, rfl, rfl⟩
      simpa [CallPc.joins, notThreads.symm] using joined
  | joined rest =>
      obtain ⟨done, distinct, fresh, threads, joined⟩ := progress
      refine ⟨⟨done, distinct, threads, ?_⟩, rfl, rfl⟩
      simpa [CallPc.joins, fresh] using joined
  | join remaining rest =>
      obtain ⟨done, distinct, fresh, threads, joined⟩ := progress
      refine ⟨⟨done, distinct, fresh, threads, ?_⟩, rfl, rfl⟩
      simpa [CallPc.joins] using joined
  | _ => exact progress.elim

theorem Progress.step {construction construction' : Construction} {pc pc' : ConstructorPc}
    (progress : Progress threadCount construction pc)
    (grows : ∀ i < threadCount, failure ≠ some (.growVector i))
    (step : constructorStep threadCount failure construction pc = some (construction', pc')) :
    Progress threadCount construction' pc' ∧
      construction'.pool.workQueue = construction.pool.workQueue ∧
      construction'.pool.finished = construction.pool.finished ∧
      construction.started ≤ construction'.started := by
  cases pc with
  | createThread i =>
      obtain ⟨bounded, running, started, threads, joined⟩ := progress
      simp only [constructorStep] at step
      split at step
      · split at step <;> cases step
        · exact ⟨⟨running, by rw [threads, started], joined⟩, rfl, rfl, le_rfl⟩
        · exact ⟨⟨‹_›, running, rfl, threads, joined⟩, rfl, rfl, by dsimp only; omega⟩
      · cases step
        exact ⟨running, rfl, rfl, le_rfl⟩
  | pushBack i =>
      obtain ⟨bounded, running, started, threads, joined⟩ := progress
      simp only [constructorStep, if_neg (grows i bounded)] at step
      cases step
      exact ⟨⟨bounded, running, started, by simp [threads, List.range_succ], joined⟩, rfl, rfl,
        le_rfl⟩
  | destroyTemporary i => exact progress.elim
  | catchHandler =>
      obtain ⟨running, threads, joined⟩ := progress
      cases step
      refine ⟨⟨rfl, by decide, threads, ?_⟩, rfl, rfl, le_rfl⟩
      rw [if_pos (by decide)]
      exact joined
  | unwinding pc =>
      obtain ⟨⟨pool', call'⟩, taken, same⟩ := Option.map_eq_some_iff.mp step
      cases same
      obtain ⟨progress', workQueue, finished⟩ := progress.unwinding_step taken
      exact ⟨progress', workQueue, finished, le_rfl⟩
  | threw | returned => simp [constructorStep] at step

/-! ## Every run of the constructor -/

variable {config before after : ConstructionConfig}

theorem constructionStep_cases {thread : Option Nat} {construction construction' : Construction}
    {state state' : ThreadState}
    (step : constructionStep width threadCount failure thread action construction state =
      some (construction', state')) :
    (∃ pc pc', thread = none ∧ state = .constructing pc ∧ state' = .constructing pc' ∧
      constructorStep threadCount failure construction pc = some (construction', pc')) ∨
    ∃ worker loop pool' loop', thread = some worker ∧ state = .working loop ∧
      state' = .working loop' ∧ worker < construction.started ∧
      construction' = { construction with pool := pool' } ∧
      loopStep width worker action construction.pool loop = some (pool', loop') := by
  unfold constructionStep at step
  split at step
  · obtain ⟨⟨_, pc'⟩, taken, same⟩ := Option.map_eq_some_iff.mp step
    cases same
    exact Or.inl ⟨_, pc', rfl, rfl, rfl, taken⟩
  · split at step
    · obtain ⟨⟨pool', loop'⟩, taken, same⟩ := Option.map_eq_some_iff.mp step
      cases same
      exact Or.inr ⟨_, _, pool', loop', rfl, rfl, rfl, ‹_›, rfl, taken⟩
    · simp at step
  · simp at step

theorem Progress.congr {construction construction' : Construction} {pc : ConstructorPc}
    (progress : Progress threadCount construction pc)
    (done : construction'.pool.done = construction.pool.done)
    (threads : construction'.pool.threads = construction.pool.threads)
    (started : construction'.started = construction.started)
    (joined : construction'.joined = construction.joined) :
    Progress threadCount construction' pc := by
  cases pc with
  | destroyTemporary => exact progress
  | unwinding call =>
      cases call with
      | destroying | joining =>
          simpa only [Progress, done, threads, started, joined] using progress
      | _ => exact progress.elim
  | _ => simpa only [Progress, done, threads, started, joined] using progress

theorem Searches.congr {construction construction' : Construction}
    (searches : Searches worker construction loop)
    (mutex : construction'.pool.workQueue.mutex = some worker ↔
      construction.pool.workQueue.mutex = some worker)
    (finished : worker ∈ construction'.pool.finished ↔ worker ∈ construction.pool.finished)
    (started : construction.started ≤ construction'.started) :
    Searches worker construction' loop :=
  ⟨searches.searching, mutex.trans searches.locksQueue, finished.trans searches.finished,
    fun above => searches.waits (started.trans above)⟩

/-- What the threads know holds after every run in which the vector can grow. -/
theorem assertion_of_construction (grows : ∀ i < threadCount, failure ≠ some (.growVector i))
    (reach : (construction width threadCount failure).system.Reachable config) :
    NoTasks config.shared.pool ∧
      ∀ thread, ConstructionAssertion threadCount thread config.shared (config.threads thread) := by
  refine Program.invariant_of_assertions (fun construction => NoTasks construction.pool)
    (ConstructionAssertion threadCount) ?_ ?_ reach.unrestricted
  · rintro _ _ ⟨rfl, rfl⟩
    refine ⟨⟨rfl, rfl⟩, fun thread => ?_⟩
    cases thread with
    | none => exact ⟨Nat.zero_le _, rfl, rfl, rfl, rfl⟩
    | some worker => exact ⟨rfl, by simp [beginConstruction, initial, SimpleQueue.Queue.empty,
        LoopPc.locksQueue], by simp [beginConstruction, initial], fun _ => rfl⟩
  · intro before after thread action construction' state' asserted noTasks step _
    have own := asserted thread
    rcases constructionStep_cases step with ⟨pc, pc', rfl, position, rfl, taken⟩ |
      ⟨worker, loop, pool', loop', rfl, position, rfl, started, rfl, taken⟩
    · rw [position] at own
      obtain ⟨progress, workQueue, finished, more⟩ := Progress.step own grows taken
      refine ⟨?_, progress, fun other state foreign assertion => ?_⟩
      · exact ⟨by rw [workQueue]; exact noTasks.queue,
          by rw [workQueue]; exact noTasks.condVariable⟩
      cases other with
      | none => exact absurd rfl foreign
      | some worker =>
          cases state with
          | constructing => exact assertion.elim
          | working => exact Searches.congr assertion (by rw [workQueue]) (by rw [finished]) more
    · rw [position] at own
      have search := Searches.searchCase own noTasks taken
      obtain ⟨done, threads, queue, condVariable⟩ := search.kept
      refine ⟨⟨queue.trans noTasks.queue, condVariable.trans noTasks.condVariable⟩,
        search.searches own started, fun other state foreign assertion => ?_⟩
      cases other with
      | none =>
          cases state with
          | constructing => exact Progress.congr assertion done threads rfl rfl
          | working => exact assertion.elim
      | some other =>
          cases state with
          | constructing => exact assertion.elim
          | working =>
              obtain ⟨mutex, finished⟩ := search.rely (Searches.locksQueue own)
                fun same => foreign (congrArg some same)
              exact Searches.congr assertion mutex finished le_rfl

end ThreadPool
end ConcurrencyCourse
