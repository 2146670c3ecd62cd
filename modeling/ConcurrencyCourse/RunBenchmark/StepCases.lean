import ConcurrencyCourse.RunBenchmark.Barrier

/-!
# The steps of a benchmark run

What a step of a thread can do to the barrier, to the end of the run, and to the thread and the
results.
-/

namespace ConcurrencyCourse
namespace RunBenchmark

variable {Tid Message Totals : Type*}

/-- The thread has not been subtracted from `alive_threads_`. -/
def Pc.alive : Pc → Bool
  | .signalling | .locking | .testing | .blocking | .sleeping | .finished => false
  | _ => true

/-- The thread has added its part to the results. -/
def Pc.recorded : Pc → Bool
  | .removing => true
  | pc => !pc.present

/-- The thread is in `WaitForAllThreads`. -/
def Pc.waitsForAll : Pc → Bool
  | .locking | .testing | .blocking | .sleeping => true
  | _ => false

/-- Iterations that a thread without an error has to go. -/
def Pc.toIterate (maxIterations : Nat) : Pc → Nat
  | .before | .arriving .start | .waiting .start _ | .notifying .start => maxIterations
  | .looping cached => cached
  | _ => 0

/-- The loop has been left through `FinishKeepRunning`, or the function has returned. -/
def Pc.pastLoop : Pc → Bool
  | .before | .arriving .start | .waiting .start _ | .notifying .start | .looping _ => false
  | _ => true

section Steps

variable [DecidableEq Tid] [Add Totals] {maxIterations : BitVec 64} {contribution : Tid → Totals}
  {main thread : Tid} {action : Action Message} {manager manager' : Manager Tid Message Totals}
  {caller caller' : Local Message}

theorem behind_passed (caller : Local Message) (maxIterations : BitVec 64) (round : Round) :
    Behind round (caller.passed maxIterations round) := by
  cases round with
  | start => exact ⟨_, rfl⟩
  | stop => rfl

theorem leaves_cases (main thread : Tid) : (leaves main thread = .locking ∧ thread = main) ∨
    leaves main thread = .finished := by
  by_cases same : thread = main
  · exact Or.inl ⟨if_pos same, same⟩
  · exact Or.inr (if_neg same)

/-- What a step of a thread can do. -/
inductive StepCase (maxIterations : BitVec 64) (contribution : Tid → Totals) (main thread : Tid)
    (manager : Manager Tid Message Totals) (caller : Local Message) :
    Action Message → Manager Tid Message Totals → Local Message → Prop
  -- the barrier
  | start (place : caller.pc = .before) :
      StepCase maxIterations contribution main thread manager caller .run manager
        { caller with pc := .arriving .start }
  | crowded (round : Round) (place : caller.pc = .arriving round)
      (full : ¬ manager.startStopBarrier.entered < manager.startStopBarrier.runningThreads) :
      StepCase maxIterations contribution main thread manager caller .run
        { manager with aborted := true } caller
  | enter (round : Round) (place : caller.pc = .arriving round)
      (early : manager.startStopBarrier.entered + 1 < manager.startStopBarrier.runningThreads) :
      StepCase maxIterations contribution main thread manager caller .run
        { manager with startStopBarrier :=
          { manager.startStopBarrier with
            entered := manager.startStopBarrier.entered + 1
            phaseCondition := insert thread manager.startStopBarrier.phaseCondition } }
        { caller with pc := .waiting round manager.startStopBarrier.phaseNumber }
  | last (round : Round) (place : caller.pc = .arriving round)
      (complete : manager.startStopBarrier.entered + 1 =
        manager.startStopBarrier.runningThreads) :
      StepCase maxIterations contribution main thread manager caller .run
        { manager with startStopBarrier := manager.startStopBarrier.nextPhase }
        { caller with pc := .notifying round }
  | pass (round : Round) (phaseNumberCp : Nat) (place : caller.pc = .waiting round phaseNumberCp)
      (awake : thread ∉ manager.startStopBarrier.phaseCondition)
      (past : phaseNumberCp < manager.startStopBarrier.phaseNumber) :
      StepCase maxIterations contribution main thread manager caller .run manager
        { caller with pc := caller.passed maxIterations round }
  | lastAwake (round : Round) (phaseNumberCp : Nat)
      (place : caller.pc = .waiting round phaseNumberCp)
      (awake : thread ∉ manager.startStopBarrier.phaseCondition)
      (here : ¬ phaseNumberCp < manager.startStopBarrier.phaseNumber)
      (complete : manager.startStopBarrier.entered = manager.startStopBarrier.runningThreads) :
      StepCase maxIterations contribution main thread manager caller .run
        { manager with startStopBarrier := manager.startStopBarrier.nextPhase }
        { caller with pc := .notifying round }
  | sleepAgain (round : Round) (phaseNumberCp : Nat)
      (place : caller.pc = .waiting round phaseNumberCp)
      (awake : thread ∉ manager.startStopBarrier.phaseCondition)
      (here : ¬ phaseNumberCp < manager.startStopBarrier.phaseNumber)
      (incomplete : manager.startStopBarrier.entered ≠ manager.startStopBarrier.runningThreads) :
      StepCase maxIterations contribution main thread manager caller .run
        { manager with startStopBarrier := manager.startStopBarrier.sleep thread }
        { caller with pc := .waiting round phaseNumberCp }
  | notify (round : Round) (place : caller.pc = .notifying round) :
      StepCase maxIterations contribution main thread manager caller .run
        { manager with startStopBarrier := manager.startStopBarrier.notifyAll }
        { caller with pc := caller.passed maxIterations round }
  | spurious (round : Round) (phaseNumberCp : Nat)
      (place : caller.pc = .waiting round phaseNumberCp) :
      StepCase maxIterations contribution main thread manager caller .wakeSpuriously
        { manager with startStopBarrier :=
          { manager.startStopBarrier with
            phaseCondition := manager.startStopBarrier.phaseCondition.erase thread } } caller
  -- the loop and the benchmark function
  | iterate (cached : Nat) (place : caller.pc = .looping (cached + 1)) :
      StepCase maxIterations contribution main thread manager caller .run manager
        { caller with pc := .looping cached, iterated := caller.iterated + 1 }
  | finish (place : caller.pc = .looping 0) :
      StepCase maxIterations contribution main thread manager caller .run manager
        { caller with pc := .arriving .stop, totalIterations := 1 }
  | skip (message : Message) (inside : caller.pc.inFunction = true) (none : caller.error = none) :
      StepCase maxIterations contribution main thread manager caller (.skipWithError message)
        (manager.report message) { caller with error := some message, totalIterations := 1 }
  | leave (inside : caller.pc.inFunction = true)
      (allowed : caller.pc = .after ∨ caller.error.isSome = true) :
      StepCase maxIterations contribution main thread manager caller .leave manager
        { caller with pc := .returned }
  -- the rest of `RunInThread`
  | uneven (place : caller.pc = .returned)
      (partly : caller.iterations maxIterations ≠ maxIterations) :
      StepCase maxIterations contribution main thread manager caller .run
        { manager with aborted := true } caller
  | record (place : caller.pc = .returned) :
      StepCase maxIterations contribution main thread manager caller .run
        { manager with results := manager.results + contribution thread }
        { caller with pc := .removing }
  | remove (place : caller.pc = .removing) :
      StepCase maxIterations contribution main thread manager caller .run
        { manager with startStopBarrier := manager.startStopBarrier.removeThread }
        { caller with pc := .completing }
  | complete (place : caller.pc = .completing) :
      StepCase maxIterations contribution main thread manager caller .run
        { manager with aliveThreads := manager.aliveThreads - 1 }
        { caller with
          pc := if manager.aliveThreads - 1 = 0 then .signalling else leaves main thread }
  | signal (place : caller.pc = .signalling) (free : manager.endMutex = false) :
      StepCase maxIterations contribution main thread manager caller .run
        { manager with endCondition := false } { caller with pc := leaves main thread }
  -- `WaitForAllThreads`
  | lock (place : caller.pc = .locking) (free : manager.endMutex = false) :
      StepCase maxIterations contribution main thread manager caller .run
        { manager with endMutex := true } { caller with pc := .testing }
  | done (place : caller.pc = .testing) (none_left : manager.aliveThreads = 0) :
      StepCase maxIterations contribution main thread manager caller .run
        { manager with endMutex := false } { caller with pc := .finished }
  | test (place : caller.pc = .testing) (left : manager.aliveThreads ≠ 0) :
      StepCase maxIterations contribution main thread manager caller .run manager
        { caller with pc := .blocking }
  | block (place : caller.pc = .blocking) :
      StepCase maxIterations contribution main thread manager caller .run
        { manager with endMutex := false, endCondition := true } { caller with pc := .sleeping }
  | rouse (place : caller.pc = .sleeping) (notified : manager.endCondition = false)
      (free : manager.endMutex = false) :
      StepCase maxIterations contribution main thread manager caller .run
        { manager with endMutex := true } { caller with pc := .testing }
  | spuriousEnd (place : caller.pc = .sleeping) :
      StepCase maxIterations contribution main thread manager caller .wakeSpuriously
        { manager with endCondition := false } caller

theorem runStep_cases
    (step : runStep maxIterations contribution main thread manager caller =
      some (manager', caller')) :
    StepCase maxIterations contribution main thread manager caller .run manager' caller' := by
  cases place : caller.pc with
  | before =>
      simp only [runStep, place, Option.some.injEq, Prod.mk.injEq] at step
      obtain ⟨rfl, rfl⟩ := step
      exact .start place
  | arriving round =>
      simp only [runStep, place, Barrier.arrive] at step
      split_ifs at step with room early <;>
        simp only [Option.some.injEq, Prod.mk.injEq] at step <;> obtain ⟨rfl, rfl⟩ := step
      · exact .enter round place early
      · exact .last round place (by omega)
      · exact .crowded round place room
  | waiting round phaseNumberCp =>
      simp only [runStep, place, Barrier.wake] at step
      split_ifs at step with asleep past complete <;>
        simp only [Option.some.injEq, Prod.mk.injEq] at step <;> obtain ⟨rfl, rfl⟩ := step
      · exact .pass round phaseNumberCp place asleep past
      · exact .lastAwake round phaseNumberCp place asleep past complete
      · exact .sleepAgain round phaseNumberCp place asleep past complete
  | notifying round =>
      simp only [runStep, place, Option.some.injEq, Prod.mk.injEq] at step
      obtain ⟨rfl, rfl⟩ := step
      exact .notify round place
  | looping cached =>
      cases cached <;> simp only [runStep, place, Option.some.injEq, Prod.mk.injEq] at step <;>
        obtain ⟨rfl, rfl⟩ := step
      · exact .finish place
      · exact .iterate _ place
  | returned =>
      simp only [runStep, place] at step
      split_ifs at step with whole <;> simp only [Option.some.injEq, Prod.mk.injEq] at step <;>
        obtain ⟨rfl, rfl⟩ := step
      · exact .record place
      · exact .uneven place whole
  | removing =>
      simp only [runStep, place, Option.some.injEq, Prod.mk.injEq] at step
      obtain ⟨rfl, rfl⟩ := step
      exact .remove place
  | completing =>
      simp only [runStep, place, Option.some.injEq, Prod.mk.injEq] at step
      obtain ⟨rfl, rfl⟩ := step
      exact .complete place
  | signalling =>
      simp only [runStep, place] at step
      split_ifs at step with held
      simp only [Option.some.injEq, Prod.mk.injEq] at step
      obtain ⟨rfl, rfl⟩ := step
      exact .signal place (Bool.eq_false_of_not_eq_true held)
  | locking =>
      simp only [runStep, place] at step
      split_ifs at step with held
      simp only [Option.some.injEq, Prod.mk.injEq] at step
      obtain ⟨rfl, rfl⟩ := step
      exact .lock place (Bool.eq_false_of_not_eq_true held)
  | testing =>
      simp only [runStep, place] at step
      split_ifs at step with left <;> simp only [Option.some.injEq, Prod.mk.injEq] at step <;>
        obtain ⟨rfl, rfl⟩ := step
      · exact .done place left
      · exact .test place left
  | blocking =>
      simp only [runStep, place, Option.some.injEq, Prod.mk.injEq] at step
      obtain ⟨rfl, rfl⟩ := step
      exact .block place
  | sleeping =>
      simp only [runStep, place] at step
      split_ifs at step with waits
      simp only [Option.some.injEq, Prod.mk.injEq] at step
      obtain ⟨rfl, rfl⟩ := step
      rw [Bool.or_eq_true, not_or, Bool.not_eq_true, Bool.not_eq_true] at waits
      exact .rouse place waits.1 waits.2
  | after | finished => simp [runStep, place] at step

theorem threadStep_cases (step : threadStep maxIterations contribution main thread action manager
      caller = some (manager', caller')) :
    manager.aborted = false ∧
      StepCase maxIterations contribution main thread manager caller action manager' caller' := by
  by_cases stopped : manager.aborted = true
  · simp [threadStep, stopped] at step
  simp only [threadStep, if_neg stopped] at step
  refine ⟨Bool.eq_false_of_not_eq_true stopped, ?_⟩
  cases action with
  | run => exact runStep_cases step
  | skipWithError message =>
      simp only at step
      split_ifs at step with allowed
      simp only [Option.some.injEq, Prod.mk.injEq] at step
      obtain ⟨rfl, rfl⟩ := step
      exact .skip message allowed.1 allowed.2
  | leave =>
      simp only at step
      split_ifs at step with allowed
      simp only [Option.some.injEq, Prod.mk.injEq] at step
      obtain ⟨rfl, rfl⟩ := step
      rcases allowed with place | ⟨inside, error⟩
      · exact .leave (by rw [place]; rfl) (Or.inl place)
      · exact .leave inside (Or.inr error)
  | wakeSpuriously =>
      cases place : caller.pc <;>
        simp only [place, Option.some.injEq, Prod.mk.injEq, reduceCtorEq] at step <;>
        obtain ⟨rfl, rfl⟩ := step
      · exact .spurious _ _ place
      · exact .spuriousEnd place

omit [DecidableEq Tid] [Add Totals] in
/-- In the function a thread is neither at the barrier nor through. -/
theorem calm_of_inFunction {pc : Pc} (inside : pc.inFunction = true) :
    pc.calm = true ∧ pc.present = true ∧ pc.alive = true ∧ pc.recorded = false := by
  cases pc <;> first | exact ⟨rfl, rfl, rfl, rfl⟩ | simp [Pc.inFunction] at inside

theorem StepCase.barrier
    (step : StepCase maxIterations contribution main thread manager caller action manager' caller')
    (sound : manager'.aborted = false) :
    manager.startStopBarrier.StepCase thread caller.pc manager'.startStopBarrier caller'.pc := by
  cases step with
  | crowded | uneven => simp at sound
  | enter round place early => rw [place]; exact .enter round early
  | last round place complete => rw [place]; exact .last round complete
  | pass round phaseNumberCp place awake past =>
      rw [place]
      exact .pass round phaseNumberCp _ awake past (behind_passed _ _ _)
  | lastAwake round phaseNumberCp place awake here complete =>
      rw [place]
      exact .lastAwake round phaseNumberCp awake here complete
  | sleepAgain round phaseNumberCp place awake here incomplete =>
      rw [place]
      exact .sleepAgain round phaseNumberCp awake here incomplete
  | notify round place => rw [place]; exact .notify round _ (behind_passed _ _ _)
  | spurious round phaseNumberCp place => rw [place]; exact .spurious round phaseNumberCp
  | remove place => rw [place]; exact .remove
  | skip message inside =>
      obtain ⟨calm, -⟩ := calm_of_inFunction inside
      exact .quiet _ _ calm calm rfl id
  | leave inside =>
      obtain ⟨calm, present, -⟩ := calm_of_inFunction inside
      exact .quiet _ _ calm rfl present.symm fun _ => trivial
  | complete place =>
      rw [place]
      split
      · exact .quiet _ _ rfl rfl rfl id
      · rcases leaves_cases main thread with ⟨leaves, -⟩ | leaves <;> rw [leaves] <;>
          exact .quiet _ _ rfl rfl rfl id
  | signal place =>
      rw [place]
      rcases leaves_cases main thread with ⟨leaves, -⟩ | leaves <;> simp only [leaves] <;>
        exact .quiet _ _ rfl rfl rfl id
  | start place | iterate _ place | finish place | record place | lock place | done place
  | test place | block place | rouse place | spuriousEnd place =>
      rw [place]
      exact .quiet _ _ rfl rfl rfl id

/-- What a step of a thread can do to the end of the run. -/
inductive EndCase (main thread : Tid) (manager : Manager Tid Message Totals) :
    Pc → Manager Tid Message Totals → Pc → Prop
  | quiet (pc pc' : Pc) (manager' : Manager Tid Message Totals) (alive : pc.alive = true)
      (alive' : pc'.alive = true) (threads : manager'.aliveThreads = manager.aliveThreads)
      (mutex : manager'.endMutex = manager.endMutex)
      (condition : manager'.endCondition = manager.endCondition) :
      EndCase main thread manager pc manager' pc'
  | complete : EndCase main thread manager .completing
      { manager with aliveThreads := manager.aliveThreads - 1 }
      (if manager.aliveThreads - 1 = 0 then .signalling else leaves main thread)
  | signal (free : manager.endMutex = false) : EndCase main thread manager .signalling
      { manager with endCondition := false } (leaves main thread)
  | lock (free : manager.endMutex = false) : EndCase main thread manager .locking
      { manager with endMutex := true } .testing
  | done (none_left : manager.aliveThreads = 0) : EndCase main thread manager .testing
      { manager with endMutex := false } .finished
  | test (left : manager.aliveThreads ≠ 0) :
      EndCase main thread manager .testing manager .blocking
  | block : EndCase main thread manager .blocking
      { manager with endMutex := false, endCondition := true } .sleeping
  | rouse (notified : manager.endCondition = false) (free : manager.endMutex = false) :
      EndCase main thread manager .sleeping { manager with endMutex := true } .testing
  | spurious : EndCase main thread manager .sleeping { manager with endCondition := false }
      .sleeping

theorem StepCase.ending
    (step : StepCase maxIterations contribution main thread manager caller action manager'
      caller') :
    EndCase main thread manager caller.pc manager' caller'.pc := by
  cases step with
  | complete place => rw [place]; exact .complete
  | signal place free => rw [place]; exact .signal free
  | lock place free => rw [place]; exact .lock free
  | done place none_left => rw [place]; exact .done none_left
  | test place left => rw [place]; exact .test left
  | block place => rw [place]; exact .block
  | rouse place notified free => rw [place]; exact .rouse notified free
  | spuriousEnd place => rw [place]; exact .spurious
  | skip message inside =>
      obtain ⟨-, -, alive, -⟩ := calm_of_inFunction inside
      exact .quiet _ _ _ alive alive rfl rfl rfl
  | leave inside =>
      obtain ⟨-, -, alive, -⟩ := calm_of_inFunction inside
      exact .quiet _ _ _ alive rfl rfl rfl rfl
  | pass round _ place | notify round place =>
      rw [place]
      cases round <;> exact .quiet _ _ _ rfl rfl rfl rfl rfl
  | start place | crowded _ place | enter _ place | last _ place | lastAwake _ _ place
  | sleepAgain _ _ place | spurious _ _ place | iterate _ place | finish place | uneven place
  | record place | remove place =>
      rw [place]
      exact .quiet _ _ _ rfl rfl rfl rfl rfl

/-- What a thread has done of its loop. -/
structure Local.Kept (maxIterations : BitVec 64) (caller : Local Message) : Prop where
  total : caller.error.isSome = true ∨ caller.pc.pastLoop = true → caller.totalIterations = 1
  iterated : caller.error = none →
    caller.iterated + caller.pc.toIterate maxIterations.toNat = maxIterations.toNat

/-- What a step adds to the results. -/
structure Adds (contribution : Tid → Totals) (thread : Tid) (manager : Manager Tid Message Totals)
    (caller : Local Message) (manager' : Manager Tid Message Totals) (caller' : Local Message) :
    Prop where
  results : (manager'.results = manager.results ∧ caller'.pc.recorded = caller.pc.recorded) ∨
    (manager'.results = manager.results + contribution thread ∧
      caller.pc.recorded = false ∧ caller'.pc.recorded = true)
  errors : (manager'.errorMessage = manager.errorMessage ∧ caller'.error = caller.error) ∨
    ∃ message, caller.error = none ∧ caller'.error = some message ∧
      manager'.errorMessage = some (manager.errorMessage.getD message)
  sound : manager'.aborted = false

omit [DecidableEq Tid] [Add Totals] in
theorem Local.Kept.move {pc : Pc} (kept : caller.Kept maxIterations)
    (past : caller.error = none → pc.pastLoop = true → caller.pc.pastLoop = true)
    (iterate : caller.error = none →
      pc.toIterate maxIterations.toNat = caller.pc.toIterate maxIterations.toNat) :
    ({ caller with pc := pc } : Local Message).Kept maxIterations := by
  refine ⟨fun given => ?_, fun none => ?_⟩
  · cases error : caller.error with
    | none =>
        refine kept.total (Or.inr (past error ?_))
        simpa [error] using given
    | some message => exact kept.total (Or.inl (by rw [error]; rfl))
  · simpa [iterate none] using kept.iterated none

omit [DecidableEq Tid] in
theorem Adds.refl (thread : Tid) (sound : manager'.aborted = false)
    (results : manager'.results = manager.results)
    (errors : manager'.errorMessage = manager.errorMessage) (error : caller'.error = caller.error)
    (recorded : caller'.pc.recorded = caller.pc.recorded) :
    Adds contribution thread manager caller manager' caller' :=
  ⟨Or.inl ⟨results, recorded⟩, Or.inl ⟨errors, error⟩, sound⟩

/-- A step as the thread and the results see it: no `CHECK` fails. -/
theorem StepCase.adds
    (step : StepCase maxIterations contribution main thread manager caller action manager' caller')
    (sound : manager.aborted = false) (kept : caller.Kept maxIterations)
    (room : ∀ round, caller.pc = .arriving round →
      manager.startStopBarrier.entered < manager.startStopBarrier.runningThreads) :
    caller'.Kept maxIterations ∧ Adds contribution thread manager caller manager' caller' := by
  have whole (place : caller.pc = .returned) : caller.iterations maxIterations = maxIterations := by
    rw [Local.iterations, kept.total (Or.inr (by rw [place]; rfl)), BitVec.sub_add_cancel]
  cases step with
  | crowded round place full => exact absurd (room round place) full
  | uneven place partly => exact absurd (whole place) partly
  | enter round place | last round place | lastAwake round _ place | sleepAgain round _ place =>
      refine ⟨kept.move ?_ ?_, .refl thread sound rfl rfl rfl ?_⟩ <;> cases round <;>
        simp [place, Pc.pastLoop, Pc.toIterate, Pc.recorded, Pc.present]
  | pass round _ place | notify round place =>
      refine ⟨kept.move ?_ ?_, .refl thread sound rfl rfl rfl ?_⟩ <;> cases round <;>
        simp +contextual [place, Pc.pastLoop, Pc.toIterate, Pc.recorded, Pc.present, Local.passed]
  | iterate cached place =>
      refine ⟨⟨fun given => kept.total (given.imp_right (by rw [place]; exact id)), fun none => ?_⟩,
        .refl thread sound rfl rfl rfl (by rw [place]; rfl)⟩
      have before := kept.iterated none
      rw [place] at before
      simp only [Pc.toIterate] at before ⊢
      omega
  | finish place =>
      refine ⟨⟨fun _ => rfl, fun none => ?_⟩, .refl thread sound rfl rfl rfl (by rw [place]; rfl)⟩
      have before := kept.iterated none
      rwa [place] at before
  | skip message inside none =>
      exact ⟨⟨fun _ => rfl, by simp⟩, Or.inl ⟨rfl, rfl⟩, Or.inr ⟨message, none, rfl, rfl⟩, sound⟩
  | leave inside allowed =>
      obtain ⟨-, -, -, recorded⟩ := calm_of_inFunction inside
      have ended (none : caller.error = none) : caller.pc = .after :=
        allowed.resolve_right (by simp [none])
      exact ⟨kept.move (fun none _ => by rw [ended none]; rfl)
          (fun none => by rw [ended none]; rfl),
        .refl thread sound rfl rfl rfl recorded.symm⟩
  | record place =>
      exact ⟨kept.move (by simp [place, Pc.pastLoop]) (by simp [place, Pc.toIterate]),
        Or.inr ⟨rfl, by rw [place]; rfl, rfl⟩, Or.inl ⟨rfl, rfl⟩, sound⟩
  | complete place =>
      rcases leaves_cases main thread with ⟨leaves, -⟩ | leaves <;> simp only [leaves] <;> split <;>
        exact ⟨kept.move (by simp [place, Pc.pastLoop]) (by simp [place, Pc.toIterate]),
          .refl thread sound rfl rfl rfl (by rw [place]; rfl)⟩
  | signal place =>
      rcases leaves_cases main thread with ⟨leaves, -⟩ | leaves <;> simp only [leaves] <;>
        exact ⟨kept.move (by simp [place, Pc.pastLoop]) (by simp [place, Pc.toIterate]),
          .refl thread sound rfl rfl rfl (by rw [place]; rfl)⟩
  | spurious | spuriousEnd => exact ⟨kept, .refl thread sound rfl rfl rfl rfl⟩
  | start place | remove place | lock place | done place | test place | block place
  | rouse place =>
      exact ⟨kept.move (by simp [place, Pc.pastLoop]) (by simp [place, Pc.toIterate]),
        .refl thread sound rfl rfl rfl (by rw [place]; rfl)⟩

end Steps

end RunBenchmark
end ConcurrencyCourse
