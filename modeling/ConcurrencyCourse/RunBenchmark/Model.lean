import ConcurrencyCourse.Library.ForkJoin

/-!
# The threads of one benchmark run

`RunBenchmark` starts the threads of a run, takes part in it as the thread with index 0, and waits
for the others.  Every thread calls the benchmark function, whose loop is entered and left through
the barrier of the `ThreadManager`; a thread that has reported an error may return without it, and
is then removed from the barrier.

The fields of `Barrier` are accessed with `lock_` held only, and `results` with `benchmark_mutex_`
held only: what happens under one of them is one step.  `alive_threads_` changes without
`end_cond_mutex_`, so the test and the wait under that mutex are separate steps.
-/

namespace ConcurrencyCourse
namespace RunBenchmark

/-- The two calls of `StartStopBarrier`: by `StartKeepRunning` and by `FinishKeepRunning`. -/
inductive Round
  | start
  | stop
  deriving DecidableEq

/-- Where a thread is in `RunInThread`, and the main thread in `WaitForAllThreads` after it. -/
inductive Pc
  -- the benchmark function and its loop
  | before
  | arriving (round : Round)
  | waiting (round : Round) (phaseNumberCp : Nat)
  | notifying (round : Round)
  | looping (cached : Nat)
  | after
  -- the rest of `RunInThread`
  | returned
  | removing
  | completing
  | signalling
  -- `WaitForAllThreads`
  | locking
  | testing
  | blocking
  | sleeping
  | finished
  deriving DecidableEq

/-- A thread: its position and the fields of its `State`. -/
structure Local (Message : Type*) where
  pc : Pc
  totalIterations : BitVec 64
  /-- `error_occurred_`, with the message of the report. -/
  error : Option Message
  /-- History variable: iterations of the loop. -/
  iterated : Nat

/-- The `Barrier`. -/
structure Barrier (Tid : Type*) where
  runningThreads : Nat
  phaseNumber : Nat
  entered : Nat
  /-- The threads that sleep in `phase_condition_`. -/
  phaseCondition : Finset Tid

/-- The `ThreadManager`. -/
structure Manager (Tid Message Totals : Type*) where
  aliveThreads : Nat
  startStopBarrier : Barrier Tid
  /-- `end_cond_mutex_` is held by the main thread. -/
  endMutex : Bool
  /-- The main thread sleeps in `end_condition_`. -/
  endCondition : Bool
  /-- The summed integers of `results`. -/
  results : Totals
  /-- `has_error_` and `error_message_`. -/
  errorMessage : Option Message
  /-- A `CHECK` has failed. -/
  aborted : Bool

/-- What a thread does next; the benchmark function may report an error, or return. -/
inductive Action (Message : Type*)
  | run
  | skipWithError (message : Message)
  | leave
  | wakeSpuriously
  deriving DecidableEq

variable {Tid Message Totals : Type*}

/-- `State::iterations`. -/
def Local.iterations (caller : Local Message) (maxIterations : BitVec 64) : BitVec 64 :=
  maxIterations - caller.totalIterations + 1

/-- Behind the barrier the loop begins, or has ended. -/
def Local.passed (caller : Local Message) (maxIterations : BitVec 64) : Round → Pc
  -- an error before the loop makes `cached_` zero
  | .start => .looping (if caller.error.isSome then 0 else maxIterations.toNat)
  | .stop => .after

namespace Barrier

variable [DecidableEq Tid]

/-- The last thread has reached the barrier. -/
def nextPhase (barrier : Barrier Tid) : Barrier Tid :=
  { barrier with phaseNumber := barrier.phaseNumber + 1, entered := 0 }

/-- Wait in `phase_condition_`. -/
def sleep (barrier : Barrier Tid) (thread : Tid) : Barrier Tid :=
  { barrier with phaseCondition := insert thread barrier.phaseCondition }

/-- `phase_condition_.notify_all`. -/
def notifyAll (barrier : Barrier Tid) : Barrier Tid := { barrier with phaseCondition := ∅ }

/-- `createBarrier`, up to the wait; `none` when its `CHECK` fails. -/
def arrive (barrier : Barrier Tid) (thread : Tid) (round : Round) : Option (Barrier Tid × Pc) :=
  if barrier.entered < barrier.runningThreads then
    if barrier.entered + 1 < barrier.runningThreads then
      some ({ barrier with entered := barrier.entered + 1 }.sleep thread,
        .waiting round barrier.phaseNumber)
    else some (barrier.nextPhase, .notifying round)
  else none

/-- `createBarrier` after a wake-up: the test of the callback, and what comes after it. -/
def wake (barrier : Barrier Tid) (thread : Tid) (round : Round) (phaseNumberCp : Nat)
    (passed : Pc) : Barrier Tid × Pc :=
  if phaseNumberCp < barrier.phaseNumber then (barrier, passed)
  else if barrier.entered = barrier.runningThreads then (barrier.nextPhase, .notifying round)
  else (barrier.sleep thread, .waiting round phaseNumberCp)

/-- `removeThread`. -/
def removeThread (barrier : Barrier Tid) : Barrier Tid :=
  if barrier.entered = 0 then { barrier with runningThreads := barrier.runningThreads - 1 }
  else { barrier with runningThreads := barrier.runningThreads - 1 }.notifyAll

end Barrier

/-- The first message stays. -/
def Manager.report (manager : Manager Tid Message Totals) (message : Message) :
    Manager Tid Message Totals :=
  { manager with errorMessage := some (manager.errorMessage.getD message) }

/-- Where a thread goes at the end of `RunInThread`. -/
def leaves [DecidableEq Tid] (main thread : Tid) : Pc :=
  if thread = main then .locking else .finished

section Steps

variable [DecidableEq Tid] [Add Totals]

/-- The next step of a thread that does not depend on the benchmark function. -/
def runStep (maxIterations : BitVec 64) (contribution : Tid → Totals) (main thread : Tid)
    (manager : Manager Tid Message Totals) (caller : Local Message) :
    Option (Manager Tid Message Totals × Local Message) :=
  match caller.pc with
  | .before => some (manager, { caller with pc := .arriving .start })
  | .arriving round =>
      match manager.startStopBarrier.arrive thread round with
      | some (barrier, pc) =>
          some ({ manager with startStopBarrier := barrier }, { caller with pc := pc })
      | none => some ({ manager with aborted := true }, caller)
  | .waiting round phaseNumberCp =>
      if thread ∈ manager.startStopBarrier.phaseCondition then none
      else
        let (barrier, pc) := manager.startStopBarrier.wake thread round phaseNumberCp
          (caller.passed maxIterations round)
        some ({ manager with startStopBarrier := barrier }, { caller with pc := pc })
  | .notifying round =>
      some ({ manager with startStopBarrier := manager.startStopBarrier.notifyAll },
        { caller with pc := caller.passed maxIterations round })
  | .looping (cached + 1) =>
      some (manager, { caller with pc := .looping cached, iterated := caller.iterated + 1 })
  | .looping 0 => some (manager, { caller with pc := .arriving .stop, totalIterations := 1 })
  | .returned =>
      if caller.iterations maxIterations = maxIterations then
        some ({ manager with results := manager.results + contribution thread },
          { caller with pc := .removing })
      else some ({ manager with aborted := true }, caller)
  | .removing =>
      some ({ manager with startStopBarrier := manager.startStopBarrier.removeThread },
        { caller with pc := .completing })
  | .completing =>
      some ({ manager with aliveThreads := manager.aliveThreads - 1 },
        { caller with
          pc := if manager.aliveThreads - 1 = 0 then .signalling else leaves main thread })
  | .signalling =>
      if manager.endMutex then none
      else some ({ manager with endCondition := false }, { caller with pc := leaves main thread })
  | .locking =>
      if manager.endMutex then none
      else some ({ manager with endMutex := true }, { caller with pc := .testing })
  | .testing =>
      if manager.aliveThreads = 0 then
        some ({ manager with endMutex := false }, { caller with pc := .finished })
      else some (manager, { caller with pc := .blocking })
  | .blocking =>
      some ({ manager with endMutex := false, endCondition := true },
        { caller with pc := .sleeping })
  | .sleeping =>
      if manager.endCondition || manager.endMutex then none
      else some ({ manager with endMutex := true }, { caller with pc := .testing })
  | .after | .finished => none

/-- The benchmark function has control. -/
def Pc.inFunction : Pc → Bool
  | .before | .looping _ | .after => true
  | _ => false

/-- One step of a thread.  The benchmark function keeps to what `benchmark.h` asks of it: it
reports one error at most, and returns when its loop has ended or after an error. -/
def threadStep (maxIterations : BitVec 64) (contribution : Tid → Totals) (main thread : Tid)
    (action : Action Message) (manager : Manager Tid Message Totals) (caller : Local Message) :
    Option (Manager Tid Message Totals × Local Message) :=
  if manager.aborted then none
  else match action with
    | .run => runStep maxIterations contribution main thread manager caller
    | .skipWithError message =>
        if caller.pc.inFunction ∧ caller.error = none then
          some (manager.report message, { caller with error := some message, totalIterations := 1 })
        else none
    | .leave =>
        if caller.pc = .after ∨ caller.pc.inFunction ∧ caller.error.isSome then
          some (manager, { caller with pc := .returned })
        else none
    | .wakeSpuriously =>
        match caller.pc with
        | .waiting _ _ =>
            let barrier := manager.startStopBarrier
            some ({ manager with startStopBarrier :=
              { barrier with phaseCondition := barrier.phaseCondition.erase thread } }, caller)
        | .sleeping => some ({ manager with endCondition := false }, caller)
        | _ => none

end Steps

/-- A new `ThreadManager`. -/
def newManager [Fintype Tid] [Zero Totals] : Manager Tid Message Totals where
  aliveThreads := Fintype.card Tid
  startStopBarrier := ⟨Fintype.card Tid, 0, 0, ∅⟩
  endMutex := false
  endCondition := false
  results := 0
  errorMessage := none
  aborted := false

/-- A thread that calls `RunInThread`. -/
def newThread (maxIterations : BitVec 64) : Local Message := ⟨.before, maxIterations + 1, none, 0⟩

variable [DecidableEq Tid] [Fintype Tid] [AddCommMonoid Totals]

/-- The threads of one run. -/
def program (maxIterations : BitVec 64) (contribution : Tid → Totals) (main : Tid) :
    Program Tid (Action Message) (Manager Tid Message Totals) (Local Message) where
  Initial manager threads := manager = newManager ∧ threads = fun _ => newThread maxIterations
  step thread action := threadStep maxIterations contribution main thread action

/-- A thread is at its end. -/
def Local.finished (caller : Local Message) : Bool := caller.pc = .finished

/-- One run: the main thread starts the others, calls `RunInThread` and `WaitForAllThreads` itself,
and joins the others. -/
def benchmarkRun (maxIterations : BitVec 64) (contribution : Tid → Totals) (main : Tid)
    (pool : List Tid) :
    TransitionSystem (ForkJoin.State Tid (Manager Tid Message Totals) (Local Message))
      (ForkJoin.Label Tid (Action Message)) :=
  ForkJoin.system (program maxIterations contribution main) Local.finished
    (ForkJoin.startThenJoin (pool ++ [main]) (main :: pool))

end RunBenchmark
end ConcurrencyCourse
