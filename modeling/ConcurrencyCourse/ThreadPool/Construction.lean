import ConcurrencyCourse.ThreadPool.StepCases

/-!
# The constructor of the pool

The constructing thread starts the workers one after another, and the workers run meanwhile.  The
creation of a `std::thread` may fail, and so may the growth of the vector `threads` when the
`JoinableThread` that owns the new thread is pushed.  While the exception unwinds the stack, the
temporary `JoinableThread` is destroyed, if it has been constructed, then the handler sets `done`,
and then the members are destroyed.
-/

namespace ConcurrencyCourse
namespace ThreadPool

/-- What may fail in the iteration of the loop with the given number. -/
inductive FailurePoint
  /-- The construction of the `std::thread`. -/
  | createThread (i : Nat)
  /-- The growth of the vector in `push_back`. -/
  | growVector (i : Nat)
  deriving DecidableEq

/-- Position of the constructing thread. -/
inductive ConstructorPc
  | createThread (i : Nat)
  /-- In `push_back`, with the temporary that owns the thread of the iteration. -/
  | pushBack (i : Nat)
  /-- Unwinding: in the destructor of the temporary. -/
  | destroyTemporary (i : Nat)
  | catchHandler
  /-- Unwinding after the handler: the members are destroyed. -/
  | unwinding (pc : CallPc Nat)
  /-- The exception has been passed to the caller. -/
  | threw
  | returned
  deriving DecidableEq

/-- The pool under construction.  The thread started in an iteration has the number of that
iteration. -/
structure Construction where
  pool : Pool Nat
  /-- Number of threads that have been started. -/
  started : Nat
  /-- History variable: threads that the constructing thread has joined. -/
  joined : List Nat

/-- The constructing thread, or a thread that runs `worker_thread`. -/
inductive ThreadState
  | constructing (pc : ConstructorPc)
  | working (loop : LoopPc)
  deriving DecidableEq

/-- The thread that a `JoinIfJoinable` in the destructor of the vector is about to join. -/
def CallPc.joins {Tid : Type*} : CallPc Tid → List Tid
  | .joining (worker :: _) _ => [worker]
  | _ => []

/-- Steps of the constructing thread. -/
def constructorStep (threadCount : Nat) (failure : Option FailurePoint)
    (construction : Construction) (pc : ConstructorPc) : Option (Construction × ConstructorPc) :=
  let pool := construction.pool
  match pc with
  | .createThread i =>
      if i < threadCount then
        if failure = some (.createThread i) then some (construction, .catchHandler)
        else some ({ construction with started := i + 1 }, .pushBack i)
      else some (construction, .returned)
  | .pushBack i =>
      if failure = some (.growVector i) then some (construction, .destroyTemporary i)
      else some ({ construction with pool := { pool with threads := pool.threads ++ [i] } },
        .createThread (i + 1))
  | .destroyTemporary i =>
      if i ∈ pool.finished then
        some ({ construction with joined := construction.joined ++ [i] }, .catchHandler)
      else none
  | .catchHandler =>
      some ({ construction with pool := { pool with done := true } },
        .unwinding (.destroying Member.destructionOrder))
  | .unwinding pc =>
      (destroyStep .run pool pc).map fun result =>
        ({ construction with pool := result.1, joined := construction.joined ++ pc.joins },
          if result.2 = .idle then .threw else .unwinding result.2)
  | .threw | .returned => none

/-- One step of a thread; `none` is the constructing thread, and a worker runs once it has been
started. -/
def constructionStep (width threadCount : Nat) (failure : Option FailurePoint)
    (thread : Option Nat) (action : Action Nat) (construction : Construction)
    (state : ThreadState) : Option (Construction × ThreadState) :=
  match thread, action, state with
  | none, .run, .constructing pc =>
      (constructorStep threadCount failure construction pc).map fun result =>
        (result.1, .constructing result.2)
  | some worker, action, .working loop =>
      if worker < construction.started then
        (loopStep width worker action construction.pool loop).map fun result =>
          ({ construction with pool := result.1 }, .working result.2)
      else none
  | _, _, _ => none

/-- A pool under construction, with the constructing thread and the workers. -/
abbrev ConstructionConfig := Program.Config (Option Nat) Construction ThreadState

/-- The begin of the constructor. -/
def beginConstruction : ConstructionConfig where
  shared := ⟨(initial []).shared, 0, []⟩
  threads
    | none => .constructing (.createThread 0)
    | some _ => .working .testDone

/-- The constructor of a pool, where `hardware_concurrency()` is `threadCount` and at most one
operation fails. -/
def construction (width threadCount : Nat) (failure : Option FailurePoint) :
    Program (Option Nat) (Action Nat) Construction ThreadState where
  Initial shared threads := shared = beginConstruction.shared ∧ threads = beginConstruction.threads
  step := constructionStep width threadCount failure

/-- The constructing thread is blocked in the join of a worker although `done` is false. -/
def JoinsRunning (config : ConstructionConfig) : Prop :=
  config.shared.pool.done = false ∧ ∃ worker, worker ∉ config.shared.pool.finished ∧
    (config.threads none = .constructing (.destroyTemporary worker) ∨
      ∃ remaining rest, config.threads none =
        .constructing (.unwinding (.joining (worker :: remaining) rest)))

/-- Positions after an exception has been thrown. -/
def ConstructorPc.unwinds : ConstructorPc → Bool
  | .destroyTemporary _ | .catchHandler | .unwinding _ | .threw => true
  | _ => false

/-- The exception has been passed to the caller, and every thread that was started has been joined
once. -/
def EndedByException (config : ConstructionConfig) : Prop :=
  config.threads none = .constructing .threw ∧
    config.shared.joined = List.range config.shared.started

end ThreadPool
end ConcurrencyCourse
