import ConcurrencyCourse.Library.Interleaving
import Mathlib.Data.UInt

/-!
# The hierarchical mutex

Threads call `lock`, `try_lock` and `unlock` on a set of `hierarchical_mutex` objects.  Each
access to `internal_mutex`, to `previous_hierarchy_value` and to the thread-local
`this_thread_hierarchy_value` is one step.  The platform is the one of the CMake builds:
`unsigned long` has 64 bits and `unsigned` has 32, so saving the index truncates it.
-/

namespace ConcurrencyCourse
namespace HierarchicalMutex

/-- The non-constant members of every `hierarchical_mutex` object of the process. -/
structure Mutexes (Tid Mid : Type*) where
  /-- Thread that has locked the `internal_mutex` of an object. -/
  internalMutex : Mid → Option Tid
  /-- The 32-bit `previous_hierarchy_value` of an object. -/
  previousHierarchyValue : Mid → UInt32
  /-- `abort` has been called. -/
  aborted : Bool

/-- One completed acquisition that has not been released yet. -/
structure Acquisition (Mid : Type*) where
  /-- The mutex acquired. -/
  mutex : Mid
  /-- History variable: the thread's index just before the acquisition. -/
  indexBefore : UInt64
  deriving DecidableEq

/-- The two acquiring calls. -/
inductive Call
  | lock
  | tryLock
  deriving DecidableEq

/-- Position of a thread in the member functions. -/
inductive Pc (Mid : Type*)
  /-- Between calls. -/
  | idle
  /-- In `check_for_hierarchy_violation`. -/
  | check (call : Call) (mutex : Mid)
  /-- At `internal_mutex.lock()` or `internal_mutex.try_lock()`. -/
  | acquire (call : Call) (mutex : Mid)
  /-- At the first assignment of `update_hierarchy_value`. -/
  | savePrevious (mutex : Mid)
  /-- At the second assignment of `update_hierarchy_value`. -/
  | setIndex (mutex : Mid)
  /-- At the assignment of `unlock`. -/
  | restore (mutex : Mid)
  /-- At `internal_mutex.unlock()`. -/
  | release (mutex : Mid)
  deriving DecidableEq

/-- Thread-local state. -/
structure ThreadState (Mid : Type*) where
  /-- `this_thread_hierarchy_value`. -/
  thisThreadHierarchyValue : UInt64
  /-- History variable: the acquisitions still held, the most recent first. -/
  held : List (Acquisition Mid)
  /-- Position in the member functions. -/
  pc : Pc Mid

/-- Actions of a thread: begin a call, continue it, or have `try_lock` fail spuriously. -/
inductive Action (Mid : Type*)
  | lock (mutex : Mid)
  | tryLock (mutex : Mid)
  | unlock (mutex : Mid)
  | run
  | failSpuriously
  deriving DecidableEq

/-- The thread holds the mutex: an acquisition of it has completed and is not yet released. -/
def ThreadState.Holds {Mid : Type*} (thread : ThreadState Mid) (mutex : Mid) : Prop :=
  ∃ acquisition ∈ thread.held, acquisition.mutex = mutex

instance {Mid : Type*} [DecidableEq Mid] (thread : ThreadState Mid) (mutex : Mid) :
    Decidable (thread.Holds mutex) :=
  inferInstanceAs (Decidable (∃ acquisition ∈ thread.held, acquisition.mutex = mutex))

/-- The initial value of `this_thread_hierarchy_value`, the maximum of `unsigned long`. -/
def maxIndex : UInt64 := 18446744073709551615

section Steps

variable {Tid Mid : Type*} [DecidableEq Tid] [DecidableEq Mid] (hierarchyValue : Mid → UInt64)

/-- Take the internal mutex of an object. -/
def Mutexes.acquire (mutexes : Mutexes Tid Mid) (mutex : Mid) (thread : Tid) :
    Mutexes Tid Mid :=
  { mutexes with internalMutex := Function.update mutexes.internalMutex mutex (some thread) }

/-- Free the internal mutex of an object. -/
def Mutexes.release (mutexes : Mutexes Tid Mid) (mutex : Mid) : Mutexes Tid Mid :=
  { mutexes with internalMutex := Function.update mutexes.internalMutex mutex none }

/-- Store a truncated index in an object. -/
def Mutexes.savePrevious (mutexes : Mutexes Tid Mid) (mutex : Mid) (index : UInt64) :
    Mutexes Tid Mid :=
  { mutexes with
    previousHierarchyValue :=
      Function.update mutexes.previousHierarchyValue mutex index.toUInt32 }

/-- One step of a thread that is inside a member function. -/
def continueCall (thread : Tid) (mutexes : Mutexes Tid Mid) (state : ThreadState Mid) :
    Option (Mutexes Tid Mid × ThreadState Mid) :=
  match state.pc with
  | .idle => none
  | .check call mutex =>
      if state.thisThreadHierarchyValue ≤ hierarchyValue mutex then
        some ({ mutexes with aborted := true }, state)
      else
        some (mutexes, { state with pc := .acquire call mutex })
  | .acquire call mutex =>
      match mutexes.internalMutex mutex, call with
      | none, _ => some (mutexes.acquire mutex thread, { state with pc := .savePrevious mutex })
      | some _, .lock => none
      | some _, .tryLock => some (mutexes, { state with pc := .idle })
  | .savePrevious mutex =>
      some (mutexes.savePrevious mutex state.thisThreadHierarchyValue,
        { state with pc := .setIndex mutex })
  | .setIndex mutex =>
      some (mutexes,
        { thisThreadHierarchyValue := hierarchyValue mutex
          held := ⟨mutex, state.thisThreadHierarchyValue⟩ :: state.held
          pc := .idle })
  | .restore mutex =>
      some (mutexes,
        { state with
          thisThreadHierarchyValue := (mutexes.previousHierarchyValue mutex).toUInt64
          pc := .release mutex })
  | .release mutex =>
      some (mutexes.release mutex,
        { state with
          held := state.held.filter fun acquisition => acquisition.mutex ≠ mutex
          pc := .idle })

/-- One step of a thread.  A call begins between calls, and `unlock` only on a held mutex. -/
def threadStep (thread : Tid) (action : Action Mid) (mutexes : Mutexes Tid Mid)
    (state : ThreadState Mid) : Option (Mutexes Tid Mid × ThreadState Mid) :=
  if mutexes.aborted then none else
    match action, state.pc with
    | .lock mutex, .idle => some (mutexes, { state with pc := .check .lock mutex })
    | .tryLock mutex, .idle => some (mutexes, { state with pc := .check .tryLock mutex })
    | .unlock mutex, .idle =>
        if state.Holds mutex then some (mutexes, { state with pc := .restore mutex }) else none
    | .run, _ => continueCall hierarchyValue thread mutexes state
    | .failSpuriously, .acquire .tryLock _ => some (mutexes, { state with pc := .idle })
    | _, _ => none

/-- States of the process. -/
abbrev Config (Tid Mid : Type*) := Program.Config Tid (Mutexes Tid Mid) (ThreadState Mid)

/-- The state before any call: every mutex free and every index maximal. -/
def initial : Config Tid Mid where
  shared := ⟨fun _ => none, fun _ => 0, false⟩
  threads _ := ⟨maxIndex, [], .idle⟩

/-- The threads of a process over its mutexes. -/
def process : Program Tid (Action Mid) (Mutexes Tid Mid) (ThreadState Mid) where
  Initial mutexes threads := mutexes = initial.shared ∧ threads = initial.threads
  step := threadStep hierarchyValue

theorem initial_reachable {allowed : Config Tid Mid → Tid × Action Mid → Config Tid Mid → Prop} :
    ((process hierarchyValue).system.restrict allowed).Reachable (initial : Config Tid Mid) :=
  .initial ⟨rfl, rfl⟩

end Steps

end HierarchicalMutex
end ConcurrencyCourse
