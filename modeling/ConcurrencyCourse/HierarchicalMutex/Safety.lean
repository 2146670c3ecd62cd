import ConcurrencyCourse.HierarchicalMutex.Invariant
import ConcurrencyCourse.Library.CircularWait
import Mathlib.Data.Fin.VecNotation

/-!
# Deadlock freedom and missed violations

A thread that waits for an internal mutex has passed the hierarchy check, so the mutex it waits
for is below everything it holds.  Under scoped locking this makes a circular wait impossible.
When mutexes are released in another order the index may come back above a mutex that is still
held, and the check then lets a violation through.
-/

namespace ConcurrencyCourse
namespace HierarchicalMutex

open CircularWait

variable {Tid Mid : Type*} [DecidableEq Mid] {hierarchyValue : Mid → UInt64}

/-- The object in whose `internal_mutex.lock()` a thread is. -/
def ThreadState.lockingOn (state : ThreadState Mid) : Option Mid :=
  match state.pc with
  | .acquire .lock mutex => some mutex
  | _ => none

omit [DecidableEq Mid] in
theorem lockingOn_eq_some_iff {state : ThreadState Mid} {mutex : Mid} :
    state.lockingOn = some mutex ↔ state.pc = .acquire .lock mutex := by
  unfold ThreadState.lockingOn
  split <;> simp_all

/-- A thread waits only below the mutexes that it has locked. -/
theorem Assertion.wanted_lt_owned {thread : Tid} {mutexes : Mutexes Tid Mid}
    {state : ThreadState Mid} (assertion : Assertion hierarchyValue thread mutexes state)
    {wanted owned : Mid} (waits : state.lockingOn = some wanted)
    (owns : mutexes.internalMutex owned = some thread) :
    hierarchyValue wanted < hierarchyValue owned := by
  rw [lockingOn_eq_some_iff] at waits
  have position := assertion.position
  simp only [Position, waits] at position
  obtain ⟨bounded, below⟩ := position
  rcases assertion.covers owned owns with ⟨acquisition, member, rfl⟩ | wrong | wrong
  · exact UInt64.lt_of_lt_of_le below (bounded acquisition member)
  · simp [waits] at wrong
  · simp [waits] at wrong

variable [DecidableEq Tid]

/-- Threads that release in reverse order of acquisition never wait in a circle. -/
theorem scoped_not_deadlocked {config : Config Tid Mid}
    (reach : ((process hierarchyValue).system.restrict Scoped).Reachable config)
    (threads : Set Tid) :
    ¬ Deadlocked (fun thread => (config.threads thread).lockingOn) config.shared.internalMutex
      threads := by
  have safe : ((process hierarchyValue).system.restrict (ReleaseSafe hierarchyValue)).Reachable
      config := reach.mono fun _ _ lifo => lifo.releaseSafe
  have asserted := assertion_of_reachable safe
  refine not_deadlocked_of_descending (fun wanted owned =>
    (hierarchyValue wanted).toNat < (hierarchyValue owned).toNat) ?_ ?_ threads
  · exact InvImage.wf (fun mutex => (hierarchyValue mutex).toNat) Nat.lt_wfRel.wf
  · intro thread wanted owned waits owns
    exact UInt64.lt_iff_toNat_lt.mp ((asserted thread).wanted_lt_owned waits owns)

/-- Thread 1 is blocked on the mutex that thread 0 holds, and there is no circular wait. -/
theorem scoped_not_deadlocked_blocked :
    ∃ config : Config (Fin 2) (Fin 1),
      ((config.threads 1).lockingOn = some 0 ∧ config.shared.internalMutex 0 = some 0) ∧
        ¬ Deadlocked (fun thread => (config.threads thread).lockingOn)
          config.shared.internalMutex Set.univ := by
  have blocked : ∃ config, ((process fun _ : Fin 1 => 7).system.restrict Scoped).Run
      (initial : Config (Fin 2) (Fin 1))
      [(0, .lock 0), (0, .run), (0, .run), (0, .run), (0, .run), (1, .lock 0), (1, .run)] config ∧
      (config.threads 1).lockingOn = some 0 ∧ config.shared.internalMutex 0 = some 0 :=
    Program.exists_run_of_execute (by decide)
  obtain ⟨config, run, waits⟩ := blocked
  exact ⟨config, waits, scoped_not_deadlocked (run.reachable (initial_reachable _)) Set.univ⟩

/-! ## Releases in any order -/

/-- When every release is safe, the index is at most the value of every mutex still held, except
one whose `unlock` has already restored the index; and no acquisition succeeds on a mutex that is
not below everything held. -/
theorem index_le_held_of_releaseSafe {config : Config Tid Mid}
    (reach : ((process hierarchyValue).system.restrict (ReleaseSafe hierarchyValue)).Reachable
      config) (thread : Tid) :
    (∀ mutex, (config.threads thread).Holds mutex →
        (config.threads thread).pc ≠ .release mutex →
        (config.threads thread).thisThreadHierarchyValue ≤ hierarchyValue mutex) ∧
      ∀ acquired, (config.threads thread).pc = .savePrevious acquired →
        ∀ mutex, (config.threads thread).Holds mutex →
          hierarchyValue acquired < hierarchyValue mutex := by
  have position := (assertion_of_reachable reach thread).position
  constructor
  · rintro mutex ⟨acquisition, member, rfl⟩ notReleased
    cases pc : (config.threads thread).pc with
    | idle | check =>
        simp only [Position, pc] at position
        exact position acquisition member
    | acquire | savePrevious | setIndex =>
        simp only [Position, pc] at position
        exact position.1 acquisition member
    | restore =>
        simp only [Position, pc] at position
        exact position.2.1 acquisition member
    | release released =>
        simp only [Position, pc] at position
        have different : acquisition.mutex ≠ released := by
          rintro rfl
          exact notReleased pc
        exact position.2 acquisition (List.mem_filter.mpr ⟨member, by simpa using different⟩)
  · rintro acquired pc mutex ⟨acquisition, member, rfl⟩
    simp only [Position, pc] at position
    exact UInt64.lt_of_lt_of_le position.2.1 (position.1 acquisition member)

/-- A release below a mutex acquired earlier and still held is safe. -/
theorem index_le_held_of_releaseSafe_nested :
    ∃ config : Config (Fin 1) (Fin 2), (config.threads 0).Holds 0 ∧
      ((∀ mutex, (config.threads 0).Holds mutex → (config.threads 0).pc ≠ .release mutex →
          (config.threads 0).thisThreadHierarchyValue ≤ ![100, 50] mutex) ∧
        ∀ acquired, (config.threads 0).pc = .savePrevious acquired →
          ∀ mutex, (config.threads 0).Holds mutex →
            (![100, 50] acquired : UInt64) < ![100, 50] mutex) := by
  have nested : ∃ config,
      ((process (![100, 50] : Fin 2 → UInt64)).system.restrict Scoped).Run
        (initial : Config (Fin 1) (Fin 2))
        [(0, .lock 0), (0, .run), (0, .run), (0, .run), (0, .run),
          (0, .lock 1), (0, .run), (0, .run), (0, .run), (0, .run),
          (0, .unlock 1), (0, .run), (0, .run)] config ∧
        (config.threads 0).Holds 0 :=
    Program.exists_run_of_execute (by decide)
  obtain ⟨config, run, holds⟩ := nested
  have safe : ((process ![100, 50]).system.restrict (ReleaseSafe ![100, 50])).Reachable config :=
    (run.reachable (initial_reachable _)).mono fun _ _ lifo => lifo.releaseSafe
  exact ⟨config, holds, index_le_held_of_releaseSafe safe 0⟩

/-- Releasing the first of two mutexes lifts the index above the second, and a third mutex
between the two is then acquired although the second is still held. -/
theorem unordered_release_misses_violation :
    ∃ config : Config (Fin 1) (Fin 3),
      (process (![100, 50, 70] : Fin 3 → UInt64)).system.Reachable config ∧
        (config.threads 0).pc = .idle ∧
        (config.threads 0).held.map Acquisition.mutex = [2, 1] ∧
        (![100, 50, 70] 1 : UInt64) < (config.threads 0).thisThreadHierarchyValue := by
  have missed : ∃ config,
      ((process (![100, 50, 70] : Fin 3 → UInt64)).system.restrict fun _ _ _ => True).Run
        (initial : Config (Fin 1) (Fin 3))
        [(0, .lock 0), (0, .run), (0, .run), (0, .run), (0, .run),
          (0, .lock 1), (0, .run), (0, .run), (0, .run), (0, .run),
          (0, .unlock 0), (0, .run), (0, .run),
          (0, .lock 2), (0, .run), (0, .run), (0, .run), (0, .run)] config ∧
        (config.threads 0).pc = .idle ∧
        (config.threads 0).held.map Acquisition.mutex = [2, 1] ∧
        (![100, 50, 70] 1 : UInt64) < (config.threads 0).thisThreadHierarchyValue :=
    Program.exists_run_of_execute (by decide)
  obtain ⟨config, run, shape⟩ := missed
  exact ⟨config, (run.reachable (initial_reachable _)).of_restrict, shape⟩

/-- A release that is not safe leaves the index above a mutex that is still held. -/
theorem index_gt_held_of_release {config : Config Tid Mid} {thread : Tid} {mutex : Mid}
    (running : config.shared.aborted = false) (idle : (config.threads thread).pc = .idle)
    (holds : (config.threads thread).Holds mutex)
    {later : Acquisition Mid} (recent : later ∈ (config.threads thread).acquiredAfter mutex)
    (above : hierarchyValue later.mutex <
      (config.shared.previousHierarchyValue mutex).toUInt64) :
    ∃ after, (process hierarchyValue).system.Run config
        [(thread, .unlock mutex), (thread, .run), (thread, .run)] after ∧
      (after.threads thread).pc = .idle ∧ (after.threads thread).Holds later.mutex ∧
      hierarchyValue later.mutex < (after.threads thread).thisThreadHierarchyValue := by
  have different : later.mutex ≠ mutex := by
    simpa using List.mem_takeWhile_imp recent
  have kept : later ∈ (config.threads thread).held.filter
      fun acquisition => acquisition.mutex ≠ mutex :=
    List.mem_filter.mpr ⟨(List.takeWhile_sublist _).subset recent, by simpa using different⟩
  let released : ThreadState Mid :=
    { thisThreadHierarchyValue := (config.shared.previousHierarchyValue mutex).toUInt64
      held := (config.threads thread).held.filter fun acquisition => acquisition.mutex ≠ mutex
      pc := .idle }
  refine ⟨⟨config.shared.release mutex, Function.update config.threads thread released⟩, ?_, ?_⟩
  · let called : Config Tid Mid := ⟨config.shared, Function.update config.threads thread
      { config.threads thread with pc := .restore mutex }⟩
    let restored : Config Tid Mid := ⟨config.shared, Function.update config.threads thread
      { thisThreadHierarchyValue := (config.shared.previousHierarchyValue mutex).toUInt64
        held := (config.threads thread).held
        pc := .release mutex }⟩
    have call : (process hierarchyValue).system.Step config (thread, .unlock mutex) called := by
      simp [Program.system, Program.next, process, threadStep, running, idle, holds, called]
    have restore : (process hierarchyValue).system.Step called (thread, .run) restored := by
      simp [Program.system, Program.next, process, threadStep, running, continueCall, called,
        restored]
    refine .cons call (.cons restore (.cons ?_ .nil))
    simp [Program.system, Program.next, process, threadStep, running, continueCall, released,
      restored]
  · simp only [Function.update_self]
    exact ⟨rfl, ⟨later, kept, rfl⟩, above⟩

end HierarchicalMutex
end ConcurrencyCourse
