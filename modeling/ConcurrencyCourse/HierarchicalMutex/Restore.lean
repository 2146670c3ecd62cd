import ConcurrencyCourse.HierarchicalMutex.Invariant
import Mathlib.Data.Fin.VecNotation

/-!
# Restoring the index of a thread

Under scoped locking an `unlock` finds in its object the low 32 bits of the index that the thread
had before the matching acquisition.  The index comes back exactly when it had no higher bits, so
never when the outermost mutex is released: the initial index has 64 bits.
-/

namespace ConcurrencyCourse
namespace HierarchicalMutex

theorem toUInt64_toUInt32_eq_iff (index : UInt64) :
    index.toUInt32.toUInt64 = index ↔ index.toNat < 2 ^ 32 := by
  rw [← UInt64.toNat_inj, UInt32.toNat_toUInt64, UInt64.toNat_toUInt32]
  constructor
  · intro same
    rw [← same]
    exact Nat.mod_lt _ (by decide)
  · exact Nat.mod_eq_of_lt

variable {Tid Mid : Type*} {hierarchyValue : Mid → UInt64}

/-- The index the class comment promises: that of the mutex acquired last, or the maximum. -/
def expectedIndex (hierarchyValue : Mid → UInt64) : List (Acquisition Mid) → UInt64
  | [] => maxIndex
  | latest :: _ => hierarchyValue latest.mutex

/-- Every acquisition was made at the index expected from what was held below it. -/
def Stacked (hierarchyValue : Mid → UInt64) : List (Acquisition Mid) → Prop
  | [] => True
  | latest :: rest =>
      latest.indexBefore = expectedIndex hierarchyValue rest ∧ Stacked hierarchyValue rest

/-- The index is what the class comment promises; inside `unlock`, after the assignment, it is
the index from just before the matching acquisition. -/
def IndexRestored (hierarchyValue : Mid → UInt64) (state : ThreadState Mid) : Prop :=
  match state.pc, state.held with
  | .release _, latest :: _ => state.thisThreadHierarchyValue = latest.indexBefore
  | _, held => state.thisThreadHierarchyValue = expectedIndex hierarchyValue held

/-- The thread is inside `unlock`. -/
def ThreadState.Unlocking (state : ThreadState Mid) (mutex : Mid) : Prop :=
  state.pc = .restore mutex ∨ state.pc = .release mutex

variable [DecidableEq Mid]

/-- The mutex released was acquired at an index that fits in the 32 bits of the saved value. -/
def NarrowRelease (before : Config Tid Mid) (label : Tid × Action Mid) (_after : Config Tid Mid) :
    Prop :=
  ∀ mutex, label.2 = .unlock mutex →
    ∀ latest ∈ (before.threads label.1).held.head?, latest.indexBefore.toNat < 2 ^ 32

instance [Fintype Mid] (before after : Config Tid Mid) (label : Tid × Action Mid) :
    Decidable (NarrowRelease before label after) :=
  inferInstanceAs (Decidable (∀ mutex, label.2 = .unlock mutex →
    ∀ latest ∈ (before.threads label.1).held.head?, latest.indexBefore.toNat < 2 ^ 32))

/-- Under scoped locking `unlock` works on the most recent acquisition. -/
def ReleasesLatest (state : ThreadState Mid) : Prop :=
  ∀ mutex, state.Unlocking mutex → ∃ latest rest, state.held = latest :: rest ∧ latest.mutex = mutex

theorem exists_latest_of_acquiredAfter {state : ThreadState Mid} {mutex : Mid}
    (holds : state.Holds mutex) (none : state.acquiredAfter mutex = []) :
    ∃ latest rest, state.held = latest :: rest ∧ latest.mutex = mutex := by
  obtain ⟨acquisition, member, -⟩ := holds
  cases shape : state.held with
  | nil => simp [shape] at member
  | cons latest rest =>
      refine ⟨latest, rest, rfl, ?_⟩
      by_contra different
      simp [ThreadState.acquiredAfter, shape, different] at none

theorem Assertion.filter_latest {thread : Tid} {mutexes : Mutexes Tid Mid}
    {state : ThreadState Mid} (assertion : Assertion hierarchyValue thread mutexes state)
    {latest : Acquisition Mid} {rest : List (Acquisition Mid)}
    (shape : state.held = latest :: rest) :
    (state.held.filter fun acquisition => acquisition.mutex ≠ latest.mutex) = rest := by
  have nested := assertion.nested
  rw [shape, List.pairwise_cons] at nested
  rw [shape, List.filter_cons_of_neg (by simp), List.filter_eq_self]
  intro earlier member
  have below := (nested.1 earlier member).1
  simp only [ne_eq, decide_not, Bool.not_eq_true', decide_eq_false_iff_not]
  intro same
  rw [same] at below
  exact absurd below (UInt64.lt_irrefl _)

variable {thread : Tid} {action : Action Mid} {mutexes mutexes' : Mutexes Tid Mid}
  {state state' : ThreadState Mid}

theorem ReleasesLatest.step (latest : ReleasesLatest state)
    (lifo : ∀ mutex, action = .unlock mutex → state.acquiredAfter mutex = [])
    (step : StepCase hierarchyValue thread mutexes state action mutexes' state') :
    ReleasesLatest state' := by
  cases step with
  | abort => exact latest
  | beginUnlock pc holds =>
      have found := exists_latest_of_acquiredAfter holds (lifo _ rfl)
      simpa [ReleasesLatest, ThreadState.Unlocking] using found
  | restored pc =>
      have found := latest _ (Or.inl pc)
      simpa [ReleasesLatest, ThreadState.Unlocking] using found
  | beginLock | pass | giveUp | locked | saved | acquired | released =>
      simp [ReleasesLatest, ThreadState.Unlocking]

/-- What a thread can say of its index when it releases only narrow acquisitions. -/
structure Tracks (hierarchyValue : Mid → UInt64) (state : ThreadState Mid) : Prop where
  latest : ReleasesLatest state
  narrow : ∀ mutex, state.Unlocking mutex →
    ∀ acquisition ∈ state.held.head?, acquisition.indexBefore.toNat < 2 ^ 32
  stacked : Stacked hierarchyValue state.held
  restored : IndexRestored hierarchyValue state

omit [DecidableEq Mid] in
theorem indexRestored_iff (outside : ∀ mutex, state.pc ≠ .release mutex) :
    IndexRestored hierarchyValue state ↔
      state.thisThreadHierarchyValue = expectedIndex hierarchyValue state.held := by
  unfold IndexRestored
  split
  · rename_i pc _
    exact absurd pc (outside _)
  · rfl

theorem Tracks.step (tracks : Tracks hierarchyValue state)
    (assertion : Assertion hierarchyValue thread mutexes state)
    (lifo : ∀ mutex, action = .unlock mutex → state.acquiredAfter mutex = [])
    (narrowRelease : ∀ mutex, action = .unlock mutex →
      ∀ acquisition ∈ state.held.head?, acquisition.indexBefore.toNat < 2 ^ 32)
    (step : StepCase hierarchyValue thread mutexes state action mutexes' state') :
    Tracks hierarchyValue state' := by
  have latest' := tracks.latest.step lifo step
  have expected (outside : ∀ mutex, state.pc ≠ .release mutex) :=
    (indexRestored_iff outside).mp tracks.restored
  cases step with
  | abort => exact tracks
  | beginLock pc | pass pc | giveUp pc | locked pc | saved pc =>
      exact ⟨latest', by simp [ThreadState.Unlocking], tracks.stacked,
        (indexRestored_iff (by simp)).mpr (expected (by simp [pc]))⟩
  | beginUnlock pc holds =>
      exact ⟨latest', fun _ _ => narrowRelease _ rfl, tracks.stacked,
        (indexRestored_iff (by simp)).mpr (expected (by simp [pc]))⟩
  | acquired pc =>
      exact ⟨latest', by simp [ThreadState.Unlocking], ⟨expected (by simp [pc]), tracks.stacked⟩,
        (indexRestored_iff (by simp)).mpr rfl⟩
  | restored pc =>
      obtain ⟨latest, rest, shape, rfl⟩ := tracks.latest _ (Or.inl pc)
      have fits : latest.indexBefore.toNat < 2 ^ 32 :=
        tracks.narrow _ (Or.inl pc) latest (by simp [shape])
      refine ⟨latest', fun _ _ => tracks.narrow _ (Or.inl pc), tracks.stacked, ?_⟩
      have saved := assertion.saved latest (by simp [shape])
      simp only [IndexRestored, shape, saved]
      exact (toUInt64_toUInt32_eq_iff _).mpr fits
  | released pc =>
      obtain ⟨latest, rest, shape, rfl⟩ := tracks.latest _ (Or.inr pc)
      have stacked := tracks.stacked
      have restored := tracks.restored
      simp only [IndexRestored, pc, shape, Stacked] at restored stacked
      refine ⟨latest', by simp [ThreadState.Unlocking], ?_, ?_⟩
      · simpa only [assertion.filter_latest shape] using stacked.2
      · refine (indexRestored_iff (by simp)).mpr ?_
        simpa only [assertion.filter_latest shape] using restored.trans stacked.1

variable [DecidableEq Tid]

theorem releasesLatest_of_reachable {config : Config Tid Mid}
    (reach : ((process hierarchyValue).system.restrict Scoped).Reachable config) (thread : Tid) :
    ReleasesLatest (config.threads thread) := by
  revert thread
  refine reach.invariant (motive := fun config => ∀ thread, ReleasesLatest (config.threads thread))
    ?_ ?_
  · rintro config ⟨-, threads⟩ thread
    simp [threads, initial, ReleasesLatest, ThreadState.Unlocking]
  · rintro before ⟨thread, action⟩ after - latest ⟨step, lifo⟩ other
    obtain ⟨mutexes, state, own, rfl⟩ := Program.system_step_iff.mp step
    by_cases same : other = thread
    · subst same
      simpa using (latest other).step lifo (threadStep_cases own)
    · simpa [same] using latest other

theorem tracks_of_reachable {config : Config Tid Mid}
    (reach : ((process hierarchyValue).system.restrict fun before label after =>
      Scoped before label after ∧ NarrowRelease before label after).Reachable config)
    (thread : Tid) : Tracks hierarchyValue (config.threads thread) := by
  revert thread
  refine reach.invariant
    (motive := fun config => ∀ thread, Tracks hierarchyValue (config.threads thread)) ?_ ?_
  · rintro config ⟨-, threads⟩ thread
    simp only [threads, initial]
    exact ⟨by simp [ReleasesLatest, ThreadState.Unlocking], by simp [ThreadState.Unlocking],
      trivial, rfl⟩
  · rintro before ⟨thread, action⟩ after earlier tracks ⟨step, lifo, narrow⟩ other
    obtain ⟨mutexes, state, own, rfl⟩ := Program.system_step_iff.mp step
    have assertion := assertion_of_reachable
      (earlier.mono fun _ _ allowed => allowed.1.releaseSafe) other
    by_cases same : other = thread
    · subst same
      simpa using (tracks other).step assertion lifo narrow (threadStep_cases own)
    · simpa [same] using tracks other

/-- Under scoped locking an `unlock` restores the index exactly when the index before the
matching acquisition has no more than 32 bits.  In a run all of whose releases are of that kind
the index is always the expected one, and a mutex below the maximum is rejected only when a mutex
of no greater value is held. -/
theorem unlock_restores_iff_narrow :
    (∀ {config after : Config Tid Mid} {thread : Tid} {mutex : Mid},
      ((process hierarchyValue).system.restrict Scoped).Reachable config →
      (config.threads thread).pc = .restore mutex →
      (process hierarchyValue).system.Step config (thread, .run) after →
      ∃ latest rest, (config.threads thread).held = latest :: rest ∧ latest.mutex = mutex ∧
        ((after.threads thread).thisThreadHierarchyValue = latest.indexBefore ↔
          latest.indexBefore.toNat < 2 ^ 32)) ∧
    ∀ {config : Config Tid Mid},
      ((process hierarchyValue).system.restrict fun before label after =>
        Scoped before label after ∧ NarrowRelease before label after).Reachable config →
      ∀ thread, IndexRestored hierarchyValue (config.threads thread) ∧
        ∀ call mutex, (config.threads thread).pc = .check call mutex →
          (config.threads thread).thisThreadHierarchyValue ≤ hierarchyValue mutex →
          hierarchyValue mutex < maxIndex →
          ∃ held, (config.threads thread).Holds held ∧
            hierarchyValue held ≤ hierarchyValue mutex := by
  constructor
  · intro config after thread mutex reach pc step
    obtain ⟨latest, rest, shape, rfl⟩ := releasesLatest_of_reachable reach thread _ (Or.inl pc)
    have assertion := assertion_of_reachable (reach.mono fun _ _ lifo => lifo.releaseSafe) thread
    have saved := assertion.saved latest (by simp [shape])
    refine ⟨latest, rest, shape, rfl, ?_⟩
    obtain ⟨mutexes, state, own, rfl⟩ := Program.system_step_iff.mp step
    have change : StepCase hierarchyValue thread config.shared (config.threads thread) .run
        mutexes state := threadStep_cases own
    -- Only the first step of `unlock` starts at this point of the thread.
    cases change with
    | abort wrong | beginLock wrong | pass wrong | giveUp wrong | locked wrong | saved wrong
      | acquired wrong | released wrong => simp [pc] at wrong
    | restored same =>
        obtain rfl := Pc.restore.inj (same.symm.trans pc)
        simp only [Function.update_self, saved]
        exact toUInt64_toUInt32_eq_iff _
  · intro config reach thread
    have tracks := tracks_of_reachable reach thread
    refine ⟨tracks.restored, fun call mutex pc rejected below => ?_⟩
    have index := (indexRestored_iff (by simp [pc])).mp tracks.restored
    rw [index] at rejected
    cases shape : (config.threads thread).held with
    | nil =>
        rw [shape] at rejected
        exact absurd below (UInt64.not_lt.mpr rejected)
    | cons latest rest =>
        rw [shape] at rejected
        exact ⟨latest.mutex, ⟨latest, by simp [shape], rfl⟩, rejected⟩

/-- Inside a mutex of value 100 the index comes back to 100 after a nested acquisition. -/
theorem unlock_restores_iff_narrow_nested :
    ∃ config : Config (Fin 1) (Fin 2),
      ((config.threads 0).pc = .idle ∧ (config.threads 0).held.map Acquisition.mutex = [0]) ∧
        IndexRestored ![100, 50] (config.threads 0) := by
  have nested : ∃ config,
      ((process (![100, 50] : Fin 2 → UInt64)).system.restrict fun before label after =>
        Scoped before label after ∧ NarrowRelease before label after).Run
        (initial : Config (Fin 1) (Fin 2))
        [(0, .lock 0), (0, .run), (0, .run), (0, .run), (0, .run),
          (0, .lock 1), (0, .run), (0, .run), (0, .run), (0, .run),
          (0, .unlock 1), (0, .run), (0, .run)] config ∧
        (config.threads 0).pc = .idle ∧ (config.threads 0).held.map Acquisition.mutex = [0] :=
    Program.exists_run_of_execute (by decide)
  obtain ⟨config, run, shape⟩ := nested
  exact ⟨config, shape,
    (unlock_restores_iff_narrow.2 (run.reachable (initial_reachable _)) 0).1⟩

/-- After one `lock` and `unlock` the thread holds nothing, its index is not the initial one, and
a mutex below the maximum is rejected. -/
theorem outermost_unlock_raises_false_alarm :
    ∃ config : Config (Fin 1) (Fin 2),
      ((process (![1, 4294967295] : Fin 2 → UInt64)).system.restrict Scoped).Reachable config ∧
        (config.threads 0).held = [] ∧ (config.threads 0).pc = .check .lock 1 ∧
        config.shared.aborted = true ∧
        (config.threads 0).thisThreadHierarchyValue ≠ maxIndex ∧
        (![1, 4294967295] 1 : UInt64) < maxIndex := by
  have rejected : ∃ config,
      ((process (![1, 4294967295] : Fin 2 → UInt64)).system.restrict Scoped).Run
        (initial : Config (Fin 1) (Fin 2))
        [(0, .lock 0), (0, .run), (0, .run), (0, .run), (0, .run),
          (0, .unlock 0), (0, .run), (0, .run), (0, .lock 1), (0, .run)] config ∧
        (config.threads 0).held = [] ∧ (config.threads 0).pc = .check .lock 1 ∧
        config.shared.aborted = true ∧
        (config.threads 0).thisThreadHierarchyValue ≠ maxIndex ∧
        (![1, 4294967295] 1 : UInt64) < maxIndex :=
    Program.exists_run_of_execute (by decide)
  obtain ⟨config, run, shape⟩ := rejected
  exact ⟨config, run.reachable (initial_reachable _), shape⟩

end HierarchicalMutex
end ConcurrencyCourse
