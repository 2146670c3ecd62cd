import ConcurrencyCourse.HierarchicalMutex.StepCases
import Mathlib.Data.List.TakeWhile

/-!
# What every thread of the hierarchy can rely on

The values of the mutexes a thread holds decrease with the order of acquisition, and each saved
index bounds from below the values of everything acquired earlier.  Between calls the index of
the thread is at most every value it holds, provided that each `unlock` leaves behind no more
recent acquisition whose value is below the index about to be restored.
-/

namespace ConcurrencyCourse
namespace HierarchicalMutex

variable {Tid Mid : Type*} {hierarchyValue : Mid → UInt64}

theorem toUInt64_toUInt32_le (index : UInt64) : index.toUInt32.toUInt64 ≤ index := by
  rw [UInt64.le_iff_toNat_le, UInt32.toNat_toUInt64, UInt64.toNat_toUInt32]
  exact Nat.mod_le _ _

/-- The index is at most the value of every acquisition in the list. -/
def Bounded (hierarchyValue : Mid → UInt64) (index : UInt64) (held : List (Acquisition Mid)) :
    Prop :=
  ∀ acquisition ∈ held, index ≤ hierarchyValue acquisition.mutex

variable [DecidableEq Mid]

/-- What holds at each position of a thread in the member functions. -/
def Position (hierarchyValue : Mid → UInt64) (thread : Tid) (mutexes : Mutexes Tid Mid)
    (state : ThreadState Mid) : Prop :=
  match state.pc with
  | .idle | .check _ _ => Bounded hierarchyValue state.thisThreadHierarchyValue state.held
  | .acquire _ mutex =>
      Bounded hierarchyValue state.thisThreadHierarchyValue state.held ∧
        hierarchyValue mutex < state.thisThreadHierarchyValue
  | .savePrevious mutex =>
      Bounded hierarchyValue state.thisThreadHierarchyValue state.held ∧
        hierarchyValue mutex < state.thisThreadHierarchyValue ∧
        mutexes.internalMutex mutex = some thread
  | .setIndex mutex =>
      Bounded hierarchyValue state.thisThreadHierarchyValue state.held ∧
        hierarchyValue mutex < state.thisThreadHierarchyValue ∧
        mutexes.internalMutex mutex = some thread ∧
        mutexes.previousHierarchyValue mutex = state.thisThreadHierarchyValue.toUInt32
  | .restore mutex =>
      state.Holds mutex ∧
        Bounded hierarchyValue state.thisThreadHierarchyValue state.held ∧
        Bounded hierarchyValue (mutexes.previousHierarchyValue mutex).toUInt64
          (state.held.filter fun acquisition => acquisition.mutex ≠ mutex)
  | .release mutex =>
      state.Holds mutex ∧
        Bounded hierarchyValue state.thisThreadHierarchyValue
          (state.held.filter fun acquisition => acquisition.mutex ≠ mutex)

/-- The assertion that every thread keeps about its own acquisitions. -/
structure Assertion (hierarchyValue : Mid → UInt64) (thread : Tid) (mutexes : Mutexes Tid Mid)
    (state : ThreadState Mid) : Prop where
  owned : ∀ acquisition ∈ state.held, mutexes.internalMutex acquisition.mutex = some thread
  covers : ∀ mutex, mutexes.internalMutex mutex = some thread →
    state.Holds mutex ∨ state.pc = .savePrevious mutex ∨ state.pc = .setIndex mutex
  saved : ∀ acquisition ∈ state.held,
    mutexes.previousHierarchyValue acquisition.mutex = acquisition.indexBefore.toUInt32
  nested : state.held.Pairwise fun later earlier =>
    hierarchyValue later.mutex < hierarchyValue earlier.mutex ∧
      later.indexBefore.toUInt32.toUInt64 ≤ hierarchyValue earlier.mutex
  position : Position hierarchyValue thread mutexes state

/-- The thread's acquisitions made after that of `mutex`. -/
def ThreadState.acquiredAfter (state : ThreadState Mid) (mutex : Mid) : List (Acquisition Mid) :=
  state.held.takeWhile fun acquisition => acquisition.mutex ≠ mutex

/-- An `unlock` restores an index that is at most the value of every later acquisition. -/
def ReleaseSafe (hierarchyValue : Mid → UInt64) (before : Config Tid Mid)
    (label : Tid × Action Mid) (_after : Config Tid Mid) : Prop :=
  ∀ mutex, label.2 = .unlock mutex →
    Bounded hierarchyValue (before.shared.previousHierarchyValue mutex).toUInt64
      ((before.threads label.1).acquiredAfter mutex)

/-- Scoped locking: an `unlock` releases the most recent acquisition of its thread. -/
def Scoped (before : Config Tid Mid) (label : Tid × Action Mid) (_after : Config Tid Mid) : Prop :=
  ∀ mutex, label.2 = .unlock mutex → (before.threads label.1).acquiredAfter mutex = []

instance [Fintype Mid] (before after : Config Tid Mid) (label : Tid × Action Mid) :
    Decidable (Scoped before label after) :=
  inferInstanceAs (Decidable (∀ mutex, label.2 = .unlock mutex →
    (before.threads label.1).acquiredAfter mutex = []))

theorem Scoped.releaseSafe {before after : Config Tid Mid} {label : Tid × Action Mid}
    (lifo : Scoped before label after) : ReleaseSafe hierarchyValue before label after := by
  intro mutex unlocking acquisition member
  rw [lifo mutex unlocking] at member
  exact absurd member List.not_mem_nil

/-- Whatever a thread acquired before `mutex` is bounded by the index that `mutex` saved. -/
theorem Assertion.bounded_of_restore {thread : Tid} {mutexes : Mutexes Tid Mid}
    {state : ThreadState Mid} (assertion : Assertion hierarchyValue thread mutexes state)
    {mutex : Mid} (holds : state.Holds mutex)
    (later : Bounded hierarchyValue (mutexes.previousHierarchyValue mutex).toUInt64
      (state.acquiredAfter mutex)) :
    Bounded hierarchyValue (mutexes.previousHierarchyValue mutex).toUInt64
      (state.held.filter fun acquisition => acquisition.mutex ≠ mutex) := by
  intro other member
  obtain ⟨inside, different⟩ := List.mem_filter.mp member
  have split := List.takeWhile_append_dropWhile
    (p := fun acquisition : Acquisition Mid => decide (acquisition.mutex ≠ mutex)) (l := state.held)
  rw [← split, List.mem_append] at inside
  rcases inside with recent | old
  · exact later other recent
  · obtain ⟨acquisition, isHeld, same⟩ := holds
    -- The first acquisition that is not more recent than `mutex` is that of `mutex` itself.
    have nonempty : state.held.dropWhile
        (fun acquisition => decide (acquisition.mutex ≠ mutex)) ≠ [] := by
      intro none
      rw [List.dropWhile_eq_nil_iff] at none
      simpa [same] using none acquisition isHeld
    obtain ⟨first, rest, shape⟩ := List.exists_cons_of_ne_nil nonempty
    have firstMutex : first.mutex = mutex := by
      have stops := List.head?_dropWhile_not
        (fun acquisition : Acquisition Mid => decide (acquisition.mutex ≠ mutex)) state.held
      rw [shape] at stops
      simpa using stops
    have nested := assertion.nested
    rw [← split, shape, List.pairwise_append] at nested
    have firstHeld : first ∈ state.held := by
      rw [← split, shape]
      simp
    rw [shape, List.mem_cons] at old
    rcases old with rfl | old
    · simp [firstMutex] at different
    · have bound := ((List.pairwise_cons.mp nested.2.1).1 other old).2
      rw [← firstMutex, assertion.saved first firstHeld]
      exact bound

/-! ## Interference -/

/-- Nothing that another thread owns changes. -/
structure Frame (thread : Tid) (before after : Mutexes Tid Mid) : Prop where
  internalMutex : ∀ mutex other, other ≠ thread →
    (after.internalMutex mutex = some other ↔ before.internalMutex mutex = some other)
  previous : ∀ mutex other, other ≠ thread → before.internalMutex mutex = some other →
    after.previousHierarchyValue mutex = before.previousHierarchyValue mutex

omit [DecidableEq Mid] in
theorem Frame.refl (thread : Tid) (mutexes : Mutexes Tid Mid) : Frame thread mutexes mutexes :=
  ⟨fun _ _ _ => Iff.rfl, fun _ _ _ _ => rfl⟩

theorem frame_acquire {thread : Tid} {mutexes : Mutexes Tid Mid} {mutex : Mid}
    (free : mutexes.internalMutex mutex = none) :
    Frame thread mutexes (mutexes.acquire mutex thread) := by
  refine ⟨fun target other foreign => ?_, fun _ _ _ _ => rfl⟩
  by_cases same : target = mutex
  · subst same
    simp [Mutexes.acquire, free, foreign.symm]
  · simp [Mutexes.acquire, same]

theorem frame_release {thread : Tid} {mutexes : Mutexes Tid Mid} {mutex : Mid}
    (own : mutexes.internalMutex mutex = some thread) :
    Frame thread mutexes (mutexes.release mutex) := by
  refine ⟨fun target other foreign => ?_, fun _ _ _ _ => rfl⟩
  by_cases same : target = mutex
  · subst same
    simp [Mutexes.release, own, foreign.symm]
  · simp [Mutexes.release, same]

theorem frame_savePrevious {thread : Tid} {mutexes : Mutexes Tid Mid} {mutex : Mid}
    {index : UInt64} (own : mutexes.internalMutex mutex = some thread) :
    Frame thread mutexes (mutexes.savePrevious mutex index) := by
  refine ⟨fun _ _ _ => Iff.rfl, fun target other foreign owned => ?_⟩
  have different : target ≠ mutex := by
    rintro rfl
    exact foreign (Option.some.inj (owned.symm.trans own))
  simp [Mutexes.savePrevious, different]

theorem Assertion.of_frame {thread other : Tid} {before after : Mutexes Tid Mid}
    {state : ThreadState Mid} (frame : Frame thread before after) (foreign : other ≠ thread)
    (assertion : Assertion hierarchyValue other before state) :
    Assertion hierarchyValue other after state := by
  have keeps : ∀ {mutex}, before.internalMutex mutex = some other →
      after.internalMutex mutex = some other := fun owned =>
    (frame.internalMutex _ _ foreign).mpr owned
  have saves : ∀ {mutex}, before.internalMutex mutex = some other →
      after.previousHierarchyValue mutex = before.previousHierarchyValue mutex := fun owned =>
    frame.previous _ _ foreign owned
  refine ⟨fun acquisition member => keeps (assertion.owned acquisition member),
    fun mutex owned => assertion.covers mutex ((frame.internalMutex _ _ foreign).mp owned),
    fun acquisition member => ?_, assertion.nested, ?_⟩
  · rw [saves (assertion.owned acquisition member), assertion.saved acquisition member]
  · have position := assertion.position
    unfold Position at position ⊢
    cases pc : state.pc with
    | idle | check | acquire | release => simpa only [pc] using position
    | savePrevious mutex =>
        simp only [pc] at position ⊢
        exact ⟨position.1, position.2.1, keeps position.2.2⟩
    | setIndex mutex =>
        simp only [pc] at position ⊢
        obtain ⟨bounded, below, owned, stored⟩ := position
        exact ⟨bounded, below, keeps owned, (saves owned).trans stored⟩
    | restore mutex =>
        simp only [pc] at position ⊢
        obtain ⟨⟨acquisition, member, rfl⟩, bounded, restored⟩ := position
        refine ⟨⟨acquisition, member, rfl⟩, bounded, ?_⟩
        rwa [saves (assertion.owned acquisition member)]

/-! ## Steps of the thread itself -/

variable {thread : Tid} {mutexes mutexes' : Mutexes Tid Mid} {state state' : ThreadState Mid}

theorem Assertion.move (assertion : Assertion hierarchyValue thread mutexes state) {pc : Pc Mid}
    (leaves : ∀ mutex, state.pc ≠ .savePrevious mutex ∧ state.pc ≠ .setIndex mutex)
    (position : Position hierarchyValue thread mutexes { state with pc := pc }) :
    Assertion hierarchyValue thread mutexes { state with pc := pc } := by
  refine ⟨assertion.owned, fun mutex own => Or.inl ?_, assertion.saved, assertion.nested, position⟩
  rcases assertion.covers mutex own with holds | wrong | wrong
  · exact holds
  · exact absurd wrong (leaves mutex).1
  · exact absurd wrong (leaves mutex).2

theorem Assertion.locked (assertion : Assertion hierarchyValue thread mutexes state) {call : Call}
    {mutex : Mid} (pc : state.pc = .acquire call mutex)
    (free : mutexes.internalMutex mutex = none) :
    Assertion hierarchyValue thread (mutexes.acquire mutex thread)
      { state with pc := .savePrevious mutex } := by
  have position := assertion.position
  simp only [Position, pc] at position
  refine ⟨fun acquisition member => ?_, fun target own => ?_, assertion.saved, assertion.nested,
    position.1, position.2, by simp [Mutexes.acquire]⟩
  · have owned := assertion.owned acquisition member
    have different : acquisition.mutex ≠ mutex := by
      intro same
      simp [← same, owned] at free
    simpa [Mutexes.acquire, different] using owned
  · by_cases same : target = mutex
    · exact Or.inr (Or.inl (by rw [same]))
    · have ownBefore : mutexes.internalMutex target = some thread := by
        simpa [Mutexes.acquire, same] using own
      rcases assertion.covers target ownBefore with holds | wrong | wrong
      · exact Or.inl holds
      · simp [pc] at wrong
      · simp [pc] at wrong

theorem Assertion.savesPrevious (assertion : Assertion hierarchyValue thread mutexes state)
    {mutex : Mid} (pc : state.pc = .savePrevious mutex) :
    Assertion hierarchyValue thread
      (mutexes.savePrevious mutex state.thisThreadHierarchyValue)
      { state with pc := .setIndex mutex } := by
  have position := assertion.position
  simp only [Position, pc] at position
  obtain ⟨bounded, below, own⟩ := position
  refine ⟨assertion.owned, fun target targetOwned => ?_, fun acquisition member => ?_,
    assertion.nested, bounded, below, own, by simp [Mutexes.savePrevious]⟩
  · rcases assertion.covers target targetOwned with holds | same | wrong
    · exact Or.inl holds
    · obtain rfl := Pc.savePrevious.inj (pc.symm.trans same)
      exact Or.inr (Or.inr rfl)
    · simp [pc] at wrong
  · -- the mutex just locked is below everything held, so it is not held already
    have different : acquisition.mutex ≠ mutex := by
      intro same
      have above := bounded acquisition member
      rw [same] at above
      exact absurd below (UInt64.not_lt.mpr above)
    simpa [Mutexes.savePrevious, different] using assertion.saved acquisition member

theorem Assertion.acquired (assertion : Assertion hierarchyValue thread mutexes state)
    {mutex : Mid} (pc : state.pc = .setIndex mutex) :
    Assertion hierarchyValue thread mutexes
      { thisThreadHierarchyValue := hierarchyValue mutex
        held := ⟨mutex, state.thisThreadHierarchyValue⟩ :: state.held
        pc := .idle } := by
  have position := assertion.position
  simp only [Position, pc] at position
  obtain ⟨bounded, below, own, stored⟩ := position
  have climbs : ∀ acquisition ∈ state.held,
      hierarchyValue mutex < hierarchyValue acquisition.mutex :=
    fun acquisition member => UInt64.lt_of_lt_of_le below (bounded acquisition member)
  refine ⟨List.forall_mem_cons.mpr ⟨own, assertion.owned⟩,
    fun target targetOwned => Or.inl ?_, List.forall_mem_cons.mpr ⟨stored, assertion.saved⟩, ?_, ?_⟩
  · rcases assertion.covers target targetOwned with ⟨acquisition, member, same⟩ | wrong | same
    · exact ⟨acquisition, List.mem_cons_of_mem _ member, same⟩
    · simp [pc] at wrong
    · obtain rfl := Pc.setIndex.inj (pc.symm.trans same)
      exact ⟨_, List.mem_cons_self, rfl⟩
  · refine List.pairwise_cons.mpr ⟨fun acquisition member => ⟨climbs acquisition member, ?_⟩,
      assertion.nested⟩
    exact UInt64.le_trans (toUInt64_toUInt32_le _) (bounded acquisition member)
  · refine List.forall_mem_cons.mpr ⟨UInt64.le_refl _, fun acquisition member => ?_⟩
    exact UInt64.le_of_lt (climbs acquisition member)

theorem Assertion.restored (assertion : Assertion hierarchyValue thread mutexes state)
    {mutex : Mid} (pc : state.pc = .restore mutex) :
    Assertion hierarchyValue thread mutexes
      { state with
        thisThreadHierarchyValue := (mutexes.previousHierarchyValue mutex).toUInt64
        pc := .release mutex } := by
  have position := assertion.position
  simp only [Position, pc] at position
  refine ⟨assertion.owned, fun target own => ?_, assertion.saved, assertion.nested, position.1,
    position.2.2⟩
  rcases assertion.covers target own with holds | wrong | wrong
  · exact Or.inl holds
  · simp [pc] at wrong
  · simp [pc] at wrong

theorem Assertion.released (assertion : Assertion hierarchyValue thread mutexes state)
    {mutex : Mid} (pc : state.pc = .release mutex) :
    Assertion hierarchyValue thread (mutexes.release mutex)
      { state with
        held := state.held.filter fun acquisition => acquisition.mutex ≠ mutex
        pc := .idle } := by
  have position := assertion.position
  simp only [Position, pc] at position
  refine ⟨fun acquisition kept => ?_, fun target own => Or.inl ?_, fun acquisition kept => ?_,
    assertion.nested.filter _, position.2⟩
  · obtain ⟨inside, different⟩ := List.mem_filter.mp kept
    simpa [Mutexes.release, of_decide_eq_true different] using assertion.owned acquisition inside
  · have different : target ≠ mutex := by
      rintro rfl
      simp [Mutexes.release] at own
    have ownBefore : mutexes.internalMutex target = some thread := by
      simpa [Mutexes.release, different] using own
    rcases assertion.covers target ownBefore with ⟨acquisition, inside, rfl⟩ | wrong | wrong
    · exact ⟨acquisition, List.mem_filter.mpr ⟨inside, by simpa using different⟩, rfl⟩
    · simp [pc] at wrong
    · simp [pc] at wrong
  · exact assertion.saved acquisition (List.mem_filter.mp kept).1

/-- A step keeps the assertion and touches only what the thread owns. -/
theorem Assertion.step {action : Action Mid}
    (assertion : Assertion hierarchyValue thread mutexes state)
    (safe : ∀ mutex, action = .unlock mutex →
      Bounded hierarchyValue (mutexes.previousHierarchyValue mutex).toUInt64
        (state.acquiredAfter mutex))
    (step : StepCase hierarchyValue thread mutexes state action mutexes' state') :
    Assertion hierarchyValue thread mutexes' state' ∧ Frame thread mutexes mutexes' := by
  have position := assertion.position
  cases step with
  | beginLock pc =>
      simp only [Position, pc] at position
      exact ⟨assertion.move (by simp [pc]) position, .refl _ _⟩
  | beginUnlock pc holds =>
      simp only [Position, pc] at position
      have restored := assertion.bounded_of_restore holds (safe _ rfl)
      exact ⟨assertion.move (by simp [pc]) ⟨holds, position, restored⟩, .refl _ _⟩
  | abort pc =>
      exact ⟨⟨assertion.owned, assertion.covers, assertion.saved, assertion.nested, position⟩,
        fun _ _ _ => Iff.rfl, fun _ _ _ _ => rfl⟩
  | pass pc below =>
      simp only [Position, pc] at position
      exact ⟨assertion.move (by simp [pc]) ⟨position, below⟩, .refl _ _⟩
  | giveUp pc =>
      simp only [Position, pc] at position
      exact ⟨assertion.move (by simp [pc]) position.1, .refl _ _⟩
  | locked pc free => exact ⟨assertion.locked pc free, frame_acquire free⟩
  | saved pc =>
      simp only [Position, pc] at position
      exact ⟨assertion.savesPrevious pc, frame_savePrevious position.2.2⟩
  | acquired pc => exact ⟨assertion.acquired pc, .refl _ _⟩
  | restored pc => exact ⟨assertion.restored pc, .refl _ _⟩
  | released pc =>
      simp only [Position, pc] at position
      obtain ⟨⟨acquisition, member, rfl⟩, -⟩ := position
      exact ⟨assertion.released pc, frame_release (assertion.owned acquisition member)⟩

variable [DecidableEq Tid]

theorem assertion_of_reachable {config : Config Tid Mid}
    (reach : ((process hierarchyValue).system.restrict (ReleaseSafe hierarchyValue)).Reachable
      config) (thread : Tid) :
    Assertion hierarchyValue thread config.shared (config.threads thread) := by
  refine (Program.invariant_of_assertions (fun _ => True) (Assertion hierarchyValue) ?_ ?_
    reach).2 thread
  · rintro mutexes threads ⟨rfl, rfl⟩
    exact ⟨trivial, fun thread => ⟨by simp [initial], by simp [initial], by simp [initial],
      List.Pairwise.nil, by simp [Position, Bounded, initial]⟩⟩
  · intro before after thread action mutexes state asserted _ step safe
    have kept := (asserted thread).step (safe · ·) (threadStep_cases step)
    exact ⟨trivial, kept.1, fun _ _ foreign other => other.of_frame kept.2 foreign⟩

end HierarchicalMutex
end ConcurrencyCourse
