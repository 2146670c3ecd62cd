import ConcurrencyCourse.HierarchicalMutex.Model

/-!
# What one step of a thread does

The effects of the steps of `lock`, `try_lock` and `unlock` on the mutexes and on the local state.
-/

namespace ConcurrencyCourse
namespace HierarchicalMutex

variable {Tid Mid : Type*} [DecidableEq Mid] {hierarchyValue : Mid → UInt64}

/-- Effects of every step of a thread. -/
inductive StepCase (hierarchyValue : Mid → UInt64) (thread : Tid) (mutexes : Mutexes Tid Mid)
    (state : ThreadState Mid) : Action Mid → Mutexes Tid Mid → ThreadState Mid → Prop
  | beginLock {action : Action Mid} {call : Call} {mutex : Mid} : state.pc = .idle →
      StepCase hierarchyValue thread mutexes state action mutexes
        { state with pc := .check call mutex }
  | beginUnlock {mutex : Mid} : state.pc = .idle → state.Holds mutex →
      StepCase hierarchyValue thread mutexes state (.unlock mutex) mutexes
        { state with pc := .restore mutex }
  | abort {call : Call} {mutex : Mid} : state.pc = .check call mutex →
      state.thisThreadHierarchyValue ≤ hierarchyValue mutex →
      StepCase hierarchyValue thread mutexes state .run { mutexes with aborted := true } state
  | pass {call : Call} {mutex : Mid} : state.pc = .check call mutex →
      hierarchyValue mutex < state.thisThreadHierarchyValue →
      StepCase hierarchyValue thread mutexes state .run mutexes
        { state with pc := .acquire call mutex }
  | giveUp {action : Action Mid} {mutex : Mid} : state.pc = .acquire .tryLock mutex →
      StepCase hierarchyValue thread mutexes state action mutexes { state with pc := .idle }
  | locked {call : Call} {mutex : Mid} : state.pc = .acquire call mutex →
      mutexes.internalMutex mutex = none →
      StepCase hierarchyValue thread mutexes state .run (mutexes.acquire mutex thread)
        { state with pc := .savePrevious mutex }
  | saved {mutex : Mid} : state.pc = .savePrevious mutex →
      StepCase hierarchyValue thread mutexes state .run
        (mutexes.savePrevious mutex state.thisThreadHierarchyValue)
        { state with pc := .setIndex mutex }
  | acquired {mutex : Mid} : state.pc = .setIndex mutex →
      StepCase hierarchyValue thread mutexes state .run mutexes
        { thisThreadHierarchyValue := hierarchyValue mutex
          held := ⟨mutex, state.thisThreadHierarchyValue⟩ :: state.held
          pc := .idle }
  | restored {mutex : Mid} : state.pc = .restore mutex →
      StepCase hierarchyValue thread mutexes state .run mutexes
        { state with
          thisThreadHierarchyValue := (mutexes.previousHierarchyValue mutex).toUInt64
          pc := .release mutex }
  | released {mutex : Mid} : state.pc = .release mutex →
      StepCase hierarchyValue thread mutexes state .run (mutexes.release mutex)
        { state with
          held := state.held.filter fun acquisition => acquisition.mutex ≠ mutex
          pc := .idle }

variable {thread : Tid} {action : Action Mid} {mutexes mutexes' : Mutexes Tid Mid}
  {state state' : ThreadState Mid}

theorem continueCall_cases
    (step : continueCall hierarchyValue thread mutexes state = some (mutexes', state')) :
    StepCase hierarchyValue thread mutexes state .run mutexes' state' := by
  unfold continueCall at step
  split at step
  · simp at step
  · rename_i call mutex pc
    split at step
    · rename_i violated
      cases step
      exact .abort pc violated
    · rename_i passes
      cases step
      exact .pass pc (UInt64.not_le.mp passes)
  · rename_i pc
    split at step
    · rename_i free
      cases step
      exact .locked pc free
    · simp at step
    · cases step
      exact .giveUp pc
  · rename_i pc
    cases step
    exact .saved pc
  · rename_i pc
    cases step
    exact .acquired pc
  · rename_i pc
    cases step
    exact .restored pc
  · rename_i pc
    cases step
    exact .released pc

theorem threadStep_cases
    (step : threadStep hierarchyValue thread action mutexes state = some (mutexes', state')) :
    StepCase hierarchyValue thread mutexes state action mutexes' state' := by
  unfold threadStep at step
  split at step
  · simp at step
  split at step
  · rename_i pc
    cases step
    exact .beginLock pc
  · rename_i pc
    cases step
    exact .beginLock pc
  · rename_i pc
    split at step
    · rename_i holds
      cases step
      exact .beginUnlock pc holds
    · simp at step
  · exact continueCall_cases step
  · rename_i pc
    cases step
    exact .giveUp pc
  · simp at step

end HierarchicalMutex
end ConcurrencyCourse
