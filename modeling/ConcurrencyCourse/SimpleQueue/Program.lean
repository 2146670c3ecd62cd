import ConcurrencyCourse.SimpleQueue.Preservation

/-!
# Threads that use one queue

Any number of threads call the queue, each one call after the other.  The calls and returns are
recorded, so that what a caller has received can be compared with what the queue stores.
-/

namespace ConcurrencyCourse
namespace SimpleQueue

open ThreadSafeQueue

/-- The queue and the record of its use. -/
structure Shared (Tid Value : Type*) where
  queue : Queue Tid Value
  /-- History variable: calls and returns. -/
  history : List (AtomicObject.Event Tid (Call Value) (Result Value))

/-- A thread begins a call, or makes a step inside its call. -/
inductive ThreadAction (Tid Value : Type*)
  | call (call : Call Value)
  | inside (action : Action Tid)
  deriving DecidableEq

section Steps

variable {Tid Value : Type*}

/-- States of the queue together with the threads that use it. -/
abbrev Config (Tid Value : Type*) := Program.Config Tid (Shared Tid Value) (Pc Value)

/-- A new queue. -/
def initial : Config Tid Value where
  shared := { queue := .empty, history := [] }
  threads _ := .idle

variable [DecidableEq Tid]

/-- One step of a thread. -/
def threadStep (thread : Tid) (action : ThreadAction Tid Value) (shared : Shared Tid Value)
    (pc : Pc Value) : Option (Shared Tid Value × Pc Value) :=
  match action, pc with
  | .call call, .idle =>
      some ({ shared with history := shared.history ++ [.call thread call] }, entry call)
  | .inside .run, .returning result =>
      some ({ shared with history := shared.history ++ [.ret thread result] }, .idle)
  | .inside action, pc => (callStep thread action shared.queue pc).map fun result =>
      ({ shared with queue := result.1 }, result.2)
  | _, _ => none

/-- Any number of threads that use one queue. -/
def program : Program Tid (ThreadAction Tid Value) (Shared Tid Value) (Pc Value) where
  Initial shared threads := shared = initial.shared ∧ threads = initial.threads
  step := threadStep

theorem initial_reachable
    {allowed : Config Tid Value → Tid × ThreadAction Tid Value → Config Tid Value → Prop} :
    (program.system.restrict allowed).Reachable (initial : Config Tid Value) :=
  .initial ⟨rfl, rfl⟩

end Steps

variable {Tid Value : Type*} [DecidableEq Tid]

/-- Effects of the steps of a thread. -/
inductive ThreadCase (thread : Tid) (shared : Shared Tid Value) :
    ThreadAction Tid Value → Pc Value → Shared Tid Value → Pc Value → Prop
  | call (call : Call Value) : ThreadCase thread shared (.call call) .idle
      { shared with history := shared.history ++ [.call thread call] } (entry call)
  | ret (result : Result Value) : ThreadCase thread shared (.inside .run) (.returning result)
      { shared with history := shared.history ++ [.ret thread result] } .idle
  | inside {action : Action Tid} {pc pc' : Pc Value} {queue' : Queue Tid Value} :
      CallCase thread shared.queue action pc queue' pc' →
      ThreadCase thread shared (.inside action) pc { shared with queue := queue' } pc'

variable {thread : Tid} {shared shared' : Shared Tid Value} {pc pc' : Pc Value}
  {action : ThreadAction Tid Value}

theorem Assertion.threadStep_cases (assertion : Assertion thread shared.queue pc)
    (step : threadStep thread action shared pc = some (shared', pc')) :
    ThreadCase thread shared action pc shared' pc' := by
  unfold threadStep at step
  split at step
  · cases step
    exact .call _
  · cases step
    exact .ret _
  · obtain ⟨⟨queue', next⟩, taken, same⟩ := Option.map_eq_some_iff.mp step
    cases same
    exact .inside (assertion.callStep_cases taken)
  · simp at step

theorem Assertion.preserved_threadCase (shape : Shape shared.queue)
    (assertion : Assertion thread shared.queue pc)
    (step : ThreadCase thread shared action pc shared' pc') :
    Preserved thread shared.queue shared'.queue pc' := by
  cases step with
  | call call =>
      have outside : (entry call).holds = false := by cases call <;> rfl
      exact ⟨shape, assertion.outside rfl nofun outside, fun _ _ => .refl⟩
  | ret result => exact ⟨shape, assertion.outside rfl nofun rfl, fun _ _ => .refl⟩
  | inside taken => exact assertion.preserved_callCase shape taken

theorem assertion_of_reachable {config : Config Tid Value}
    (reach : program.system.Reachable config) :
    Shape config.shared.queue ∧
      ∀ thread, Assertion thread config.shared.queue (config.threads thread) := by
  refine Program.invariant_of_assertions (fun shared => Shape shared.queue)
    (fun thread shared => Assertion thread shared.queue) ?_ ?_ reach.unrestricted
  · rintro shared threads ⟨rfl, rfl⟩
    refine ⟨⟨rfl, fun _ => ⟨[], rfl⟩, rfl⟩, fun thread => ⟨?_, nofun, nofun⟩⟩
    simp [initial, Queue.empty, Pc.holds]
  · intro before after thread action shared' pc' asserted shape step _
    have change := (asserted thread).threadStep_cases step
    obtain ⟨shape', mine, others⟩ := (asserted thread).preserved_threadCase shape change
    exact ⟨shape', mine, fun other pc foreign assertion =>
      assertion.of_rely (others other foreign)⟩

theorem exists_threadCase {before after : Config Tid Value}
    (reach : program.system.Reachable before)
    (step : program.system.Step before (thread, action) after) :
    ∃ shared' pc',
      ThreadCase thread before.shared action (before.threads thread) shared' pc' ∧
      after = ⟨shared', Function.update before.threads thread pc'⟩ := by
  obtain ⟨shared', pc', taken, rfl⟩ := Program.system_step_iff.mp step
  obtain ⟨-, asserted⟩ := assertion_of_reachable reach
  exact ⟨shared', pc', (asserted thread).threadStep_cases taken, rfl⟩

end SimpleQueue
end ConcurrencyCourse
