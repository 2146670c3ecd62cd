import ConcurrencyCourse.Delivery
import ConcurrencyCourse.Library.Scripted

/-!
# What the users of a queue rely on

`bench_body` and `thread_pool` take the queue as it comes: they call `push`, `try_pop` and
`wait_and_pop` and know nothing of its members.  An implementation is a program together with what
its users can observe of it and the laws that its steps obey as long as nothing throws.
-/

namespace ConcurrencyCourse
namespace ThreadSafeQueue

open AtomicObject (Event Status)
open Program (Config)

/-- A queue with the laws that its users rely on. -/
structure Implementation (Tid Value Action Shared Local : Type*) [DecidableEq Tid] where
  program : Program Tid Action Shared Local
  /-- The call that an action begins. -/
  called : Action → Option (Call Value)
  /-- An allocation or a move of a value fails. -/
  throws : Action → Bool
  /-- A condition variable wakes a thread that nobody has notified. -/
  spurious : Action → Bool
  /-- The thread is between two calls. -/
  idle : Local → Bool
  /-- What the users can observe. -/
  view : Config Tid Shared Local → View Tid Value
  /-- Bound for the number of steps that the calls in progress can still make. -/
  rank : Config Tid Shared Local → Nat
  /-- What a call adds to the rank. -/
  price : Nat
  /-- What a spurious wake-up adds to the rank. -/
  cost : Nat
  quiet {action} : spurious action = true → called action = none
  new {config} : program.system.Initial config → view config = ⟨[], [], [], fun _ => .idle⟩
  idle_iff (config thread) : idle (config.threads thread) = true ↔
    (view config).status thread = .idle
  /-- A thread between two calls makes no step but the next call. -/
  rests {thread action shared local'} : idle local' = true → called action = none →
    program.step thread action shared local' = none
  order {config} : (program.system.restrict fun _ label _ => throws label.2 = false).Reachable
      config → ∃ stored, (view config).pushed = (view config).removed ++ stored
  regular {before after thread action} :
    (program.system.restrict fun _ label _ => throws label.2 = false).Reachable before →
    throws action = false → program.system.Step before (thread, action) after →
    Regular thread (view before) (view after) ∧
      ∀ other, other ≠ thread → (view after).status other = (view before).status other
  begins {before after thread action call} : called action = some call →
    program.system.Step before (thread, action) after →
    (view after).history = (view before).history ++ [.call thread call]
  inside {before after thread action} :
    (program.system.restrict fun _ label _ => throws label.2 = false).Reachable before →
    called action = none → program.system.Step before (thread, action) after → ∀ call,
    (view after).history ≠ (view before).history ++ [.call thread call]
  ready {config thread} (call) : (view config).status thread = .idle →
    ∃ action after, called action = some call ∧ throws action = false ∧
      program.system.Step config (thread, action) after
  lowers {before after thread action} :
    (program.system.restrict fun _ label _ => throws label.2 = false).Reachable before →
    throws action = false → program.system.Step before (thread, action) after →
    rank after + 1 ≤ rank before + price * (called action).isSome.toNat +
      cost * (spurious action).toNat
  /-- Where nothing but calls and spurious wake-ups is possible, only waiting consumers are left. -/
  progress {config} :
    (program.system.restrict fun _ label _ => throws label.2 = false).Reachable config →
    (∀ thread action after, throws action = false → called action = none →
      program.system.Step config (thread, action) after → spurious action = true) →
    ∀ thread, (view config).status thread = .idle ∨
      (view config).status thread = .pending .waitAndPop

/-! ## Any implementation is a first-in first-out queue -/

section Refinement

variable {Tid Value : Type*}

/-- The atomic queue holds the stored values, has the same history, and each of its threads has
made the same progress. -/
structure View.Matches (view : View Tid Value)
    (state : AtomicObject.State Tid (List Value) (Call Value) (Result Value)) : Prop where
  order : view.pushed = view.removed ++ state.value
  history : state.history = view.history
  status : ∀ thread, state.status thread = view.status thread

theorem stored_eq_cons {view view' : View Tid Value} {values later : List Value} {value : Value}
    (order : view.pushed = view.removed ++ values) (order' : view'.pushed = view'.removed ++ later)
    (pushed : view'.pushed = view.pushed) (removed : view'.removed = view.removed ++ [value]) :
    values = value :: later := by
  rw [pushed, order, removed, List.append_assoc] at order'
  exact List.append_cancel_left order'

variable [DecidableEq Tid]

/-- A step that meets no exception is a step of the atomic queue, or none. -/
theorem View.Matches.step {view view' : View Tid Value} {thread : Tid}
    {state : AtomicObject.State Tid (List Value) (Call Value) (Result Value)}
    (matched : view.Matches state) (step : Regular thread view view')
    (others : ∀ other, other ≠ thread → view'.status other = view.status other)
    (stored : ∃ later, view'.pushed = view'.removed ++ later) :
    view'.Matches state ∨ ∃ state', AtomicObject.Step (fifo Value) state state' ∧
      view'.Matches state' := by
  have mine := matched.status thread
  have status {progress : Status (Call Value) (Result Value)}
      (now : view'.status thread = progress) (other : Tid) :
      Function.update state.status thread progress other = view'.status other := by
    by_cases same : other = thread
    · subst same
      simp [now]
    · simp [same, others other same, matched.status other]
  cases step with
  | stutter pushed removed history unchanged =>
      refine Or.inl ⟨?_, matched.history.trans history.symm, fun other => ?_⟩
      · rw [pushed, removed, matched.order]
      · by_cases same : other = thread
        · subst same
          rw [mine, unchanged]
        · rw [others other same, matched.status other]
  | call call pushed removed history idle pending =>
      refine Or.inr ⟨_, .call call (mine.trans idle), ?_, ?_, status pending⟩
      · rw [pushed, removed, matched.order]
      · rw [history, matched.history]
  | push value pushed removed history pending finished =>
      have applied : (fifo Value).apply state.value (.push value) .pushed
          (state.value ++ [value]) := rfl
      refine Or.inr ⟨_, .effect _ _ (mine.trans pending) applied, ?_,
        matched.history.trans history.symm, status finished⟩
      rw [pushed, removed, matched.order, List.append_assoc]
  | pop call value kind pushed removed history pending finished =>
      obtain ⟨later, order⟩ := stored
      have front := stored_eq_cons matched.order order pushed removed
      refine Or.inr ⟨_, .effect (.popped (some value)) later (mine.trans pending) ?_, order,
        matched.history.trans history.symm, status finished⟩
      cases call with
      | push => simp [Call.pushedValue] at kind
      | tryPop | waitAndPop => exact front
  | empty pushed removed history nothing pending finished =>
      have value : state.value = [] := by simpa [nothing] using matched.order
      have applied : (fifo Value).apply state.value .tryPop (.popped none) [] := ⟨value, rfl⟩
      refine Or.inr ⟨_, .effect _ _ (mine.trans pending) applied, ?_,
        matched.history.trans history.symm, status finished⟩
      rw [pushed, removed, nothing, List.append_nil]
  | ret result pushed removed history finished idle =>
      refine Or.inr ⟨_, .ret (mine.trans finished), ?_, ?_, status idle⟩
      · rw [pushed, removed, matched.order]
      · rw [history, matched.history]

end Refinement

namespace Implementation

variable {Tid Value Action Shared Local : Type*} [DecidableEq Tid]
  (queue : Implementation Tid Value Action Shared Local)

/-- The runs in which nothing throws. -/
def system : TransitionSystem (Config Tid Shared Local) (Tid × Action) :=
  queue.program.system.restrict fun _ label _ => queue.throws label.2 = false

theorem exists_atomic {config : Config Tid Shared Local} (reach : queue.system.Reachable config) :
    ∃ state, (AtomicObject.system Tid (fifo Value)).Reachable state ∧
      (queue.view config).Matches state := by
  refine AtomicObject.exists_of_simulation (fun config => (queue.view config).Matches) ?_ ?_ reach
  · intro start initial
    rw [queue.new initial]
    exact ⟨rfl, rfl, fun _ => rfl⟩
  · rintro before ⟨thread, action⟩ after state earlier matched step
    obtain ⟨own, others⟩ := queue.regular earlier step.2 step.1
    exact matched.step own others (queue.order (earlier.step step))

end Implementation

end ThreadSafeQueue
end ConcurrencyCourse
