import ConcurrencyCourse.OptimizedQueue.Linearization

/-!
# Exceptions in the queue with two locks

An exception in `push` leaves the tail node empty, so a later push can use it.  A removal unlinks
the node first and moves its value to the caller when both mutexes are released: when this move
throws, the node is destroyed and its value is gone.
-/

namespace ConcurrencyCourse
namespace OptimizedQueue

open ThreadSafeQueue

variable {Tid Value : Type*}

/-- The move out of the unlinked node into the result throws. -/
def takeThrows : Action Tid Value → Pc Value → Bool
  | .throw, .takeData _ (some _) => true
  | _, _ => false

/-- A step in which the move out of an unlinked node throws. -/
def TakeThrows (before : Config Tid Value) (label : Tid × Action Tid Value)
    (_ : Config Tid Value) : Prop :=
  takeThrows label.2 (before.threads label.1) = true

instance (before after : Config Tid Value) (label : Tid × Action Tid Value) :
    Decidable (TakeThrows before label after) :=
  inferInstanceAs (Decidable (_ = _))

/-- A thread is inside a call that has not returned. -/
def Pc.inCall : Pc Value → Bool
  | .idle | .returning _ => false
  | _ => true

/-- Only `thread` moves, inside its call. -/
def Alone (thread : Tid) (before : Config Tid Value) (label : Tid × Action Tid Value)
    (_ : Config Tid Value) : Prop :=
  label.1 = thread ∧ (before.threads thread).inCall = true

instance [DecidableEq Tid] (thread : Tid) (before after : Config Tid Value)
    (label : Tid × Action Tid Value) : Decidable (Alone thread before label after) :=
  inferInstanceAs (Decidable (_ ∧ _))

variable [DecidableEq Tid] {layout : Layout Tid Value} {thread : Tid}
  {queue queue' : Queue Tid Value} {threads : Tid → Pc Value} {pc pc' : Pc Value}
  {action : Action Tid Value}

/-! ## The kinds of steps -/

theorem Assertion.exchange (shape : Shape layout queue)
    (assertion : Assertion layout thread queue pc) (position : threads thread = pc)
    (step : StepCase thread queue action pc queue' pc') :
    Exchange thread (view ⟨queue, threads⟩) (view ⟨queue', Function.update threads thread pc'⟩)
      (takeThrows action pc) := by
  have status := view_status queue position
  by_cases throws : action = .throw
  · subst throws
    cases step with
    | throwAllocate value =>
        exact .fail (.push value) rfl rfl rfl status view_status_update
    | throwData value p tail =>
        exact .fail (.push value) rfl rfl rfl status view_status_update
    | throwTake kind address =>
        obtain ⟨_, value, same, own⟩ := assertion.ownFact.resolve_left nofun
        obtain rfl := Option.some.inj same
        refine .lose value rfl rfl rfl (status.trans ?_) view_status_update
        simp [Pc.status, Queue.data, own.2]
  · have keeps : takeThrows action pc = false := by
      cases action with
      | throw => exact absurd rfl throws
      | _ => rfl
    rw [keeps]
    exact .regular (assertion.regular shape position step throws)

theorem exists_exchange {before after : Config Tid Value} {label : Tid × Action Tid Value}
    (reach : program.system.Reachable before) (step : program.system.Step before label after) :
    Exchange label.1 (view before) (view after) (takeThrows label.2 (before.threads label.1)) ∧
      ∀ other, other ≠ label.1 → (view after).status other = (view before).status other := by
  obtain ⟨thread, action⟩ := label
  obtain ⟨layout, shape, asserted⟩ := exists_layout reach
  obtain ⟨queue', pc', taken, rfl⟩ := Program.system_step_iff.mp step
  constructor
  · exact (asserted thread).exchange shape rfl ((asserted thread).threadStep_cases shape taken)
  · intro other foreign
    obtain ⟨layout', -, -, relies⟩ := (asserted thread).preserved shape taken
    simpa [view, foreign] using (asserted other).status_of_rely (relies other foreign)

theorem undone_of_call {before after : Config Tid Value} {call : Call Value}
    (reach : program.system.Reachable before)
    (step : program.system.Step before (thread, .call call) after) :
    Undone (view before) 0 thread (view after) := by
  obtain ⟨layout, shape, asserted⟩ := exists_layout reach
  obtain ⟨queue', pc', taken, rfl⟩ := Program.system_step_iff.mp step
  have change := (asserted thread).threadStep_cases shape taken
  generalize before.threads thread = pc at change
  unfold Undone
  rw [view_status_update]
  cases change with
  | call call =>
      cases call with
      | push | tryPop | waitAndPop => exact ⟨rfl, rfl, rfl⟩

omit [DecidableEq Tid] in
theorem status_ne_idle {config : Config Tid Value}
    (inside : (config.threads thread).inCall = true) : (view config).status thread ≠ .idle := by
  cases position : config.threads thread with
  | idle | returning => simp [position, Pc.inCall] at inside
  | getTailUnlock kind head tail | popCompare kind head tail =>
      cases kind with
      | waitAndPop => simp [view, position, Pc.status]
      | tryPop =>
          simp only [view, position, Pc.status]
          split <;> simp
  | _ => simp [view, position, Pc.status]

theorem account_initial [DecidableEq Value] [Fintype Tid] {start : Config Tid Value}
    (new : program.system.Initial start) : Account (view start) [] := by
  obtain ⟨queue, threads⟩ := start
  obtain ⟨rfl, rfl⟩ := new
  constructor
  · exact fun _ => trivial
  · simp [view, initial, View.unreturned, Pc.status, accepted, acceptedLatest]
  · simp [view, initial, taken, Pc.status, received]

theorem exists_stores {config : Config Tid Value} (reach : program.system.Reachable config) :
    ∃ values, Stores config values ∧ (view config).pushed = (view config).removed ++ values := by
  obtain ⟨layout, shape, asserted⟩ := exists_layout reach
  exact ⟨layout.values, stores_of_shape shape asserted, shape.order⟩

/-- A call that ends by an exception has left the stored values as they were, and the values
accepted are those received and those still stored, exactly when the exception did not come from
the move out of an unlinked node. -/
theorem unchanged_iff_not_takeThrows [DecidableEq Value] [Fintype Tid] :
    (∀ {before start last : Config Tid Value} {thread : Tid} {call : Call Value} {count : Nat},
      program.system.Reachable before →
      program.system.Step before (thread, .call call) start →
      (program.system.restrict (Alone thread)).CountedRun TakeThrows start count last →
      last.threads thread = .returning .threw →
      ∃ values values', Stores before values ∧ Stores last values' ∧
        (values' = values ↔ count = 0)) ∧
    ∀ {start last : Config Tid Value} {count : Nat}, program.system.Initial start →
      program.system.CountedRun TakeThrows start count last →
      (∀ thread, last.threads thread = .idle) →
      ∃ values, Stores last values ∧ ((accepted last.shared.history).Perm
        (received last.shared.history ++ values) ↔ count = 0) := by
  constructor
  · intro before start last thread call count reach begins run threw
    have reachStart := reach.step begins
    have undone : Undone (view before) count thread (view last) := by
      refine undone_of_run run reachStart (undone_of_call reach begins)
        fun earlier step alone => ?_
      obtain ⟨rfl, inside⟩ := alone
      exact ⟨_, (exists_exchange earlier step).1, Iff.rfl, status_ne_idle inside⟩
    obtain ⟨values, stores, order⟩ := exists_stores reach
    obtain ⟨values', stores', order'⟩ := exists_stores (run.of_restrict.reachable reachStart)
    exact ⟨values, values', stores, stores',
      undone.stored_iff (by simp [view, threw, Pc.status]) order order'⟩
  · intro start last count new run idle
    obtain ⟨lost, rfl, account⟩ := exists_account_of_run run (.initial new) (account_initial new)
      fun reach step => ⟨_, _, (exists_exchange reach step).1, Iff.rfl,
        (exists_exchange reach step).2⟩
    have quiet (thread : Tid) : (view last).status thread = .idle := by
      simp [view, idle, Pc.status]
    obtain ⟨values, stores, order⟩ := exists_stores (run.reachable (.initial new))
    refine ⟨values, stores, ?_⟩
    rw [List.length_eq_zero_iff]
    exact account.perm_iff quiet order

/-- The actions of a thread that pushes a value on a new queue, from the call to its return. -/
def pushing (thread : Tid) (value : Value) : List (Tid × Action Tid Value) :=
  [(thread, .call (.push value)), (thread, .allocate 1)] ++ List.replicate 7 (thread, .run) ++
    [(thread, .notifyOne none), (thread, .run)]

/-- A second push throws while it moves its value into the tail node. -/
theorem unchanged_iff_not_takeThrows_push : ∃ before last final : Config (Fin 1) Nat,
    (last.threads 0 = .returning .threw ∧ final.threads 0 = .idle) ∧
      (∃ values, Stores before values ∧ Stores last values) ∧
      ∃ values, Stores final values ∧
        (accepted final.shared.history).Perm (received final.shared.history ++ values) := by
  let before := program.finish (fun _ _ _ => True) (pushing 0 5) (initial : Config (Fin 1) Nat)
  let start := program.finish (fun _ _ _ => True) [(0, .call (.push 6))] before
  let alone (before : Config (Fin 1) Nat) (label : Fin 1 × Action (Fin 1) Nat)
      (after : Config (Fin 1) Nat) := Alone 0 before label after ∧ ¬ TakeThrows before label after
  let last := program.finish alone
    [(0, .allocate 2), (0, .run), (0, .run), (0, .throw), (0, .run), (0, .run)] start
  let quiet (before : Config (Fin 1) Nat) (label : Fin 1 × Action (Fin 1) Nat)
      (after : Config (Fin 1) Nat) := True ∧ ¬ TakeThrows before label after
  let trace := pushing (0 : Fin 1) 5 ++ [(0, .call (.push 6)), (0, .allocate 2), (0, .run),
    (0, .run), (0, .throw), (0, .run), (0, .run), (0, .run)]
  let final := program.finish quiet trace (initial : Config (Fin 1) Nat)
  have reach : (program.system.restrict fun _ _ _ => True).Reachable before :=
    (Program.run_finish (by decide)).reachable initial_reachable
  have begins : (program.system.restrict fun _ _ _ => True).Step before (0, .call (.push 6))
      start := (Program.run_finish (by decide)).step_of_single
  have run : (program.system.restrict alone).Run start _ last := Program.run_finish (by decide)
  have whole : (program.system.restrict quiet).Run initial trace final :=
    Program.run_finish (by decide)
  refine ⟨before, last, final, by decide, ?_, ?_⟩
  · obtain ⟨values, values', stores, stores', same⟩ := unchanged_iff_not_takeThrows.1
      reach.of_restrict begins.1 (TransitionSystem.CountedRun.zero_of_run run) (by decide)
    obtain rfl := same.mpr rfl
    exact ⟨values', stores, stores'⟩
  · obtain ⟨values, stores, perm⟩ := unchanged_iff_not_takeThrows.2 ⟨rfl, rfl⟩
      (TransitionSystem.CountedRun.zero_of_run whole).of_restrict (by decide)
    exact ⟨values, stores, perm.mpr rfl⟩

/-- `try_pop` unlinks the only node and throws while it moves the value 5 out of it. -/
theorem value_lost_by_take : ∃ before start last : Config (Fin 1) Nat, ∃ trace,
    program.system.Reachable before ∧ program.system.Step before (0, .call .tryPop) start ∧
      (program.system.restrict (Alone 0)).Run start trace last ∧
      last.threads 0 = .returning .threw ∧ Stores before [5] ∧ Stores last [] := by
  let before := program.finish (fun _ _ _ => True) (pushing 0 5) (initial : Config (Fin 1) Nat)
  let start := program.finish (fun _ _ _ => True) [(0, .call .tryPop)] before
  let last := program.finish (Alone 0) (List.replicate 12 (0, .run) ++
    [(0, .throw), (0, .run), (0, .run)]) start
  have reach : (program.system.restrict fun _ _ _ => True).Reachable before :=
    (Program.run_finish (by decide)).reachable initial_reachable
  have begins : (program.system.restrict fun _ _ _ => True).Step before (0, .call .tryPop)
      start := (Program.run_finish (by decide)).step_of_single
  refine ⟨before, start, last, _, reach.of_restrict, begins.1, Program.run_finish (by decide),
    by decide, ?_, ?_⟩
  · exact ⟨0, [0], by decide, ⟨rfl, 1, by decide, LinkedPath.path_nil.mpr (by decide)⟩, by decide,
      by decide⟩
  · exact ⟨1, [], by decide, LinkedPath.path_nil.mpr (by decide), by decide, by decide⟩

end OptimizedQueue
end ConcurrencyCourse
