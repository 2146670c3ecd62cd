import ConcurrencyCourse.OptimizedQueue.Exchange

/-!
# The queue refines a first-in first-out queue

A call of `push` takes effect when it moves `tail`, a removal when it empties `head`, and a
`try_pop()` that finds nothing when it reads `tail`.  Up to these steps the queue is an atomic
object whose value is the list of stored values.  An exception thrown by the move out of an
unlinked node loses its value, so runs with exceptions are excluded here.
-/

namespace ConcurrencyCourse
namespace OptimizedQueue

open LinkedPath ThreadSafeQueue

variable {Tid Value : Type*}

/-- The values stored from the logical head up to but excluding `tail`. -/
def Stores (config : Config Tid Value) (values : List Value) : Prop :=
  ∃ first nodes, logicalHead config = some first ∧
    Path config.shared.next first nodes config.shared.tail ∧ config.shared.tail ∉ nodes ∧
    nodes.map config.shared.data = values.map some

theorem Stores.unique {config : Config Tid Value} {values values' : List Value}
    (stores : Stores config values) (stores' : Stores config values') : values = values' := by
  obtain ⟨first, nodes, head, path, fresh, data⟩ := stores
  obtain ⟨first', nodes', head', path', fresh', data'⟩ := stores'
  obtain rfl := Option.some.inj (head.symm.trans head')
  obtain rfl := path.unique path' fresh fresh'
  exact List.map_injective_iff.mpr (Option.some_injective Value) (data.symm.trans data')

/-- No allocation or move of a value fails in this step. -/
def NoThrow (_ : Config Tid Value) (label : Tid × Action Tid Value) (_ : Config Tid Value) :
    Prop :=
  label.2 ≠ .throw

instance [DecidableEq Tid] [DecidableEq Value] (before after : Config Tid Value)
    (label : Tid × Action Tid Value) : Decidable (NoThrow before label after) :=
  inferInstanceAs (Decidable (label.2 ≠ .throw))

/-- What a step of `thread` does to the atomic queue. -/
inductive AbstractStep (thread : Tid) (queue : Queue Tid Value) (pc : Pc Value)
    (queue' : Queue Tid Value) (pc' : Pc Value) : Prop
  | stutter : queue'.pushed = queue.pushed → queue'.removed = queue.removed →
      queue'.history = queue.history → pc'.status queue' = pc.status queue →
      AbstractStep thread queue pc queue' pc'
  | call (call : Call Value) : queue'.pushed = queue.pushed → queue'.removed = queue.removed →
      queue'.history = queue.history ++ [.call thread call] → pc.status queue = .idle →
      pc'.status queue' = .pending call → AbstractStep thread queue pc queue' pc'
  | effect (call : Call Value) (result : Result Value) : queue'.history = queue.history →
      pc.status queue = .pending call → pc'.status queue' = .finished result →
      (∀ values, queue.pushed = queue.removed ++ values → ∃ values',
        (fifo Value).apply values call result values' ∧
          queue'.pushed = queue'.removed ++ values') →
      AbstractStep thread queue pc queue' pc'
  | ret (result : Result Value) : queue'.pushed = queue.pushed →
      queue'.removed = queue.removed → queue'.history = queue.history ++ [.ret thread result] →
      pc.status queue = .finished result → pc'.status queue' = .idle →
      AbstractStep thread queue pc queue' pc'

variable {layout layout' : Layout Tid Value} {thread : Tid} {queue queue' : Queue Tid Value}
  {pc pc' : Pc Value}

/-- What callers observe of a step is a step of the atomic queue, or nothing. -/
theorem abstractStep_of_regular [DecidableEq Tid] (threads : Tid → Pc Value)
    (position : threads thread = pc) (stored : ∃ later, queue'.pushed = queue'.removed ++ later)
    (step : Regular thread (view ⟨queue, threads⟩)
      (view ⟨queue', Function.update threads thread pc'⟩)) :
    AbstractStep thread queue pc queue' pc' := by
  have before := view_status queue position
  have after : (view ⟨queue', Function.update threads thread pc'⟩).status thread =
      pc'.status queue' := view_status_update
  cases step with
  | stutter pushed removed history status =>
      exact .stutter pushed removed history (after.symm.trans (status.trans before))
  | call call pushed removed history idle pending =>
      exact .call call pushed removed history (before.symm.trans idle) (after.symm.trans pending)
  | ret result pushed removed history finished idle =>
      exact .ret result pushed removed history (before.symm.trans finished) (after.symm.trans idle)
  | push value pushed removed history pending finished =>
      refine .effect (.push value) .pushed history (before.symm.trans pending)
        (after.symm.trans finished) fun values order => ⟨values ++ [value], rfl, ?_⟩
      dsimp only [view] at pushed removed
      rw [pushed, removed, order, List.append_assoc]
  | pop call value kind pushed removed history pending finished =>
      obtain ⟨later, order'⟩ := stored
      refine .effect call (.popped (some value)) history (before.symm.trans pending)
        (after.symm.trans finished) fun values order => ⟨later, ?_, order'⟩
      dsimp only [view] at pushed removed
      have values' : values = value :: later := by
        rw [pushed, order, removed, List.append_assoc] at order'
        exact List.append_cancel_left order'
      cases call with
      | push => simp [Call.pushedValue] at kind
      | tryPop | waitAndPop => exact values'
  | empty pushed removed history nothing pending finished =>
      refine .effect .tryPop (.popped none) history (before.symm.trans pending)
        (after.symm.trans finished) fun values order => ?_
      dsimp only [view] at pushed removed nothing
      have values' : values = [] := by simpa [nothing] using order
      exact ⟨[], ⟨values', rfl⟩, by rw [pushed, removed, nothing, List.append_nil]⟩

theorem Assertion.abstractStep [DecidableEq Tid] {action : Action Tid Value}
    (shape : Shape layout queue) (assertion : Assertion layout thread queue pc)
    (step : threadStep thread action queue pc = some (queue', pc'))
    (noThrow : action ≠ .throw) : AbstractStep thread queue pc queue' pc' := by
  obtain ⟨layout', shape', -⟩ := assertion.preserved shape step
  exact abstractStep_of_regular (fun _ => pc) rfl ⟨_, shape'.order⟩
    (assertion.regular shape rfl (assertion.threadStep_cases shape step) noThrow)

/-! ## The simulation -/

/-- The atomic queue holds the stored values, has the same history, and each of its threads has
made the same progress. -/
structure Related (config : Config Tid Value)
    (state : AtomicObject.State Tid (List Value) (Call Value) (Result Value)) : Prop where
  order : config.shared.pushed = config.shared.removed ++ state.value
  history : state.history = config.shared.history
  status : ∀ thread, state.status thread = (config.threads thread).status config.shared

theorem stores_of_shape {config : Config Tid Value} (shape : Shape layout config.shared)
    (asserted : ∀ thread, Assertion layout thread config.shared (config.threads thread)) :
    Stores config layout.values :=
  ⟨layout.front, layout.nodes, logicalHead_eq shape asserted, shape.path, shape.fresh,
    shape.values⟩

section Runs

variable [DecidableEq Tid]

theorem exists_abstractStep {before after : Config Tid Value} {action : Action Tid Value}
    (reach : program.system.Reachable before)
    (step : program.system.Step before (thread, action) after) (noThrow : action ≠ .throw) :
    AbstractStep thread before.shared (before.threads thread) after.shared
        (after.threads thread) ∧
      ∀ other, other ≠ thread → (after.threads other).status after.shared =
        (before.threads other).status before.shared := by
  obtain ⟨layout, shape, asserted⟩ := exists_layout reach
  obtain ⟨queue', pc', taken, rfl⟩ := Program.system_step_iff.mp step
  constructor
  · simpa using (asserted thread).abstractStep shape taken noThrow
  · intro other foreign
    obtain ⟨layout', -, -, relies⟩ := (asserted thread).preserved shape taken
    simpa [foreign] using (asserted other).status_of_rely (relies other foreign)

/-- Each step of the queue is matched by at most one step of the atomic queue. -/
theorem Related.simulate {before after : Config Tid Value} {label : Tid × Action Tid Value}
    {state : AtomicObject.State Tid (List Value) (Call Value) (Result Value)}
    (reach : program.system.Reachable before) (related : Related before state)
    (step : program.system.Step before label after) (noThrow : label.2 ≠ .throw) :
    Related after state ∨ ∃ state', AtomicObject.Step (fifo Value) state state' ∧
      Related after state' := by
  obtain ⟨thread, action⟩ := label
  obtain ⟨own, others⟩ := exists_abstractStep reach step noThrow
  have mine := related.status thread
  -- the progress recorded for `thread` is the only one that changes
  have status {progress : AtomicObject.Status (Call Value) (Result Value)}
      (now : (after.threads thread).status after.shared = progress) (other : Tid) :
      Function.update state.status thread progress other =
        (after.threads other).status after.shared := by
    by_cases same : other = thread
    · subst same
      simp [now]
    · simp [same, others other same, related.status other]
  cases own with
  | stutter pushed removed history unchanged =>
      refine Or.inl ⟨?_, ?_, fun other => ?_⟩
      · rw [pushed, removed]
        exact related.order
      · rw [history]
        exact related.history
      · by_cases same : other = thread
        · subst same
          rw [mine, unchanged]
        · rw [others other same, related.status other]
  | call call pushed removed history idle pending =>
      refine Or.inr ⟨_, .call call (mine.trans idle), ?_, ?_, status pending⟩
      · rw [pushed, removed]
        exact related.order
      · rw [history, related.history]
  | effect call result history pending finished apply =>
      obtain ⟨values', applied, order⟩ := apply state.value related.order
      exact Or.inr ⟨_, .effect result values' (mine.trans pending) applied, order,
        related.history.trans history.symm, status finished⟩
  | ret result pushed removed history finished idle =>
      refine Or.inr ⟨_, .ret (mine.trans finished), ?_, ?_, status idle⟩
      · rw [pushed, removed]
        exact related.order
      · rw [history, related.history]

theorem exists_atomic {config : Config Tid Value}
    (reach : (program.system.restrict NoThrow).Reachable config) :
    ∃ state, (AtomicObject.system Tid (fifo Value)).Reachable state ∧ Related config state := by
  refine AtomicObject.exists_of_simulation Related ?_ ?_ reach
  · rintro ⟨queue, threads⟩ ⟨rfl, rfl⟩
    exact ⟨rfl, rfl, fun _ => rfl⟩
  · rintro before label after state earlier related ⟨step, noThrow⟩
    exact related.simulate earlier.of_restrict step noThrow

/-- A call of `try_pop()` that returns without a value has met an empty queue. -/
theorem visits_empty {before after : Config Tid Value} {trace : List (Tid × Action Tid Value)}
    (reach : (program.system.restrict NoThrow).Reachable before)
    (run : (program.system.restrict NoThrow).Run before trace after) {thread : Tid}
    (called : before.threads thread = entry .tryPop)
    (returns : after.threads thread = .returning (.popped none)) :
    TransitionSystem.Run.Visits (program.system.restrict NoThrow) (Stores · []) before trace
      after := by
  refine Or.resolve_left (run.preserves_or_visits (motive := fun config =>
    (config.threads thread).status config.shared ≠ .finished (.popped none)) reach
    (by rw [called]; nofun) ?_) fun unfinished => unfinished ?_
  · rintro before ⟨mover, action⟩ after earlier unfinished ⟨step, noThrow⟩
    have reach' := earlier.of_restrict
    obtain ⟨own, others⟩ := exists_abstractStep reach' step noThrow
    by_cases same : mover = thread
    · subst same
      cases own with
      | stutter _ _ _ unchanged => exact Or.inl (by rw [unchanged]; exact unfinished)
      | call call _ _ _ _ pending => exact Or.inl (by rw [pending]; nofun)
      | ret _ _ _ _ _ idle => exact Or.inl (by rw [idle]; nofun)
      | effect call result _ _ finished apply =>
          by_cases empty : result = .popped none
          · right
            obtain ⟨layout, shape, -⟩ := exists_layout reach'
            obtain ⟨layout', shape', asserted'⟩ := exists_layout (reach'.step step)
            obtain ⟨values', applied, order⟩ := apply _ shape.order
            have nothing : values' = [] := by
              subst empty
              cases call with
              | push | waitAndPop => exact applied.elim
              | tryPop => exact applied.2
            rw [nothing] at order
            rw [shape'.eq_values order]
            exact stores_of_shape shape' asserted'
          · refine Or.inl fun now => empty ?_
            simpa [finished] using now
    · refine Or.inl ?_
      rw [others thread (Ne.symm same)]
      exact unfinished
  · rw [returns]
    rfl

/-- The queue refines a first-in first-out queue: in every reachable state the values pushed are
those removed followed by those stored, the history of calls and returns is one of the atomic
queue, and a `try_pop()` returns without a value only after a state of its call in which nothing
was stored. -/
theorem refines_fifo :
    (∀ config : Config Tid Value, (program.system.restrict NoThrow).Reachable config →
      ∃ values, Stores config values ∧
        config.shared.pushed = config.shared.removed ++ values ∧
        ∃ state, (AtomicObject.system Tid (fifo Value)).Reachable state ∧
          state.value = values ∧ state.history = config.shared.history) ∧
    ∀ (before after : Config Tid Value) trace thread,
      (program.system.restrict NoThrow).Reachable before →
      (program.system.restrict NoThrow).Run before trace after →
      before.threads thread = entry .tryPop →
      after.threads thread = .returning (.popped none) →
      TransitionSystem.Run.Visits (program.system.restrict NoThrow) (Stores · []) before trace
        after := by
  constructor
  · intro config reach
    obtain ⟨state, atomic, related⟩ := exists_atomic reach
    obtain ⟨layout, shape, asserted⟩ := exists_layout reach.of_restrict
    refine ⟨layout.values, stores_of_shape shape asserted, shape.order, state, atomic, ?_,
      related.history⟩
    exact shape.eq_values related.order
  · exact fun before after trace thread reach run => visits_empty reach run

/-- After a push and a removal, a second push moves `tail` while a `try_pop()` compares with the old
one: the `try_pop()` returns without a value, and the second value is stored. -/
theorem refines_fifo_overlapping :
    ∃ before after : Config (Fin 2) Nat, ∃ trace,
      (before.threads 0 = entry .tryPop ∧ after.threads 0 = .returning (.popped none) ∧
        after.shared.pushed = [5, 6] ∧ after.shared.removed = [5]) ∧
      TransitionSystem.Run.Visits (program.system.restrict NoThrow) (Stores · []) before trace
        after ∧
      Stores after [6] ∧ ∃ state, (AtomicObject.system (Fin 2) (fifo Nat)).Reachable state ∧
        state.value = [6] ∧ state.history = after.shared.history := by
  let before : Config (Fin 2) Nat := program.finish NoThrow
    ([(1, .call (.push 5)), (1, .allocate 1)] ++ List.replicate 7 (1, .run) ++
      [(1, .notifyOne none), (1, .run), (0, .call .tryPop)] ++ List.replicate 16 (0, .run) ++
      [(1, .call (.push 6)), (1, .allocate 0), (0, .call .tryPop)]) initial
  let after := program.finish NoThrow
    (List.replicate 5 (0, .run) ++ List.replicate 6 (1, .run) ++ List.replicate 3 (0, .run)) before
  have reach : (program.system.restrict NoThrow).Reachable before :=
    (Program.run_finish (by decide +kernel)).reachable initial_reachable
  have run : (program.system.restrict NoThrow).Run before _ after :=
    Program.run_finish (by decide +kernel)
  have called : before.threads 0 = entry .tryPop := by decide +kernel
  have returns : after.threads 0 = .returning (.popped none) := by decide +kernel
  have pushed : after.shared.pushed = [5, 6] := by decide +kernel
  have removed : after.shared.removed = [5] := by decide +kernel
  obtain ⟨values, stores, order, state, atomic, value, history⟩ :=
    refines_fifo.1 after (run.reachable reach)
  obtain rfl : [6] = values := by simpa [pushed, removed] using order
  exact ⟨before, after, _, ⟨called, returns, pushed, removed⟩,
    refines_fifo.2 before after _ 0 reach run called returns, stores, state, atomic, value, history⟩

end Runs

end OptimizedQueue
end ConcurrencyCourse
