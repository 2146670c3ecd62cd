import ConcurrencyCourse.SimpleQueue.Program
import ConcurrencyCourse.Delivery

/-!
# Exceptions in the queue with one lock

`push` and `try_pop` make their only fallible move while the deque is still as they found it, and
so does `wait_and_pop` with its first one.  But `wait_and_pop` moves its local value once more into
the result, after it has popped the element: when this move throws, the element is gone.
-/

namespace ConcurrencyCourse
namespace SimpleQueue

open ThreadSafeQueue

variable {Tid Value : Type*}

/-- The progress of a call as its caller could observe it. -/
def Pc.status : Pc Value → AtomicObject.Status (Call Value) (Result Value)
  | .idle => .idle
  | .pushLock newValue | .pushEmplace newValue => .pending (.push newValue)
  | .pushNotify | .pushUnlock => .finished .pushed
  | .tryLock | .tryTest | .tryMove => .pending .tryPop
  | .tryPopFront val => .finished (.popped (some val))
  | .tryUnlock val => .finished (.popped val)
  | .waitLock | .waitEmpty | .waitTest | .waitBlock | .waiting | .waitMove =>
      .pending .waitAndPop
  | .waitPopFront value | .waitReturn value | .waitUnlock value =>
      .finished (.popped (some value))
  | .unwind => .finished .threw
  | .returning result => .finished result

/-- The queue as its callers could observe it. -/
def view (config : Config Tid Value) : View Tid Value where
  pushed := config.shared.queue.pushed
  removed := config.shared.queue.removed.map Prod.snd
  history := config.shared.history
  status thread := (config.threads thread).status

/-- The move of the local value of `wait_and_pop` into its result throws. -/
def returnThrows : ThreadAction Tid Value → Pc Value → Bool
  | .inside .throw, .waitReturn _ => true
  | _, _ => false

/-- A step in which the move into the result throws. -/
def ReturnThrows (before : Config Tid Value) (label : Tid × ThreadAction Tid Value)
    (_ : Config Tid Value) : Prop :=
  returnThrows label.2 (before.threads label.1) = true

instance (before after : Config Tid Value) (label : Tid × ThreadAction Tid Value) :
    Decidable (ReturnThrows before label after) :=
  inferInstanceAs (Decidable (_ = _))

/-- A thread is inside a call that has not returned. -/
def Pc.inCall : Pc Value → Bool
  | .idle | .returning _ => false
  | _ => true

/-- Only `thread` moves, inside its call. -/
def Alone (thread : Tid) (before : Config Tid Value) (label : Tid × ThreadAction Tid Value)
    (_ : Config Tid Value) : Prop :=
  label.1 = thread ∧ (before.threads thread).inCall = true

instance [DecidableEq Tid] (thread : Tid) (before after : Config Tid Value)
    (label : Tid × ThreadAction Tid Value) : Decidable (Alone thread before label after) :=
  inferInstanceAs (Decidable (_ ∧ _))

variable [DecidableEq Tid] {thread : Tid} {shared shared' : Shared Tid Value} {pc' : Pc Value}
  {action : ThreadAction Tid Value}

omit [DecidableEq Tid] in
theorem view_status (shared : Shared Tid Value) {threads : Tid → Pc Value} {pc : Pc Value}
    (position : threads thread = pc) : (view ⟨shared, threads⟩).status thread = pc.status := by
  rw [← position]
  rfl

theorem view_status_update {threads : Tid → Pc Value} :
    (view ⟨shared', Function.update threads thread pc'⟩).status thread = pc'.status := by
  simp [view]

theorem ThreadCase.regular {threads : Tid → Pc Value} {pc : Pc Value}
    (shape : Shape shared.queue) (position : threads thread = pc)
    (step : ThreadCase thread shared action pc shared' pc') (noThrow : action ≠ .inside .throw) :
    Regular thread (view ⟨shared, threads⟩)
      (view ⟨shared', Function.update threads thread pc'⟩) := by
  have status := view_status shared position
  cases step with
  | call call =>
      refine .call call rfl rfl rfl status (view_status_update.trans ?_)
      cases call with
      | push | tryPop | waitAndPop => rfl
  | ret result => exact .ret result rfl rfl rfl status view_status_update
  | inside taken =>
      cases taken with
      | push taken =>
          cases taken with
          | emplace newValue => exact .push newValue rfl rfl rfl status view_status_update
          | throwEmplace => exact absurd rfl noThrow
          | lock | notifyNobody | notify | unlock | unwind =>
              exact .stutter rfl rfl rfl (view_status_update.trans status.symm)
      | tryPop taken =>
          cases taken with
          | empty nothing =>
              refine .empty rfl rfl rfl ?_ status view_status_update
              simpa [view, Queue.contents, nothing] using shape.order
          | move front =>
              exact .pop .tryPop _ rfl rfl (by simp [view]) rfl status view_status_update
          | throwMove => exact absurd rfl noThrow
          | lock | nonempty | popFront | unlock =>
              exact .stutter rfl rfl rfl (view_status_update.trans status.symm)
      | waitAndPop taken =>
          cases taken with
          | move front =>
              exact .pop .waitAndPop _ rfl rfl (by simp [view]) rfl status view_status_update
          | throwMove | throwReturn => exact absurd rfl noThrow
          | lock | empty | nonempty | testEmpty | testNonempty | block | wake | relock | popFront
          | finish | unlock => exact .stutter rfl rfl rfl (view_status_update.trans status.symm)

theorem ThreadCase.exchange {threads : Tid → Pc Value} {pc : Pc Value}
    (shape : Shape shared.queue) (position : threads thread = pc)
    (step : ThreadCase thread shared action pc shared' pc') :
    Exchange thread (view ⟨shared, threads⟩)
      (view ⟨shared', Function.update threads thread pc'⟩) (returnThrows action pc) := by
  have status := view_status shared position
  by_cases throws : action = .inside .throw
  · subst throws
    cases step with
    | inside taken =>
        cases taken with
        | push taken =>
            cases taken with
            | throwEmplace newValue =>
                exact .fail (.push newValue) rfl rfl rfl status view_status_update
        | tryPop taken =>
            cases taken with
            | throwMove => exact .fail .tryPop rfl rfl rfl status view_status_update
        | waitAndPop taken =>
            cases taken with
            | throwMove => exact .fail .waitAndPop rfl rfl rfl status view_status_update
            | throwReturn value => exact .lose value rfl rfl rfl status view_status_update
  · have keeps : returnThrows action pc = false := by
      unfold returnThrows
      split
      · exact absurd rfl throws
      · rfl
    rw [keeps]
    exact .regular (step.regular shape position throws)

theorem ThreadCase.undone_of_call {threads : Tid → Pc Value} {pc : Pc Value}
    {call : Call Value} (step : ThreadCase thread shared (.call call) pc shared' pc') :
    Undone (view ⟨shared, threads⟩) 0 thread
      (view ⟨shared', Function.update threads thread pc'⟩) := by
  unfold Undone
  rw [view_status_update]
  cases step with
  | call call => cases call <;> exact ⟨rfl, rfl, rfl⟩

omit [DecidableEq Tid] in
theorem status_ne_idle {config : Config Tid Value}
    (inside : (config.threads thread).inCall = true) : (view config).status thread ≠ .idle := by
  cases position : config.threads thread with
  | idle => simp [position, Pc.inCall] at inside
  | returning => simp [position, Pc.inCall] at inside
  | _ => simp [view, position, Pc.status]

theorem exists_exchange {before after : Config Tid Value}
    {label : Tid × ThreadAction Tid Value} (reach : program.system.Reachable before)
    (step : program.system.Step before label after) :
    Exchange label.1 (view before) (view after)
        (returnThrows label.2 (before.threads label.1)) ∧
      ∀ other, other ≠ label.1 → (view after).status other = (view before).status other := by
  obtain ⟨thread, action⟩ := label
  obtain ⟨shared', pc', change, rfl⟩ := exists_threadCase reach step
  exact ⟨change.exchange (assertion_of_reachable reach).1 rfl,
    fun other foreign => by simp [view, foreign]⟩

theorem view_order {config : Config Tid Value} (reach : program.system.Reachable config) :
    (view config).pushed = (view config).removed ++ config.shared.queue.contents :=
  (assertion_of_reachable reach).1.order

theorem account_initial [DecidableEq Value] [Fintype Tid] {start : Config Tid Value}
    (new : program.system.Initial start) : Account (view start) [] := by
  obtain ⟨queue, threads⟩ := start
  obtain ⟨rfl, rfl⟩ := new
  constructor
  · exact fun _ => trivial
  · simp [view, initial, View.unreturned, Queue.empty, Pc.status, accepted, acceptedLatest]
  · simp [view, initial, taken, Queue.empty, Pc.status, received]

/-- A call that ends by an exception has left the stored values as they were, and the values
accepted are those received and those still stored, exactly when the move that threw was not the
move of `wait_and_pop` into its result. -/
theorem unchanged_iff_not_returnThrows [DecidableEq Value] [Fintype Tid] :
    (∀ {before start last : Config Tid Value} {thread : Tid} {call : Call Value} {count : Nat},
      program.system.Reachable before →
      program.system.Step before (thread, .call call) start →
      (program.system.restrict (Alone thread)).CountedRun ReturnThrows start count last →
      last.threads thread = .returning .threw →
      (last.shared.queue.contents = before.shared.queue.contents ↔ count = 0)) ∧
    ∀ {start last : Config Tid Value} {count : Nat}, program.system.Initial start →
      program.system.CountedRun ReturnThrows start count last →
      (∀ thread, last.threads thread = .idle) →
      ((accepted last.shared.history).Perm
        (received last.shared.history ++ last.shared.queue.contents) ↔ count = 0) := by
  constructor
  · intro before start last thread call count reach begins run threw
    have reachStart := reach.step begins
    have undone : Undone (view before) count thread (view last) := by
      refine undone_of_run run reachStart ?_ fun earlier step alone => ?_
      · obtain ⟨shared', pc', change, rfl⟩ := exists_threadCase reach begins
        exact change.undone_of_call
      · obtain ⟨rfl, inside⟩ := alone
        exact ⟨_, (exists_exchange earlier step).1, Iff.rfl, status_ne_idle inside⟩
    exact undone.stored_iff (by simp [view, threw, Pc.status]) (view_order reach)
      (view_order (run.of_restrict.reachable reachStart))
  · intro start last count new run idle
    obtain ⟨lost, rfl, account⟩ := exists_account_of_run run (.initial new) (account_initial new)
      fun reach step => ⟨_, _, (exists_exchange reach step).1, Iff.rfl,
        (exists_exchange reach step).2⟩
    have quiet (thread : Tid) : (view last).status thread = .idle := by
      simp [view, idle, Pc.status]
    rw [List.length_eq_zero_iff]
    exact account.perm_iff quiet (view_order (run.reachable (.initial new)))

/-- The actions of a thread that pushes a value when nothing gets in its way. -/
def pushing (thread : Tid) (value : Value) : List (Tid × ThreadAction Tid Value) :=
  [(thread, .call (.push value)), (thread, .inside .run), (thread, .inside .run),
    (thread, .inside (.notifyOne none)), (thread, .inside .run), (thread, .inside .run)]

/-- `wait_and_pop` finds a value and throws while it moves it out of the deque. -/
theorem unchanged_iff_not_returnThrows_waitMove : ∃ before last final : Config (Fin 1) Nat,
    (before.shared.queue.contents = [5] ∧ last.threads 0 = .returning .threw ∧
      final.threads 0 = .idle) ∧
      last.shared.queue.contents = before.shared.queue.contents ∧
      (accepted final.shared.history).Perm
        (received final.shared.history ++ final.shared.queue.contents) := by
  let before := program.finish (fun _ _ _ => True) (pushing 0 5) (initial : Config (Fin 1) Nat)
  let start := program.finish (fun _ _ _ => True) [(0, .call .waitAndPop)] before
  let alone (before : Config (Fin 1) Nat) (label : Fin 1 × ThreadAction (Fin 1) Nat)
      (after : Config (Fin 1) Nat) := Alone 0 before label after ∧ ¬ ReturnThrows before label after
  let last := program.finish alone
    [(0, .inside .run), (0, .inside .run), (0, .inside .throw), (0, .inside .run)] start
  let quiet (before : Config (Fin 1) Nat) (label : Fin 1 × ThreadAction (Fin 1) Nat)
      (after : Config (Fin 1) Nat) := True ∧ ¬ ReturnThrows before label after
  let trace := pushing (0 : Fin 1) 5 ++ [(0, .call .waitAndPop), (0, .inside .run),
    (0, .inside .run), (0, .inside .throw), (0, .inside .run), (0, .inside .run)]
  let final := program.finish quiet trace (initial : Config (Fin 1) Nat)
  have reach : (program.system.restrict fun _ _ _ => True).Reachable before :=
    (Program.run_finish (by decide)).reachable initial_reachable
  have begins : (program.system.restrict fun _ _ _ => True).Step before (0, .call .waitAndPop)
      start := (Program.run_finish (by decide)).step_of_single
  have run : (program.system.restrict alone).Run start _ last := Program.run_finish (by decide)
  have whole : (program.system.restrict quiet).Run initial trace final :=
    Program.run_finish (by decide)
  refine ⟨before, last, final, by decide, ?_, ?_⟩
  · exact (unchanged_iff_not_returnThrows.1 reach.of_restrict begins.1
      (TransitionSystem.CountedRun.zero_of_run run) (by decide)).mpr rfl
  · exact (unchanged_iff_not_returnThrows.2 ⟨rfl, rfl⟩
      (TransitionSystem.CountedRun.zero_of_run whole).of_restrict (by decide)).mpr rfl

/-- `wait_and_pop` pops the value 5 and throws while it moves it into its result. -/
theorem value_lost_by_return : ∃ before start last : Config (Fin 1) Nat, ∃ trace,
    program.system.Reachable before ∧ program.system.Step before (0, .call .waitAndPop) start ∧
      (program.system.restrict (Alone 0)).Run start trace last ∧
      last.threads 0 = .returning .threw ∧
      last.shared.queue.contents ≠ before.shared.queue.contents := by
  let before := program.finish (fun _ _ _ => True) (pushing 0 5) (initial : Config (Fin 1) Nat)
  let start := program.finish (fun _ _ _ => True) [(0, .call .waitAndPop)] before
  let last := program.finish (Alone 0) (List.replicate 4 (0, .inside .run) ++
    [(0, .inside .throw), (0, .inside .run)]) start
  have reach : (program.system.restrict fun _ _ _ => True).Reachable before :=
    (Program.run_finish (by decide)).reachable initial_reachable
  have begins : (program.system.restrict fun _ _ _ => True).Step before (0, .call .waitAndPop)
      start := (Program.run_finish (by decide)).step_of_single
  exact ⟨before, start, last, _, reach.of_restrict, begins.1, Program.run_finish (by decide),
    by decide, by decide⟩

end SimpleQueue
end ConcurrencyCourse
