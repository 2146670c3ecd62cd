import ConcurrencyCourse.OptimizedQueue.Steps
import ConcurrencyCourse.Library.CircularWait

/-!
# The two mutexes never deadlock

`tail_mutex` is acquired inside `head_mutex` in `get_tail`, also where the predicate of
`data_cond.wait` calls it after a wake-up, and `push` acquires it alone.  Nothing is acquired inside
`tail_mutex`, so a thread that waits for a mutex waits below the ones that it holds.
-/

namespace ConcurrencyCourse
namespace OptimizedQueue

open CircularWait

variable {Tid Value : Type*}

/-- The mutexes of the queue. -/
inductive Mutex
  | headMutex
  | tailMutex
  deriving DecidableEq

/-- The place of a mutex in the lock order. -/
def Mutex.level : Mutex → Nat
  | .tailMutex => 0
  | .headMutex => 1

/-- The thread that holds a mutex. -/
def Queue.heldBy (queue : Queue Tid Value) : Mutex → Option Tid
  | .headMutex => queue.headMutex
  | .tailMutex => queue.tailMutex

/-- The mutex that a thread is acquiring.  A thread in `data_cond.wait` reacquires `head_mutex` once
it has been woken. -/
def acquiring [DecidableEq Tid] (config : Config Tid Value) (thread : Tid) : Option Mutex :=
  match config.threads thread with
  | .pushLock _ _ | .getTailLock _ _ => some .tailMutex
  | .popLock _ => some .headMutex
  | .waiting => if thread ∈ config.shared.dataCond then none else some .headMutex
  | _ => none

theorem Assertion.holds_of_heldBy {layout : Layout Tid Value} {thread : Tid}
    {queue : Queue Tid Value} {pc : Pc Value} (assertion : Assertion layout thread queue pc)
    {mutex : Mutex} (held : queue.heldBy mutex = some thread) :
    (mutex = .headMutex ∧ pc.holdsHead = true) ∨ (mutex = .tailMutex ∧ pc.holdsTail = true) := by
  cases mutex with
  | headMutex => exact Or.inl ⟨rfl, assertion.headHeld.mp held⟩
  | tailMutex => exact Or.inr ⟨rfl, assertion.tailHeld.mp held⟩

variable [DecidableEq Tid] {config : Config Tid Value}

/-- A thread that acquires a mutex holds at most `head_mutex`, and then acquires `tail_mutex`. -/
theorem level_lt_of_acquiring {layout : Layout Tid Value} {thread : Tid} {wanted held : Mutex}
    (assertion : Assertion layout thread config.shared (config.threads thread))
    (acquires : acquiring config thread = some wanted)
    (holds : config.shared.heldBy held = some thread) : wanted.level < held.level := by
  have holding := assertion.holds_of_heldBy holds
  unfold acquiring at acquires
  cases position : config.threads thread with
  | getTailLock kind head =>
      rw [position] at acquires holding
      obtain rfl := Option.some.inj acquires
      rcases holding with ⟨rfl, -⟩ | ⟨-, holdsTail⟩
      · exact Nat.zero_lt_one
      · simp [Pc.holdsTail] at holdsTail
  | pushLock | popLock | waiting =>
      rw [position] at holding
      simp [Pc.holdsHead, Pc.holdsTail] at holding
  | _ => simp [position] at acquires

/-- No threads wait for each other's mutexes in a circle, and a thread inside `data_cond.wait` holds
neither mutex. -/
theorem not_deadlocked_of_reachable (reach : program.system.Reachable config) :
    (∀ threads, ¬ Deadlocked (acquiring config) config.shared.heldBy threads) ∧
      ∀ thread mutex, config.threads thread = .waiting →
        config.shared.heldBy mutex ≠ some thread := by
  obtain ⟨layout, -, asserted⟩ := exists_layout reach
  constructor
  · refine not_deadlocked_of_descending (fun wanted held => wanted.level < held.level)
      (InvImage.wf Mutex.level Nat.lt_wfRel.wf) ?_
    intro thread wanted held acquires holds
    exact level_lt_of_acquiring (asserted thread) acquires holds
  · intro thread mutex waits held
    have position := (asserted thread).holds_of_heldBy held
    rw [waits] at position
    simp [Pc.holdsHead, Pc.holdsTail] at position

/-- Thread 0 holds `head_mutex` and is blocked in `get_tail` by thread 1, which is inside `push`,
while thread 2 is blocked by thread 0. -/
theorem not_deadlocked_of_reachable_chain : ∃ config : Config (Fin 3) Nat,
    (acquiring config 0 = some .tailMutex ∧ config.shared.tailMutex = some 1 ∧
      acquiring config 2 = some .headMutex ∧ config.shared.headMutex = some 0) ∧
    ¬ Deadlocked (acquiring config) config.shared.heldBy Set.univ := by
  have chain : ∃ config : Config (Fin 3) Nat,
      (program.system.restrict fun _ _ _ => True).Run initial
        [(1, .call (.push 5)), (1, .allocate 1), (1, .run), (0, .call .waitAndPop), (0, .run),
          (0, .run), (2, .call .tryPop)] config ∧
        acquiring config 0 = some .tailMutex ∧ config.shared.tailMutex = some 1 ∧
          acquiring config 2 = some .headMutex ∧ config.shared.headMutex = some 0 :=
    Program.exists_run_of_execute (by decide)
  obtain ⟨config, run, blocked⟩ := chain
  exact ⟨config, blocked,
    (not_deadlocked_of_reachable (run.reachable initial_reachable).of_restrict).1 _⟩

end OptimizedQueue
end ConcurrencyCourse
