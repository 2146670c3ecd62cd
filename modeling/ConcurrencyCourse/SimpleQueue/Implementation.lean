import ConcurrencyCourse.SimpleQueue.Exceptions
import ConcurrencyCourse.SimpleQueue.WakeUp
import ConcurrencyCourse.ThreadSafeQueue.Clients

/-!
# The queue with one lock as an implementation

Every step but a spurious wake-up brings the calls in progress nearer to their end, the holder of
`m_mutex` can always go on, and whoever is left when nothing moves any more waits for a value that
is not there.
-/

namespace ConcurrencyCourse
namespace SimpleQueue

open ThreadSafeQueue
open Program (countThreads sumThreads)

variable {Tid Value : Type*}

/-- The call that an action begins. -/
def ThreadAction.called : ThreadAction Tid Value → Option (Call Value)
  | .call operation => some operation
  | .inside _ => none

/-- The deque fails to grow, or a move of a value fails. -/
def ThreadAction.throws : ThreadAction Tid Value → Bool
  | .inside .throw => true
  | _ => false

/-- A wake-up that no push has caused. -/
def ThreadAction.spurious : ThreadAction Tid Value → Bool
  | .inside .wakeSpuriously => true
  | _ => false

/-- The thread is between two calls. -/
def Pc.idles : Pc Value → Bool
  | .idle => true
  | _ => false

/-- A bound for the steps to the end of the call, if no wait is interrupted and nobody else is
woken. -/
def Pc.weight : Pc Value → Nat
  | .idle => 0
  | .pushLock _ => 8
  | .pushEmplace _ => 7
  | .pushNotify => 6
  | .pushUnlock => 2
  | .tryLock => 6
  | .tryTest => 5
  | .tryMove => 4
  | .tryPopFront _ => 3
  | .tryUnlock _ => 2
  | .waitLock => 8
  | .waitEmpty => 7
  | .waitTest => 6
  | .waitBlock => 5
  | .waiting => 4
  | .waitMove => 5
  | .waitPopFront _ => 4
  | .waitReturn _ => 3
  | .waitUnlock _ => 2
  | .unwind => 2
  | .returning _ => 1

/-- The weights of all threads; whoever has been woken tests the deque once more. -/
def rank [DecidableEq Tid] [Fintype Tid] (config : Config Tid Value) : Nat :=
  sumThreads Pc.weight config.threads + 3 * woken config

variable [DecidableEq Tid] {thread : Tid} {shared shared' : Shared Tid Value}
  {queue queue' : Queue Tid Value} {pc pc' : Pc Value}

/-! ## Every step lowers the rank -/

/-- The change of the rank by one step, with the sleepers on both sides. -/
def Lowers (bonus : Nat) (queue : Queue Tid Value) (pc : Pc Value) (queue' : Queue Tid Value)
    (pc' : Pc Value) : Prop :=
  pc'.weight + 3 * pc'.waits.toNat + 3 * queue.condVariable.card + 1 ≤
    pc.weight + 3 * pc.waits.toNat + 3 * queue'.condVariable.card + bonus

omit [DecidableEq Tid] in
theorem Lowers.of_same {bonus : Nat} (sleepers : queue'.condVariable = queue.condVariable)
    (less : pc'.weight + 3 * pc'.waits.toNat < pc.weight + 3 * pc.waits.toNat) :
    Lowers bonus queue pc queue' pc' := by
  rw [Lowers, sleepers]
  omega

omit [DecidableEq Tid] in
theorem Lowers.mono {bonus larger : Nat} (less : Lowers bonus queue pc queue' pc')
    (le : bonus ≤ larger) : Lowers larger queue pc queue' pc' := by
  simp only [Lowers] at less ⊢
  omega

theorem PushCase.lowers {action : Action Tid} (step : PushCase thread queue action pc queue' pc') :
    Lowers 0 queue pc queue' pc' := by
  cases step with
  | notify member =>
      have card := Finset.card_erase_add_one member
      simp only [Lowers, Pc.weight, Pc.waits, Bool.toNat_false]
      omega
  | lock | emplace | throwEmplace | notifyNobody | unlock | unwind =>
      exact .of_same rfl (by simp [Pc.weight, Pc.waits])

omit [DecidableEq Tid] in
theorem TryCase.lowers {action : Action Tid} (step : TryCase thread queue action pc queue' pc') :
    Lowers 0 queue pc queue' pc' := by
  cases step with
  | lock | empty | nonempty | move | throwMove | popFront | unlock =>
      exact .of_same rfl (by simp [Pc.weight, Pc.waits])

theorem WaitCase.lowers {action : Action Tid} (step : WaitCase thread queue action pc queue' pc')
    (awake : pc = .waitBlock → thread ∉ queue.condVariable) :
    Lowers (4 * (ThreadAction.inside action : ThreadAction Tid Value).spurious.toNat) queue pc
      queue' pc' := by
  cases step with
  | block =>
      have card := Finset.card_insert_of_notMem (awake rfl)
      simp only [Lowers, Pc.weight, Pc.waits, Bool.toNat_false, Bool.toNat_true]
      omega
  | wake member =>
      have card := Finset.card_erase_add_one member
      simp only [Lowers, Pc.weight, Pc.waits, ThreadAction.spurious, Bool.toNat_true]
      omega
  | lock | empty | nonempty | testEmpty | testNonempty | relock | move | throwMove | popFront
  | finish | throwReturn | unlock => exact .of_same rfl (by simp [Pc.weight, Pc.waits])

theorem ThreadCase.lowers {action : ThreadAction Tid Value}
    (step : ThreadCase thread shared action pc shared' pc')
    (awake : pc = .waitBlock → thread ∉ shared.queue.condVariable) :
    Lowers (9 * action.called.isSome.toNat + 4 * action.spurious.toNat) shared.queue pc
      shared'.queue pc' := by
  cases step with
  | call call =>
      rw [Lowers]
      cases call with
      | push | tryPop | waitAndPop =>
          simp only [entry, Pc.weight, Pc.waits, ThreadAction.called, Option.isSome_some,
            Bool.toNat_false, Bool.toNat_true]
          omega
  | ret => exact .of_same rfl (by simp [Pc.weight, Pc.waits])
  | inside taken =>
      cases taken with
      | push taken => exact taken.lowers.mono (Nat.zero_le _)
      | tryPop taken => exact taken.lowers.mono (Nat.zero_le _)
      | waitAndPop taken =>
          simpa [ThreadAction.called] using taken.lowers awake

variable [Fintype Tid]

theorem rank_lowers {before after : Config Tid Value} {action : ThreadAction Tid Value}
    (reach : program.system.Reachable before)
    (step : program.system.Step before (thread, action) after) :
    rank after + 1 ≤ rank before + 9 * action.called.isSome.toNat + 4 * action.spurious.toNat := by
  have woken' := waits_eq_woken_add (reach.step step)
  have woken := waits_eq_woken_add reach
  obtain ⟨shared', pc', change, rfl⟩ := exists_threadCase reach step
  obtain ⟨-, asserted⟩ := assertion_of_reachable reach
  have lower := change.lowers fun position member => by
    have waiting := (asserted thread).blocked member
    simp [position] at waiting
  have weights := Program.sumThreads_update Pc.weight before.threads thread pc'
  have waits := Program.countThreads_update Pc.waits before.threads thread pc'
  simp only [Lowers] at lower
  simp only [rank]
  dsimp only at woken'
  omega

/-! ## Who can go on -/

/-- A step of a call that is no spurious wake-up, and in which nothing throws. -/
def Advances (config : Config Tid Value) (thread : Tid) : Prop :=
  ∃ action after, action.throws = false ∧ action.called = none ∧ action.spurious = false ∧
    program.system.Step config (thread, action) after

omit [Fintype Tid] in
theorem advances_of_isSome {config : Config Tid Value} (action : ThreadAction Tid Value)
    (throws : action.throws = false) (called : action.called = none)
    (spurious : action.spurious = false)
    (enabled : (threadStep thread action config.shared (config.threads thread)).isSome = true) :
    Advances config thread := by
  obtain ⟨⟨shared, pc⟩, step⟩ := Option.isSome_iff_exists.mp enabled
  exact ⟨action, _, throws, called, spurious,
    Program.system_step_iff.mpr ⟨shared, pc, step, rfl⟩⟩

omit [Fintype Tid] in
theorem advances_of_holds {config : Config Tid Value}
    (holds : (config.threads thread).holds = true) : Advances config thread := by
  by_cases notifies : config.threads thread = .pushNotify
  · rcases config.shared.queue.condVariable.eq_empty_or_nonempty with nobody | ⟨waiter, member⟩
    · refine advances_of_isSome (.inside (.notifyOne none)) rfl rfl rfl ?_
      simp [notifies, threadStep, callStep, nobody]
    · refine advances_of_isSome (.inside (.notifyOne (some waiter))) rfl rfl rfl ?_
      simp [notifies, threadStep, callStep, member]
  · refine advances_of_isSome (.inside .run) rfl rfl rfl ?_
    cases position : config.threads thread with
    | pushNotify => exact absurd position notifies
    | idle | pushLock | tryLock | waitLock | waiting | returning =>
        simp [position, Pc.holds] at holds
    | tryMove | waitMove =>
        simp only [threadStep, callStep, pushStep, tryStep, waitStep, Option.map_or]
        split <;> rfl
    | _ => rfl

omit [Fintype Tid] in
theorem free_of_still {config : Config Tid Value} (reach : program.system.Reachable config)
    (still : ∀ thread, ¬ Advances config thread) : config.shared.queue.mutex = none := by
  obtain ⟨-, asserted⟩ := assertion_of_reachable reach
  rw [Option.eq_none_iff_forall_ne_some]
  exact fun holder held => still holder (advances_of_holds ((asserted holder).held.mp held))

omit [Fintype Tid] in
/-- When nobody can go on, only sleepers are left. -/
theorem onlySleepers_of_still {config : Config Tid Value}
    (reach : program.system.Reachable config) (still : ∀ thread, ¬ Advances config thread) :
    OnlySleepers config := by
  intro thread
  have free := free_of_still reach still
  have unheld : (config.threads thread).holds = false :=
    Bool.eq_false_of_not_eq_true (mt advances_of_holds (still thread))
  have stays := mt (advances_of_isSome (.inside .run) rfl rfl rfl) (still thread)
  cases position : config.threads thread with
  | idle => exact Or.inl rfl
  | waiting =>
      refine Or.inr ⟨rfl, ?_⟩
      by_contra awake
      simp [position, threadStep, callStep, awake, Queue.lock, free] at stays
  | pushLock | tryLock | waitLock | returning =>
      simp [position, threadStep, callStep, pushStep, tryStep, waitStep, Queue.lock, free] at stays
  | _ => simp [position, Pc.holds] at unheld

/-- When only sleepers are left and there are some, nothing is stored. -/
theorem contents_eq_nil {config : Config Tid Value}
    (reach : (program.system.restrict fun _ label _ => label.2.throws = false).Reachable config)
    (still : ∀ thread, ¬ Advances config thread)
    (asleep : ∃ thread, config.threads thread ≠ .idle) :
    config.shared.queue.contents = [] := by
  have sleepers := onlySleepers_of_still reach.of_restrict still
  obtain ⟨sleeper, busy⟩ := asleep
  have member := ((sleepers sleeper).resolve_left busy).2
  have succeeds : (program.system.restrict WaitMoveSucceeds).Reachable config :=
    reach.mono fun _ _ quiet _ thrown => by simp [thrown, ThreadAction.throws] at quiet
  have covers : countThreads Pc.covers config.threads = 0 := by
    rw [Program.countThreads_eq_zero]
    intro thread
    rcases sleepers thread with position | ⟨position, -⟩ <;> rw [position] <;> rfl
  have waits : countThreads Pc.waits config.threads ≤ config.shared.queue.condVariable.card := by
    refine Finset.card_le_card fun thread counted => ?_
    rcases sleepers thread with position | ⟨-, blocked⟩
    · have waiting := (Finset.mem_filter.mp counted).2
      simp [position, Pc.waits] at waiting
    · exact blocked
  rcases covered_of_reachable succeeds with nobody | matched
  · simp [nobody] at member
  · have empty : config.shared.queue.queue = [] := List.eq_nil_of_length_eq_zero (by omega)
    rw [Queue.contents, empty]
    rfl

/-! ## The implementation -/

omit [Fintype Tid] in
theorem ThreadCase.history_of_inside {action : ThreadAction Tid Value}
    (step : ThreadCase thread shared action pc shared' pc') (called : action.called = none)
    (call : Call Value) : shared'.history ≠ shared.history ++ [.call thread call] := by
  cases step with
  | call => simp [ThreadAction.called] at called
  | ret | inside => simp

omit [Fintype Tid] in
theorem history_of_call {config after : Config Tid Value} {call : Call Value}
    (step : program.system.Step config (thread, .call call) after) :
    after.shared.history = config.shared.history ++ [.call thread call] := by
  obtain ⟨shared', pc', taken, rfl⟩ := Program.system_step_iff.mp step
  cases position : config.threads thread with
  | idle =>
      simp only [program, position, threadStep, Option.some.injEq, Prod.mk.injEq] at taken
      rw [← taken.1]
  | _ => simp [program, position, threadStep] at taken

omit [Fintype Tid] in
theorem exists_call_step {config : Config Tid Value} (call : Call Value)
    (idle : config.threads thread = .idle) :
    ∃ after, program.system.Step config (thread, .call call) after :=
  ⟨_, Program.system_step_iff.mpr ⟨_, _, by rw [idle]; rfl, rfl⟩⟩

omit [Fintype Tid] in
theorem threadStep_inside_idle (action : Action Tid) :
    threadStep thread (.inside action) shared .idle = none := by
  cases action with
  | run | wakeSpuriously | throw => rfl
  | notifyOne waiter => cases waiter <;> rfl

omit [Fintype Tid] [DecidableEq Tid] in
theorem status_eq_idle {pc : Pc Value} : pc.status = .idle ↔ pc = .idle := by
  cases pc <;> simp [Pc.status]

/-- `SimpleThreadSafeQueue` for the threads that use it. -/
def implementation (Tid Value : Type*) [DecidableEq Tid] [Fintype Tid] :
    Implementation Tid Value (ThreadAction Tid Value) (Shared Tid Value) (Pc Value) where
  program := program
  called := ThreadAction.called
  throws := ThreadAction.throws
  spurious := ThreadAction.spurious
  idle := Pc.idles
  view := view
  rank := rank
  price := 9
  cost := 4
  quiet {action} spurious := by
    cases action with
    | call => simp [ThreadAction.spurious] at spurious
    | inside => rfl
  new {config} initial := by
    obtain ⟨shared, threads⟩ := config
    obtain ⟨rfl, rfl⟩ := initial
    rfl
  idle_iff config thread := by
    rw [view, status_eq_idle]
    cases config.threads thread <;> simp [Pc.idles]
  rests {thread action shared local'} idle called := by
    cases local' with
    | idle =>
        cases action with
        | call => simp [ThreadAction.called] at called
        | inside action => exact threadStep_inside_idle action
    | _ => simp [Pc.idles] at idle
  order {config} reach := ⟨_, view_order reach.of_restrict⟩
  regular {before after thread action} reach noThrow step := by
    obtain ⟨shared', pc', change, rfl⟩ := exists_threadCase reach.of_restrict step
    refine ⟨change.regular (assertion_of_reachable reach.of_restrict).1 rfl ?_, ?_⟩
    · rintro rfl
      simp [ThreadAction.throws] at noThrow
    · exact fun other foreign => by simp [view, foreign]
  begins {before after thread action call} called step := by
    cases action with
    | call operation =>
        obtain rfl : operation = call := Option.some.inj called
        exact history_of_call step
    | inside => simp [ThreadAction.called] at called
  inside {before after thread action} reach called step call := by
    obtain ⟨shared', pc', change, rfl⟩ := exists_threadCase reach.of_restrict step
    exact change.history_of_inside called call
  ready {config thread} call idle := by
    obtain ⟨after, step⟩ := exists_call_step call (status_eq_idle.mp idle)
    exact ⟨.call call, after, rfl, rfl, step⟩
  lowers {before after thread action} reach noThrow step := rank_lowers reach.of_restrict step
  progress {config} reach still thread := by
    refine (onlySleepers_of_still reach.of_restrict ?_ thread).imp status_eq_idle.mpr ?_
    · rintro thread ⟨action, after, noThrow, called, awake, step⟩
      simp [still thread action after noThrow called step] at awake
    · exact fun waiting => view_status config.shared waiting.1

/-! ## What the users get -/

/-- Every history of calls and returns is one of a first-in first-out queue whose value is the
contents of the deque. -/
theorem linearizable {config : Config Tid Value}
    (reach : (program.system.restrict fun _ label _ => label.2.throws = false).Reachable config) :
    ∃ state, (AtomicObject.system Tid (fifo Value)).Reachable state ∧
      state.value = config.shared.queue.contents ∧ state.history = config.shared.history := by
  obtain ⟨state, atomic, matched⟩ := (implementation Tid Value).exists_atomic reach
  exact ⟨state, atomic,
    List.append_cancel_left (matched.order.symm.trans (view_order reach.of_restrict)),
    matched.history⟩

/-- A value is pushed while a consumer sleeps. -/
theorem linearizable_pushed : ∃ config : Config (Fin 2) Nat,
    config.shared.queue.contents = [5] ∧ config.shared.queue.condVariable = {0} ∧
      ∃ state, (AtomicObject.system (Fin 2) (fifo Nat)).Reachable state ∧
        state.value = config.shared.queue.contents ∧ state.history = config.shared.history := by
  have pushed : ∃ config : Config (Fin 2) Nat,
      (program.system.restrict fun _ label _ => label.2.throws = false).Run initial
        ((0, .call .waitAndPop) :: List.replicate 4 (0, .inside .run) ++
          [(1, .call (.push 5)), (1, .inside .run), (1, .inside .run)]) config ∧
        (config.shared.queue.contents = [5] ∧ config.shared.queue.condVariable = {0}) :=
    Program.exists_run_of_execute (by decide)
  obtain ⟨config, run, contents, sleeper⟩ := pushed
  exact ⟨config, contents, sleeper, linearizable (run.reachable initial_reachable)⟩

theorem wakesConsumers : (implementation Tid Value).WakesConsumers := by
  intro config reach quiet still asleep
  have contents := contents_eq_nil reach ?_ ?_
  · have order := view_order reach.of_restrict
    rw [contents, List.append_nil] at order
    exact order
  · rintro thread ⟨action, after, noThrow, called, awake, step⟩
    have wakes : action.spurious = true := still thread action after noThrow called step
    simp [wakes] at awake
  · obtain ⟨thread, busy⟩ := asleep
    exact ⟨thread, mt status_eq_idle.mpr busy⟩

end SimpleQueue
end ConcurrencyCourse
