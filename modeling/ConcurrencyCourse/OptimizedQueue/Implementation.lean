import ConcurrencyCourse.OptimizedQueue.WakeUp
import ConcurrencyCourse.ThreadSafeQueue.Clients

/-!
# The queue with two locks as an implementation

The calls of `optimized_thread_safe_queue` come to their end as those of the simple queue do: every
step but a spurious wake-up lowers a rank, the holder of `tail_mutex` can always go on, and so can
the holder of `head_mutex` once `tail_mutex` is free.  What the two locks do not give is the last
law: a consumer may be left waiting next to a value.
-/

namespace ConcurrencyCourse
namespace OptimizedQueue

open ThreadSafeQueue
open Program (countThreads sumThreads)

variable {Tid Value : Type*}

/-- The call that an action begins. -/
def Action.called : Action Tid Value → Option (Call Value)
  | .call operation => some operation
  | _ => none

/-- An allocation or a move of a value fails. -/
def Action.throws : Action Tid Value → Bool
  | .throw => true
  | _ => false

/-- A wake-up that no push has caused. -/
def Action.spurious : Action Tid Value → Bool
  | .wakeSpuriously => true
  | _ => false

/-- The thread is between two calls. -/
def Pc.idles : Pc Value → Bool
  | .idle => true
  | _ => false

/-- The thread is inside the wait of `data_cond`, woken or not. -/
def Pc.waits : Pc Value → Bool
  | .waiting => true
  | _ => false

/-- A bound for the steps to the end of the call, if no wait is interrupted and nobody else is
woken. -/
def Pc.weight : Pc Value → Nat
  | .idle => 0
  | .pushAllocate _ => 17
  | .pushLock _ _ => 16
  | .pushReadTail _ _ => 15
  | .pushData _ _ _ => 14
  | .pushReadTailAgain _ _ => 13
  | .pushNext _ _ _ => 12
  | .pushTail _ _ => 11
  | .pushUnlock => 10
  | .pushNotify => 9
  | .pushUnwind _ => 3
  | .pushDiscard _ => 2
  | .popLock _ => 16
  | .popReadHead _ => 15
  | .getTailLock _ _ => 14
  | .getTailRead _ _ => 13
  | .getTailUnlock _ _ _ => 12
  | .popCompare _ _ _ => 11
  | .emptyUnlock => 5
  | .waitBlock => 10
  | .waiting => 9
  | .takeHead _ => 10
  | .clearHead _ _ => 9
  | .readNext _ _ => 8
  | .clearNext _ _ _ => 7
  | .setHead _ _ _ => 6
  | .popUnlock _ _ => 5
  | .takeData _ _ => 4
  | .freeNode (some _) _ => 3
  | .freeNode none _ => 2
  | .returning _ => 1

variable {layout : Layout Tid Value} {thread : Tid} {queue queue' : Queue Tid Value}
  {pc pc' : Pc Value}

/-! ## Every step lowers the rank -/

/-- The change of the rank by one step, with the sleepers on both sides. -/
def Lowers (bonus : Nat) (queue : Queue Tid Value) (pc : Pc Value) (queue' : Queue Tid Value)
    (pc' : Pc Value) : Prop :=
  pc'.weight + 7 * pc'.waits.toNat + 7 * queue.dataCond.card + 1 ≤
    pc.weight + 7 * pc.waits.toNat + 7 * queue'.dataCond.card + bonus

theorem Lowers.of_same {bonus : Nat} (sleepers : queue'.dataCond = queue.dataCond)
    (less : pc'.weight + 7 * pc'.waits.toNat < pc.weight + 7 * pc.waits.toNat) :
    Lowers bonus queue pc queue' pc' := by
  rw [Lowers, sleepers]
  omega

theorem PushCase.lowers {bonus : Nat} (step : PushCase thread queue pc queue' pc') :
    Lowers bonus queue pc queue' pc' := by
  cases step with
  | lock | readTail | writeData | readTailAgain | writeNext | moveTail | unlock | unwind
  | discard => exact .of_same rfl (by simp [Pc.weight, Pc.waits])

theorem CompareCase.lowers {bonus : Nat} (step : CompareCase thread queue pc queue' pc') :
    Lowers bonus queue pc queue' pc' := by
  cases step with
  | lock | readHead | lockTail | readTail | unlockTail | equalTry | equalWait | different
  | unlock => exact .of_same rfl (by simp [Pc.weight, Pc.waits])

theorem PopCase.lowers {bonus : Nat} (step : PopCase queue pc queue' pc') :
    Lowers bonus queue pc queue' pc' := by
  cases step with
  | takeHead | clearHead | readNext | clearNext | setHead | unlock | takeNothing | takeData | free
  | freed => exact .of_same rfl (by simp [Pc.weight, Pc.waits])

variable [DecidableEq Tid]

theorem StepCase.lowers {action : Action Tid Value}
    (step : StepCase thread queue action pc queue' pc')
    (awake : pc = .waitBlock → thread ∉ queue.dataCond) :
    Lowers (18 * action.called.isSome.toNat + 8 * action.spurious.toNat) queue pc queue' pc' := by
  cases step with
  | call call =>
      rw [Lowers]
      cases call with
      | push | tryPop | waitAndPop =>
          simp only [entry, Pc.weight, Pc.waits, Action.called, Option.isSome_some,
            Bool.toNat_false, Bool.toNat_true]
          omega
  | notify member =>
      have card := Finset.card_erase_add_one member
      simp only [Lowers, Pc.weight, Pc.waits, Bool.toNat_false]
      omega
  | block =>
      have card := Finset.card_insert_of_notMem (awake rfl)
      simp only [Lowers, Pc.weight, Pc.waits, Bool.toNat_false, Bool.toNat_true]
      omega
  | wake member =>
      have card := Finset.card_erase_add_one member
      simp only [Lowers, Pc.weight, Pc.waits, Action.spurious, Bool.toNat_true]
      omega
  | push taken => exact taken.lowers
  | compare taken => exact taken.lowers
  | pop taken => exact taken.lowers
  | allocate | notifyNobody | relock | ret | throwAllocate | throwData | throwTake =>
      exact .of_same rfl (by simp [Pc.weight, Pc.waits])

theorem exists_stepCase {before after : Config Tid Value} {action : Action Tid Value}
    (reach : program.system.Reachable before)
    (step : program.system.Step before (thread, action) after) :
    ∃ layout queue' pc', Shape layout before.shared ∧
      Assertion layout thread before.shared (before.threads thread) ∧
      StepCase thread before.shared action (before.threads thread) queue' pc' ∧
      after = ⟨queue', Function.update before.threads thread pc'⟩ := by
  obtain ⟨queue', pc', taken, rfl⟩ := Program.system_step_iff.mp step
  obtain ⟨layout, shape, asserted⟩ := exists_layout reach
  exact ⟨layout, queue', pc', shape, asserted thread,
    (asserted thread).threadStep_cases shape taken, rfl⟩

variable [Fintype Tid]

/-- Number of consumers that have been woken from the wait and have not reacquired
`head_mutex`. -/
def woken (config : Config Tid Value) : Nat :=
  countThreads Pc.waits config.threads - config.shared.dataCond.card

/-- The weights of all threads; whoever has been woken compares once more. -/
def rank (config : Config Tid Value) : Nat :=
  sumThreads Pc.weight config.threads + 7 * woken config

theorem card_dataCond_le_waits {config : Config Tid Value}
    (reach : program.system.Reachable config) :
    config.shared.dataCond.card ≤ countThreads Pc.waits config.threads := by
  obtain ⟨layout, -, asserted⟩ := exists_layout reach
  refine Finset.card_le_card fun thread member => Finset.mem_filter.mpr ⟨Finset.mem_univ _, ?_⟩
  rw [(asserted thread).blocked member]
  rfl

theorem rank_lowers {before after : Config Tid Value} {action : Action Tid Value}
    (reach : program.system.Reachable before)
    (step : program.system.Step before (thread, action) after) :
    rank after + 1 ≤ rank before + 18 * action.called.isSome.toNat +
      8 * action.spurious.toNat := by
  have fewer' := card_dataCond_le_waits (reach.step step)
  have fewer := card_dataCond_le_waits reach
  obtain ⟨layout, queue', pc', shape, asserted, change, rfl⟩ := exists_stepCase reach step
  have lower := change.lowers fun position member => by
    have waiting := asserted.blocked member
    simp [position] at waiting
  have weights := Program.sumThreads_update Pc.weight before.threads thread pc'
  have waits := Program.countThreads_update Pc.waits before.threads thread pc'
  simp only [Lowers] at lower
  simp only [rank, woken]
  dsimp only at fewer'
  omega

/-! ## Who can go on -/

section Advance

omit [Fintype Tid]

omit [DecidableEq Tid] in
/-- A step changes the heap at one address at most. -/
theorem StepCase.heap_cases [DecidableEq Tid] {action : Action Tid Value}
    (step : StepCase thread queue action pc queue' pc') : queue'.heap = queue.heap ∨
      ∃ address node, queue'.heap = Function.update queue.heap address node := by
  cases step with
  | allocate => exact Or.inr ⟨_, _, rfl⟩
  | push taken =>
      cases taken with
      | writeData | writeNext | discard => exact Or.inr ⟨_, _, rfl⟩
      | lock | readTail | readTailAgain | moveTail | unlock | unwind => exact Or.inl rfl
  | compare taken => cases taken <;> exact Or.inl rfl
  | pop taken =>
      cases taken with
      | clearNext | free => exact Or.inr ⟨_, _, rfl⟩
      | takeHead | clearHead | readNext | setHead | unlock | takeNothing | takeData | freed =>
          exact Or.inl rfl
  | call | notifyNobody | notify | block | wake | relock | ret | throwAllocate | throwData
  | throwTake => exact Or.inl rfl

/-- Only finitely many nodes are alive, so an allocation always finds an address. -/
theorem exists_free_from {config : Config Tid Value} (reach : program.system.Reachable config) :
    ∃ bound : Nat, ∀ address : Nat, bound ≤ address → config.shared.heap address = none := by
  refine reach.invariant (motive := fun config =>
    ∃ bound : Nat, ∀ address : Nat, bound ≤ address → config.shared.heap address = none) ?_ ?_
  · rintro ⟨queue, threads⟩ ⟨rfl, -⟩
    refine ⟨1, fun address positive => ?_⟩
    have other : address ≠ 0 := Nat.ne_of_gt positive
    simp [initial, other]
  · rintro before ⟨thread, action⟩ after earlier ⟨bound, free⟩ step
    obtain ⟨-, queue', pc', -, -, change, rfl⟩ := exists_stepCase earlier step
    rcases change.heap_cases with same | ⟨address, node, stored⟩
    · exact ⟨bound, fun other larger => by rw [same, free other larger]⟩
    · refine ⟨max bound (address + 1), fun other larger => ?_⟩
      obtain ⟨above, beyond⟩ := max_le_iff.mp larger
      rw [stored, Function.update_of_ne (Nat.ne_of_gt beyond), free other above]

/-- A step of a call that is no spurious wake-up, and in which nothing throws. -/
def Advances (config : Config Tid Value) (thread : Tid) : Prop :=
  ∃ action after, action.throws = false ∧ action.called = none ∧ action.spurious = false ∧
    program.system.Step config (thread, action) after

theorem advances_of_isSome {config : Config Tid Value} (action : Action Tid Value)
    (throws : action.throws = false) (called : action.called = none)
    (spurious : action.spurious = false)
    (enabled : (threadStep thread action config.shared (config.threads thread)).isSome = true) :
    Advances config thread := by
  obtain ⟨⟨queue, pc⟩, step⟩ := Option.isSome_iff_exists.mp enabled
  exact ⟨action, _, throws, called, spurious,
    Program.system_step_iff.mpr ⟨queue, pc, step, rfl⟩⟩

/-- The positions at which a thread waits for something. -/
def Pc.mayBlock : Pc Value → Bool
  | .idle | .pushAllocate _ | .pushLock _ _ | .pushNotify | .popLock _ | .getTailLock _ _
  | .waiting => true
  | _ => false

theorem advances_of_not_mayBlock {config : Config Tid Value}
    (free : (config.threads thread).mayBlock = false) : Advances config thread := by
  refine advances_of_isSome .run rfl rfl rfl ?_
  cases position : config.threads thread with
  | idle | pushAllocate | pushLock | pushNotify | popLock | getTailLock | waiting =>
      simp [position, Pc.mayBlock] at free
  | pushData | pushNext | readNext | clearNext =>
      simp only [threadStep, pushStep, compareStep, popStep, Option.or_none, Option.none_or]
      split <;> rfl
  | popCompare kind =>
      simp only [threadStep, pushStep, compareStep, popStep, Option.or_none, Option.none_or]
      split
      · cases kind <;> rfl
      · rfl
  | takeData kind oldHead =>
      simp only [threadStep, pushStep, compareStep, Option.none_or]
      cases oldHead with
      | none => cases kind <;> rfl
      | some address =>
          cases kind <;>
            · simp only [popStep]
              split <;> rfl
  | freeNode oldHead =>
      cases oldHead with
      | none => rfl
      | some address =>
          simp only [threadStep, pushStep, compareStep, popStep, Option.none_or]
          split <;> rfl
  | _ => rfl

/-- While nobody can go on, `tail_mutex` is free. -/
theorem tailFree_of_still {config : Config Tid Value} (reach : program.system.Reachable config)
    (still : ∀ thread, ¬ Advances config thread) : config.shared.tailMutex = none := by
  obtain ⟨layout, -, asserted⟩ := exists_layout reach
  rw [Option.eq_none_iff_forall_ne_some]
  intro holder held
  have holds := (asserted holder).tailHeld.mp held
  refine still holder (advances_of_not_mayBlock ?_)
  cases position : config.threads holder with
  | idle | pushAllocate | pushLock | pushNotify | popLock | getTailLock | waiting =>
      simp [position, Pc.holdsTail] at holds
  | _ => rfl

theorem headFree_of_still {config : Config Tid Value} (reach : program.system.Reachable config)
    (still : ∀ thread, ¬ Advances config thread) : config.shared.headMutex = none := by
  obtain ⟨layout, -, asserted⟩ := exists_layout reach
  have free := tailFree_of_still reach still
  rw [Option.eq_none_iff_forall_ne_some]
  intro holder held
  have holds := (asserted holder).headHeld.mp held
  refine still holder ?_
  cases position : config.threads holder with
  | idle | pushAllocate | pushLock | pushNotify | popLock | waiting =>
      simp [position, Pc.holdsHead] at holds
  | getTailLock =>
      refine advances_of_isSome .run rfl rfl rfl ?_
      simp [position, threadStep, pushStep, compareStep, free]
  | _ => exact advances_of_not_mayBlock (by rw [position]; rfl)

/-- When nobody can go on, only sleepers are left. -/
theorem onlySleepers_of_still {config : Config Tid Value}
    (reach : program.system.Reachable config) (still : ∀ thread, ¬ Advances config thread) :
    OnlySleepers config := by
  intro thread
  have tail := tailFree_of_still reach still
  have head := headFree_of_still reach still
  have stays := mt (advances_of_isSome .run rfl rfl rfl) (still thread)
  cases position : config.threads thread with
  | idle => exact Or.inl rfl
  | waiting =>
      refine Or.inr ⟨rfl, ?_⟩
      by_contra awake
      simp [position, threadStep, awake, head] at stays
  | pushAllocate value =>
      obtain ⟨bound, free⟩ := exists_free_from reach
      refine absurd (advances_of_isSome (.allocate bound) rfl rfl rfl ?_) (still thread)
      simp [position, threadStep, free bound le_rfl]
  | pushNotify =>
      refine absurd ?_ (still thread)
      rcases config.shared.dataCond.eq_empty_or_nonempty with nobody | ⟨waiter, member⟩
      · exact advances_of_isSome (.notifyOne none) rfl rfl rfl
          (by simp [position, threadStep, nobody])
      · exact advances_of_isSome (.notifyOne (some waiter)) rfl rfl rfl
          (by simp [position, threadStep, member])
  | pushLock | getTailLock | popLock =>
      simp [position, threadStep, pushStep, compareStep, popStep, tail, head] at stays
  | _ => exact absurd (advances_of_not_mayBlock (by rw [position]; rfl)) (still thread)

end Advance

/-! ## The implementation -/

section Laws

omit [Fintype Tid]

theorem StepCase.history_of_inside {action : Action Tid Value}
    (step : StepCase thread queue action pc queue' pc') (called : action.called = none)
    (call : Call Value) : queue'.history ≠ queue.history ++ [.call thread call] := by
  cases step with
  | call => simp [Action.called] at called
  | push taken => cases taken <;> simp [Queue.store]
  | compare taken => cases taken <;> simp
  | pop taken => cases taken <;> simp [Queue.store]
  | allocate => simp [Queue.store]
  | notifyNobody | notify | block | wake | relock | ret | throwAllocate | throwData
  | throwTake => simp

theorem history_of_call {config after : Config Tid Value} {call : Call Value}
    (step : program.system.Step config (thread, .call call) after) :
    after.shared.history = config.shared.history ++ [.call thread call] := by
  obtain ⟨queue', pc', taken, rfl⟩ := Program.system_step_iff.mp step
  cases position : config.threads thread with
  | idle =>
      simp only [program, position, threadStep, Option.some.injEq, Prod.mk.injEq] at taken
      rw [← taken.1]
  | _ => simp [program, position, threadStep] at taken

theorem exists_call_step {config : Config Tid Value} (call : Call Value)
    (idle : config.threads thread = .idle) :
    ∃ after, program.system.Step config (thread, .call call) after :=
  ⟨_, Program.system_step_iff.mpr ⟨_, _, by rw [idle]; rfl, rfl⟩⟩

theorem threadStep_idle {action : Action Tid Value} (called : action.called = none) :
    threadStep thread action queue .idle = none := by
  cases action with
  | call => simp [Action.called] at called
  | run | allocate | wakeSpuriously | throw => rfl
  | notifyOne waiter => cases waiter <;> rfl

omit [DecidableEq Tid] in
theorem status_eq_idle : pc.status queue = .idle ↔ pc = .idle := by
  cases pc with
  | getTailUnlock kind head tail | popCompare kind head tail =>
      cases kind with
      | tryPop => by_cases empty : head = some tail <;> simp [Pc.status, empty]
      | waitAndPop => simp [Pc.status]
  | _ => simp [Pc.status]

theorem exists_order {config : Config Tid Value} (reach : program.system.Reachable config) :
    ∃ stored, (view config).pushed = (view config).removed ++ stored := by
  obtain ⟨layout, shape, -⟩ := exists_layout reach
  exact ⟨_, shape.order⟩

theorem regular_of_step {before after : Config Tid Value} {action : Action Tid Value}
    (reach : program.system.Reachable before) (noThrow : action ≠ .throw)
    (step : program.system.Step before (thread, action) after) :
    Regular thread (view before) (view after) ∧
      ∀ other, other ≠ thread → (view after).status other = (view before).status other := by
  obtain ⟨queue', pc', taken, rfl⟩ := Program.system_step_iff.mp step
  obtain ⟨layout, shape, asserted⟩ := exists_layout reach
  obtain ⟨layout', -, -, relies⟩ := (asserted thread).preserved shape taken
  refine ⟨(asserted thread).regular shape rfl ((asserted thread).threadStep_cases shape taken)
    noThrow, fun other foreign => ?_⟩
  simpa [view, foreign] using (asserted other).status_of_rely (relies other foreign)

end Laws

/-- `optimized_thread_safe_queue` for the threads that use it. -/
def implementation (Tid Value : Type*) [DecidableEq Tid] [Fintype Tid] :
    Implementation Tid Value (Action Tid Value) (Queue Tid Value) (Pc Value) where
  program := program
  called := Action.called
  throws := Action.throws
  spurious := Action.spurious
  idle := Pc.idles
  view := view
  rank := rank
  price := 18
  cost := 8
  quiet {action} spurious := by
    cases action with
    | wakeSpuriously => rfl
    | _ => simp [Action.spurious] at spurious
  new {config} initial := by
    obtain ⟨queue, threads⟩ := config
    obtain ⟨rfl, rfl⟩ := initial
    rfl
  idle_iff config thread := by
    rw [view, status_eq_idle]
    cases config.threads thread <;> simp [Pc.idles]
  rests {thread action shared local'} idle called := by
    cases local' with
    | idle => exact threadStep_idle called
    | _ => simp [Pc.idles] at idle
  order {config} reach := exists_order reach.of_restrict
  regular {before after thread action} reach noThrow step := by
    refine regular_of_step reach.of_restrict ?_ step
    rintro rfl
    simp [Action.throws] at noThrow
  begins {before after thread action call} called step := by
    cases action with
    | call operation =>
        obtain rfl : operation = call := Option.some.inj called
        exact history_of_call step
    | _ => simp [Action.called] at called
  inside {before after thread action} reach called step call := by
    obtain ⟨-, queue', pc', -, -, change, rfl⟩ := exists_stepCase reach.of_restrict step
    exact change.history_of_inside called call
  ready {config thread} call idle := by
    obtain ⟨after, step⟩ := exists_call_step call (status_eq_idle.mp idle)
    exact ⟨.call call, after, rfl, rfl, step⟩
  lowers {before after thread action} reach noThrow step := rank_lowers reach.of_restrict step
  progress {config} reach still thread := by
    refine (onlySleepers_of_still reach.of_restrict ?_ thread).imp status_eq_idle.mpr ?_
    · rintro thread ⟨action, after, noThrow, called, awake, step⟩
      simp [still thread action after noThrow called step] at awake
    · exact fun waiting => view_status config.shared waiting.1

/-! ## What the users get -/

/-- Every thread receives values in the order in which they were pushed, and the values of every
thread are pushed in the order of its calls. -/
theorem received_in_order [DecidableEq Value] {script : Tid → List (Call Value)}
    {client : Program.Config Tid (Queue Tid Value) (List (Call Value) × Pc Value)}
    (reach : ((implementation Tid Value).clientSystem script).Reachable client) :
    (∀ consumer, (receivedBy consumer client.shared.history).Sublist client.shared.pushed) ∧
      ∀ producer, ∃ made later, script producer = made ++ later ∧
        (made.filterMap Call.pushedValue).Sublist client.shared.pushed ∧
        ((client.threads producer).2 = .idle → later = client.todo producer) := by
  have ledger := Implementation.ledger_of_reachable reach
  obtain ⟨stored, order⟩ := exists_order (Implementation.reachable_base reach).of_restrict
  constructor
  · intro consumer
    have obtained := ledger.order consumer
    have removed : (view client.base).removed.Sublist (view client.base).pushed := by
      rw [order]
      exact List.sublist_append_left _ _
    exact (List.sublist_append_left _ _).trans (obtained.trans removed)
  · intro producer
    obtain ⟨made, split, sub⟩ := ledger.made producer
    refine ⟨made, _, split, sub, fun idle => ?_⟩
    have status : ((implementation Tid Value).view client.base).status producer = .idle :=
      status_eq_idle.mpr idle
    rw [View.callsLeft, status]
    rfl

/-- A producer of two values, and a consumer. -/
def twoUsers : Fin 2 → List (Call Nat)
  | 0 => [.push 5, .push 6]
  | 1 => [.waitAndPop]

/-- Both values are pushed and the first one is received. -/
theorem received_in_order_two :
    ∃ client : Program.Config (Fin 2) (Queue (Fin 2) Nat) (List (Call Nat) × Pc Nat),
      receivedBy 1 client.shared.history = [5] ∧ client.shared.pushed = [5, 6] ∧
        (receivedBy 1 client.shared.history).Sublist client.shared.pushed := by
  have start : ((implementation (Fin 2) Nat).clientSystem twoUsers).Initial
      ⟨initial.shared, fun thread => (twoUsers thread, .idle)⟩ := ⟨⟨rfl, rfl⟩, fun _ => rfl⟩
  have received : ∃ client,
      ((implementation (Fin 2) Nat).clientSystem twoUsers).Run
        ⟨initial.shared, fun thread => (twoUsers thread, .idle)⟩
        ([(0, .call (.push 5)), (0, .allocate 1)] ++ List.replicate 7 (0, .run) ++
          [(0, .notifyOne none), (0, .run), (0, .call (.push 6)), (0, .allocate 2)] ++
          List.replicate 7 (0, .run) ++ (1, .call .waitAndPop) :: List.replicate 16 (1, .run))
        client ∧ (receivedBy 1 client.shared.history = [5] ∧ client.shared.pushed = [5, 6]) :=
    Program.exists_run_of_execute (by decide)
  obtain ⟨client, run, values, pushed⟩ := received
  exact ⟨client, values, pushed, (received_in_order (run.reachable (.initial start))).1 1⟩

end OptimizedQueue
end ConcurrencyCourse
