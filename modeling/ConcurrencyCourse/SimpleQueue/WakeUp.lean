import ConcurrencyCourse.SimpleQueue.Program

/-!
# No wake-up of wait_and_pop is lost

`push` notifies under the mutex that the wait releases, and a consumer blocks only after it has
found the deque empty under the same mutex.  While somebody sleeps, every stored element is matched
by a push that is about to notify, or by a consumer that has been woken and has not popped yet.
-/

namespace ConcurrencyCourse
namespace SimpleQueue

open ThreadSafeQueue
open Program (countThreads)

variable {Tid Value : Type*}

/-- A push that has still to notify, or a consumer under the mutex that has not popped yet. -/
def Pc.covers : Pc Value → Bool
  | .pushNotify | .waitTest | .waitMove | .waitPopFront _ => true
  | _ => false

/-- A consumer inside the wait, woken or not. -/
def Pc.waits : Pc Value → Bool
  | .waiting => true
  | _ => false

/-- The move out of the front element in `wait_and_pop` does not throw. -/
def WaitMoveSucceeds (before : Config Tid Value) (label : Tid × ThreadAction Tid Value)
    (_ : Config Tid Value) : Prop :=
  before.threads label.1 = .waitMove → label.2 ≠ .inside .throw

instance [DecidableEq Tid] [DecidableEq Value] (before after : Config Tid Value)
    (label : Tid × ThreadAction Tid Value) : Decidable (WaitMoveSucceeds before label after) :=
  inferInstanceAs (Decidable (_ → _))

/-- What a step does to the stored elements, the sleepers and those who cover them. -/
inductive WakeStep (queue : Queue Tid Value) (pc : Pc Value) (queue' : Queue Tid Value)
    (pc' : Pc Value) : Prop
  | empty : queue'.queue = [] → WakeStep queue pc queue' pc'
  | awake : queue'.condVariable = ∅ → WakeStep queue pc queue' pc'
  | balanced : queue'.queue.length + queue'.condVariable.card + pc.covers.toNat +
        pc.waits.toNat ≤
      queue.queue.length + queue.condVariable.card + pc'.covers.toNat + pc'.waits.toNat →
      queue'.condVariable ⊆ queue.condVariable → WakeStep queue pc queue' pc'

theorem WakeStep.of_same {queue queue' : Queue Tid Value} {pc pc' : Pc Value}
    (elements : queue'.queue = queue.queue) (sleepers : queue'.condVariable = queue.condVariable)
    (covers : pc.covers = true → pc'.covers = true) (waits : pc'.waits = pc.waits) :
    WakeStep queue pc queue' pc' := by
  refine .balanced ?_ sleepers.subset
  have kept : pc.covers.toNat ≤ pc'.covers.toNat := Bool.toNat_le_toNat covers
  rw [elements, sleepers, waits]
  omega

variable [DecidableEq Tid] {thread : Tid} {shared shared' : Shared Tid Value}
  {queue queue' : Queue Tid Value} {pc pc' : Pc Value}

theorem PushCase.wakeStep {action : Action Tid}
    (step : PushCase thread queue action pc queue' pc') : WakeStep queue pc queue' pc' := by
  cases step with
  | emplace newValue =>
      refine .balanced ?_ subset_rfl
      simp only [List.length_append, List.length_singleton, Pc.covers, Pc.waits, Bool.toNat_true,
        Bool.toNat_false]
      omega
  | notifyNobody nobody => exact .awake nobody
  | notify member =>
      have card := Finset.card_erase_add_one member
      refine .balanced ?_ (Finset.erase_subset _ _)
      simp only [Pc.covers, Pc.waits, Bool.toNat_true, Bool.toNat_false]
      omega
  | lock | throwEmplace | unlock | unwind => exact .of_same rfl rfl nofun rfl

omit [DecidableEq Tid] in
theorem TryCase.wakeStep {action : Action Tid}
    (step : TryCase thread queue action pc queue' pc') : WakeStep queue pc queue' pc' := by
  cases step with
  | move front =>
      refine .balanced ?_ subset_rfl
      simp [front, Pc.covers, Pc.waits]
  | popFront val front =>
      refine .balanced ?_ subset_rfl
      simp only [front, List.length_cons, Pc.covers, Pc.waits, Bool.toNat_false]
      omega
  | lock | empty | nonempty | throwMove | unlock => exact .of_same rfl rfl nofun rfl

theorem WaitCase.wakeStep {action : Action Tid}
    (step : WaitCase thread queue action pc queue' pc')
    (empty : pc = .waitBlock → queue.queue = [])
    (succeeds : pc = .waitMove → action ≠ .throw) : WakeStep queue pc queue' pc' := by
  cases step with
  | testEmpty none => exact .empty none
  | block => exact .empty (empty rfl)
  | wake member =>
      have card := Finset.card_erase_add_one member
      refine .balanced ?_ (Finset.erase_subset _ _)
      dsimp only
      omega
  | relock =>
      refine .balanced ?_ subset_rfl
      simp [Pc.covers, Pc.waits]
  | move front =>
      refine .balanced ?_ subset_rfl
      simp [front, Pc.covers, Pc.waits]
  | throwMove => exact absurd rfl (succeeds rfl)
  | popFront value front =>
      refine .balanced ?_ subset_rfl
      simp only [front, List.length_cons, Pc.covers, Pc.waits, Bool.toNat_true, Bool.toNat_false]
      omega
  | lock | empty | nonempty | finish | throwReturn | unlock => exact .of_same rfl rfl nofun rfl
  | testNonempty => exact .of_same rfl rfl id rfl

theorem ThreadCase.wakeStep {action : ThreadAction Tid Value}
    (step : ThreadCase thread shared action pc shared' pc')
    (empty : pc = .waitBlock → shared.queue.queue = [])
    (succeeds : pc = .waitMove → action ≠ .inside .throw) :
    WakeStep shared.queue pc shared'.queue pc' := by
  cases step with
  | call call =>
      cases call with
      | push | tryPop | waitAndPop => exact .of_same rfl rfl nofun rfl
  | ret => exact .of_same rfl rfl nofun rfl
  | inside taken =>
      cases taken with
      | push taken => exact taken.wakeStep
      | tryPop taken => exact taken.wakeStep
      | waitAndPop taken =>
          exact taken.wakeStep empty fun position thrown => succeeds position (by rw [thrown])

theorem ThreadCase.empty_of_waitBlock {action : ThreadAction Tid Value}
    (step : ThreadCase thread shared action pc shared' pc') (blocks : pc' = .waitBlock) :
    shared'.queue.queue = [] := by
  cases step with
  | call call => cases call <;> simp [entry] at blocks
  | ret => simp at blocks
  | inside taken =>
      subst blocks
      cases taken with
      | push taken => cases taken
      | tryPop taken => cases taken
      | waitAndPop taken =>
          cases taken with
          | testEmpty none => exact none

/-- A consumer that is about to block has found the deque empty. -/
theorem empty_of_waitBlock {config : Config Tid Value} (reach : program.system.Reachable config)
    (blocks : config.threads thread = .waitBlock) : config.shared.queue.queue = [] := by
  revert thread
  refine reach.invariant (motive := fun config => ∀ {thread},
    config.threads thread = .waitBlock → config.shared.queue.queue = []) ?_ ?_
  · rintro config ⟨-, threads⟩ thread blocks
    simp [threads, initial] at blocks
  · rintro before ⟨mover, action⟩ after earlier empty step thread blocks
    obtain ⟨shape, asserted⟩ := assertion_of_reachable earlier
    obtain ⟨shared', pc', change, rfl⟩ := exists_threadCase earlier step
    by_cases same : thread = mover
    · subst same
      exact change.empty_of_waitBlock (by simpa using blocks)
    · -- the thread about to block holds the mutex, so nobody else changes the deque
      have blocks' : before.threads thread = .waitBlock := by simpa [same] using blocks
      obtain ⟨-, -, others⟩ := (asserted mover).preserved_threadCase shape change
      have held := (asserted thread).held.mpr (by rw [blocks']; rfl)
      exact ((others thread same).queue held).trans (empty blocks')

variable [Fintype Tid]

/-- Nobody sleeps, or every element is covered. -/
def Covered (config : Config Tid Value) : Prop :=
  config.shared.queue.condVariable = ∅ ∨
    config.shared.queue.queue.length + config.shared.queue.condVariable.card ≤
      countThreads Pc.covers config.threads + countThreads Pc.waits config.threads

theorem card_condVariable_le {config : Config Tid Value}
    (reach : program.system.Reachable config) :
    config.shared.queue.condVariable.card ≤ countThreads Pc.waits config.threads := by
  obtain ⟨-, asserted⟩ := assertion_of_reachable reach
  apply Finset.card_le_card
  intro thread member
  refine Finset.mem_filter.mpr ⟨Finset.mem_univ _, ?_⟩
  rw [(asserted thread).blocked member]
  rfl

theorem Covered.step {before after : Config Tid Value} {label : Tid × ThreadAction Tid Value}
    (reach : program.system.Reachable before) (covered : Covered before)
    (step : program.system.Step before label after)
    (succeeds : WaitMoveSucceeds before label after) : Covered after := by
  have card := card_condVariable_le (reach.step step)
  obtain ⟨thread, action⟩ := label
  obtain ⟨shared', pc', change, rfl⟩ := exists_threadCase reach step
  cases change.wakeStep (empty_of_waitBlock reach) succeeds with
  | awake nobody => exact Or.inl nobody
  | empty none =>
      refine Or.inr ?_
      dsimp only at card ⊢
      rw [none, List.length_nil]
      omega
  | balanced bound fewer =>
      have covers := Program.countThreads_update Pc.covers before.threads thread pc'
      have waits := Program.countThreads_update Pc.waits before.threads thread pc'
      rcases covered with nobody | matched
      · rw [nobody, Finset.subset_empty] at fewer
        exact Or.inl fewer
      · refine Or.inr ?_
        dsimp only
        omega

theorem covered_of_reachable {config : Config Tid Value}
    (reach : (program.system.restrict WaitMoveSucceeds).Reachable config) : Covered config := by
  refine reach.invariant (motive := Covered) ?_ ?_
  · rintro ⟨shared, threads⟩ ⟨rfl, rfl⟩
    exact Or.inl rfl
  · rintro before label after earlier covered ⟨step, succeeds⟩
    exact covered.step earlier.of_restrict step succeeds

/-- Number of consumers that have been woken from the wait and have not reacquired `m_mutex`. -/
def woken (config : Config Tid Value) : Nat :=
  (Finset.univ.filter fun thread => (config.threads thread).waits = true ∧
    thread ∉ config.shared.queue.condVariable).card

theorem waits_eq_woken_add {config : Config Tid Value}
    (reach : program.system.Reachable config) :
    countThreads Pc.waits config.threads =
      woken config + config.shared.queue.condVariable.card := by
  obtain ⟨-, asserted⟩ := assertion_of_reachable reach
  have sleepers : config.shared.queue.condVariable ⊆
      Finset.univ.filter fun thread => (config.threads thread).waits = true := by
    intro thread member
    refine Finset.mem_filter.mpr ⟨Finset.mem_univ _, ?_⟩
    rw [(asserted thread).blocked member]
    rfl
  rw [Program.countThreads, ← Finset.card_sdiff_add_card_eq_card sleepers, woken]
  congr 2
  ext thread
  simp

/-- Every call still in progress is a `wait_and_pop` that is blocked and not notified. -/
def OnlySleepers (config : Config Tid Value) : Prop :=
  ∀ thread, config.threads thread = .idle ∨
    config.threads thread = .waiting ∧ thread ∈ config.shared.queue.condVariable

/-- While the mutex is free and a consumer sleeps, there are at most as many elements as woken
consumers on their way; when only sleepers are left, the deque is empty. -/
theorem length_le_woken {config : Config Tid Value}
    (reach : (program.system.restrict WaitMoveSucceeds).Reachable config)
    (sleeping : config.shared.queue.condVariable.Nonempty) :
    (config.shared.queue.mutex = none → config.shared.queue.queue.length ≤ woken config) ∧
      (OnlySleepers config → config.shared.queue.queue = []) := by
  have bound (free : config.shared.queue.mutex = none) :
      config.shared.queue.queue.length ≤ woken config := by
    obtain ⟨-, asserted⟩ := assertion_of_reachable reach.of_restrict
    have covers : countThreads Pc.covers config.threads = 0 := by
      rw [Program.countThreads_eq_zero]
      intro thread
      have unheld : (config.threads thread).holds = false := by
        simpa [free] using (asserted thread).held
      cases position : config.threads thread with
      | pushNotify | waitTest | waitMove | waitPopFront => simp [position, Pc.holds] at unheld
      | _ => rfl
    have waits := waits_eq_woken_add reach.of_restrict
    rcases covered_of_reachable reach with nobody | matched
    · exact absurd nobody sleeping.ne_empty
    · omega
  refine ⟨bound, fun quiet => ?_⟩
  obtain ⟨-, asserted⟩ := assertion_of_reachable reach.of_restrict
  have free : config.shared.queue.mutex = none := by
    rw [Option.eq_none_iff_forall_not_mem]
    intro holder held
    have holds := (asserted holder).held.mp held
    rcases quiet holder with position | ⟨position, -⟩ <;> simp [position, Pc.holds] at holds
  have nobody : woken config = 0 := by
    rw [woken, Finset.card_eq_zero, Finset.filter_eq_empty_iff]
    rintro thread - ⟨waits, awake⟩
    rcases quiet thread with position | ⟨-, member⟩
    · simp [position, Pc.waits] at waits
    · exact awake member
  exact List.eq_nil_of_length_eq_zero (Nat.le_zero.mp (nobody ▸ bound free))

/-- Of two sleeping consumers the push wakes one; its element waits for the woken one. -/
theorem length_le_woken_notified : ∃ config : Config (Fin 3) Nat,
    (config.shared.queue.mutex = none ∧ config.shared.queue.condVariable = {0} ∧
      config.shared.queue.queue = [some 5]) ∧
      config.shared.queue.queue.length ≤ woken config := by
  have notified : ∃ config : Config (Fin 3) Nat,
      (program.system.restrict WaitMoveSucceeds).Run initial
        ((0, .call .waitAndPop) :: List.replicate 4 (0, .inside .run) ++
          (1, .call .waitAndPop) :: List.replicate 4 (1, .inside .run) ++
          [(2, .call (.push 5)), (2, .inside .run), (2, .inside .run),
            (2, .inside (.notifyOne (some 1))), (2, .inside .run)]) config ∧
        (config.shared.queue.mutex = none ∧ config.shared.queue.condVariable = {0} ∧
          config.shared.queue.queue = [some 5]) :=
    Program.exists_run_of_execute (by decide)
  obtain ⟨config, run, free, sleeper, stored⟩ := notified
  have sleeping : config.shared.queue.condVariable.Nonempty := by
    rw [sleeper]
    exact Finset.singleton_nonempty 0
  exact ⟨config, ⟨free, sleeper, stored⟩,
    (length_le_woken (run.reachable initial_reachable) sleeping).1 free⟩

end SimpleQueue
end ConcurrencyCourse
