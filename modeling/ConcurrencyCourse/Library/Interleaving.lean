import ConcurrencyCourse.Library.TransitionSystem
import Mathlib.Data.Fintype.Card
import Mathlib.Algebra.BigOperators.Ring.Finset
import Mathlib.Algebra.Order.BigOperators.Group.Finset

/-!
# Interleaved threads over shared memory

A program gives the atomic steps of one thread: a function of the shared state and of the
thread's own local state.  A configuration holds the shared state and the local state of every
thread, and a step of the system is an atomic step of any one thread.  The main rule is the
Owicki–Gries argument with an auxiliary value: a step must keep the shared assertion, its own
thread's assertion, and the assertion of every other thread.
-/

/-- Atomic steps of the threads of a program. -/
structure Program (Tid Action Shared Local : Type*) where
  /-- Shared and local states in which the program may start. -/
  Initial : Shared → (Tid → Local) → Prop
  /-- One atomic step of a thread; `none` when the action is not enabled. -/
  step : Tid → Action → Shared → Local → Option (Shared × Local)

namespace Program

/-- The shared state together with the local state of every thread. -/
structure Config (Tid Shared Local : Type*) where
  /-- State that every thread can access. -/
  shared : Shared
  /-- Local state of each thread. -/
  threads : Tid → Local

variable {Tid Action Shared Local : Type*} [DecidableEq Tid]
variable {program : Program Tid Action Shared Local}

/-- Let one thread take one atomic step. -/
def next (program : Program Tid Action Shared Local) (label : Tid × Action)
    (config : Config Tid Shared Local) : Option (Config Tid Shared Local) :=
  (program.step label.1 label.2 config.shared (config.threads label.1)).map fun result =>
    { shared := result.1
      threads := Function.update config.threads label.1 result.2 }

/-- Every interleaving of the atomic steps of the threads. -/
def system (program : Program Tid Action Shared Local) :
    TransitionSystem (Config Tid Shared Local) (Tid × Action) where
  Initial config := program.Initial config.shared config.threads
  Step before label after := program.next label before = some after

theorem system_step_iff {before after : Config Tid Shared Local} {thread : Tid}
    {action : Action} :
    program.system.Step before (thread, action) after ↔
      ∃ shared local', program.step thread action before.shared (before.threads thread) =
          some (shared, local') ∧
        after = ⟨shared, Function.update before.threads thread local'⟩ := by
  simp only [system, next, Option.map_eq_some_iff, Prod.exists]
  constructor
  · rintro ⟨shared, local', step, rfl⟩
    exact ⟨shared, local', step, rfl⟩
  · rintro ⟨shared, local', step, rfl⟩
    exact ⟨shared, local', step, rfl⟩

theorem exists_step_of_enabled {config : Config Tid Shared Local} (thread : Tid) (action : Action)
    (enabled : (program.step thread action config.shared (config.threads thread)).isSome = true) :
    ∃ label after, program.system.Step config label after := by
  obtain ⟨⟨shared, local'⟩, step⟩ := Option.isSome_iff_exists.mp enabled
  exact ⟨(thread, action), _, system_step_iff.mpr ⟨shared, local', step, rfl⟩⟩

/-- Execute a fixed schedule as long as every step is enabled and allowed. -/
def execute (program : Program Tid Action Shared Local)
    (allowed : Config Tid Shared Local → Tid × Action → Config Tid Shared Local → Prop)
    [∀ before label after, Decidable (allowed before label after)] :
    List (Tid × Action) → Config Tid Shared Local → Option (Config Tid Shared Local)
  | [], config => some config
  | label :: schedule, config =>
      match program.next label config with
      | none => none
      | some after =>
          if allowed config label after then program.execute allowed schedule after else none

theorem run_of_execute
    {allowed : Config Tid Shared Local → Tid × Action → Config Tid Shared Local → Prop}
    [∀ before label after, Decidable (allowed before label after)]
    {schedule : List (Tid × Action)} {before after : Config Tid Shared Local}
    (execution : program.execute allowed schedule before = some after) :
    (program.system.restrict allowed).Run before schedule after := by
  induction schedule generalizing before with
  | nil =>
      obtain rfl := Option.some.inj execution
      exact .nil
  | cons label schedule ih =>
      cases first : program.next label before with
      | none => simp [execute, first] at execution
      | some middle =>
          simp only [execute, first] at execution
          split at execution
          · rename_i permitted
            exact .cons ⟨first, permitted⟩ (ih execution)
          · simp at execution

/-- A schedule whose final configuration passes a test is a run to such a configuration. -/
theorem exists_run_of_execute
    {allowed : Config Tid Shared Local → Tid × Action → Config Tid Shared Local → Prop}
    [∀ before label after, Decidable (allowed before label after)]
    {schedule : List (Tid × Action)} {before : Config Tid Shared Local}
    {test : Config Tid Shared Local → Prop} [DecidablePred test]
    (passes : (program.execute allowed schedule before).any (fun after => decide (test after)) =
      true) :
    ∃ after, (program.system.restrict allowed).Run before schedule after ∧ test after := by
  obtain ⟨after, execution, holds⟩ := (Option.any_eq_true _ _).mp passes
  exact ⟨after, run_of_execute execution, of_decide_eq_true holds⟩

/-- The last configuration of a fixed schedule. -/
def finish (program : Program Tid Action Shared Local)
    (allowed : Config Tid Shared Local → Tid × Action → Config Tid Shared Local → Prop)
    [∀ before label after, Decidable (allowed before label after)]
    (schedule : List (Tid × Action)) (config : Config Tid Shared Local) :
    Config Tid Shared Local :=
  (program.execute allowed schedule config).getD config

theorem run_finish
    {allowed : Config Tid Shared Local → Tid × Action → Config Tid Shared Local → Prop}
    [∀ before label after, Decidable (allowed before label after)]
    {schedule : List (Tid × Action)} {config : Config Tid Shared Local}
    (enabled : (program.execute allowed schedule config).isSome = true) :
    (program.system.restrict allowed).Run config schedule
      (program.finish allowed schedule config) := by
  obtain ⟨after, execution⟩ := Option.isSome_iff_exists.mp enabled
  rw [finish, execution]
  exact run_of_execute execution

/-- The Owicki–Gries rule with an auxiliary value that each step may update. -/
theorem exists_auxiliary_of_assertions {Auxiliary : Type*}
    {allowed : Config Tid Shared Local → Tid × Action → Config Tid Shared Local → Prop}
    (global : Auxiliary → Shared → Prop) (assertion : Auxiliary → Tid → Shared → Local → Prop)
    (base : ∀ {shared threads}, program.Initial shared threads →
      ∃ auxiliary, global auxiliary shared ∧
        ∀ thread, assertion auxiliary thread shared (threads thread))
    (step : ∀ {auxiliary before after thread action} {shared : Shared} {local' : Local},
      (∀ other, assertion auxiliary other before.shared (before.threads other)) →
      global auxiliary before.shared →
      program.step thread action before.shared (before.threads thread) =
        some (shared, local') →
      after = ⟨shared, Function.update before.threads thread local'⟩ →
      allowed before (thread, action) after →
      ∃ auxiliary', global auxiliary' shared ∧ assertion auxiliary' thread shared local' ∧
        ∀ other otherLocal, other ≠ thread →
          assertion auxiliary other before.shared otherLocal →
          assertion auxiliary' other shared otherLocal)
    {config : Config Tid Shared Local}
    (reach : (program.system.restrict allowed).Reachable config) :
    ∃ auxiliary, global auxiliary config.shared ∧
      ∀ thread, assertion auxiliary thread config.shared (config.threads thread) := by
  refine reach.invariant (motive := fun config => ∃ auxiliary, global auxiliary config.shared ∧
    ∀ thread, assertion auxiliary thread config.shared (config.threads thread)) ?_ ?_
  · exact fun start => base start
  · rintro before ⟨thread, action⟩ after - ⟨auxiliary, holds, asserted⟩ ⟨taken, permitted⟩
    obtain ⟨shared, local', own, rfl⟩ := system_step_iff.mp taken
    obtain ⟨auxiliary', holds', mine, others⟩ := step asserted holds own rfl permitted
    refine ⟨auxiliary', holds', fun other => ?_⟩
    by_cases same : other = thread
    · subst same
      simpa using mine
    · simpa [same] using others other _ same (asserted other)

/-- The rule without an auxiliary value. -/
theorem invariant_of_assertions
    {allowed : Config Tid Shared Local → Tid × Action → Config Tid Shared Local → Prop}
    (global : Shared → Prop) (assertion : Tid → Shared → Local → Prop)
    (base : ∀ {shared threads}, program.Initial shared threads →
      global shared ∧ ∀ thread, assertion thread shared (threads thread))
    (step : ∀ {before after thread action} {shared : Shared} {local' : Local},
      (∀ other, assertion other before.shared (before.threads other)) → global before.shared →
      program.step thread action before.shared (before.threads thread) = some (shared, local') →
      allowed before (thread, action) after →
      global shared ∧ assertion thread shared local' ∧
        ∀ other otherLocal, other ≠ thread → assertion other before.shared otherLocal →
          assertion other shared otherLocal)
    {config : Config Tid Shared Local}
    (reach : (program.system.restrict allowed).Reachable config) :
    global config.shared ∧ ∀ thread, assertion thread config.shared (config.threads thread) := by
  obtain ⟨-, holds⟩ := exists_auxiliary_of_assertions (fun (_ : Unit) => global)
    (fun _ => assertion) (fun start => ⟨(), base start⟩)
    (fun asserted globally own _ permitted => ⟨(), step asserted globally own permitted⟩) reach
  exact holds

/-! ## Counting threads -/

section Counting

variable [Fintype Tid]

/-- Sum over all threads of a weight of their local states. -/
def sumThreads (weight : Local → Nat) (threads : Tid → Local) : Nat :=
  ∑ thread, weight (threads thread)

theorem sum_change (weight weight' : Tid → Nat) (thread : Tid)
    (same : ∀ other, other ≠ thread → weight' other = weight other) :
    (∑ other, weight' other) + weight thread = (∑ other, weight other) + weight' thread := by
  have split (table : Tid → Nat) : ∑ other, table other =
      table thread + ∑ other ∈ Finset.univ.erase thread, table other :=
    (Finset.add_sum_erase _ _ (Finset.mem_univ thread)).symm
  have rest : ∑ other ∈ Finset.univ.erase thread, weight' other =
      ∑ other ∈ Finset.univ.erase thread, weight other :=
    Finset.sum_congr rfl fun other member => same other (Finset.ne_of_mem_erase member)
  rw [split weight', split weight, rest]
  omega

theorem sumThreads_update (weight : Local → Nat) (threads : Tid → Local) (thread : Tid)
    (local' : Local) :
    sumThreads weight (Function.update threads thread local') + weight (threads thread) =
      sumThreads weight threads + weight local' := by
  have change := sum_change (fun other => weight (threads other))
    (fun other => weight (Function.update threads thread local' other)) thread
    fun other foreign => by rw [Function.update_of_ne foreign]
  simpa only [sumThreads, Function.update_self] using change

omit [DecidableEq Tid] in
theorem le_sumThreads (weight : Local → Nat) (threads : Tid → Local) (thread : Tid) :
    weight (threads thread) ≤ sumThreads weight threads :=
  Finset.single_le_sum (f := fun thread => weight (threads thread)) (fun _ _ => Nat.zero_le _)
    (Finset.mem_univ thread)

omit [DecidableEq Tid] in
theorem sumThreads_mono {weight heavier : Local → Nat} (threads : Tid → Local)
    (le : ∀ state, weight state ≤ heavier state) :
    sumThreads weight threads ≤ sumThreads heavier threads :=
  Finset.sum_le_sum fun _ _ => le _

omit [DecidableEq Tid] in
theorem sumThreads_eq_zero {weight : Local → Nat} {threads : Tid → Local}
    (zero : ∀ thread, weight (threads thread) = 0) : sumThreads weight threads = 0 :=
  Finset.sum_eq_zero fun thread _ => zero thread

/-- Number of threads whose local state satisfies a predicate. -/
def countThreads (predicate : Local → Bool) (threads : Tid → Local) : Nat :=
  (Finset.univ.filter fun thread => predicate (threads thread) = true).card

omit [DecidableEq Tid] in
theorem countThreads_eq_sumThreads (predicate : Local → Bool) (threads : Tid → Local) :
    countThreads predicate threads = sumThreads (fun state => (predicate state).toNat) threads := by
  simp only [countThreads, sumThreads, Finset.card_filter]
  refine Finset.sum_congr rfl fun thread _ => ?_
  cases predicate (threads thread) <;> rfl

theorem countThreads_update (predicate : Local → Bool) (threads : Tid → Local) (thread : Tid)
    (local' : Local) :
    countThreads predicate (Function.update threads thread local') +
        (predicate (threads thread)).toNat =
      countThreads predicate threads + (predicate local').toNat := by
  simp only [countThreads_eq_sumThreads]
  exact sumThreads_update (fun state => (predicate state).toNat) threads thread local'

omit [DecidableEq Tid] in
theorem countThreads_eq_zero {predicate : Local → Bool} {threads : Tid → Local} :
    countThreads predicate threads = 0 ↔ ∀ thread, predicate (threads thread) = false := by
  simp [countThreads, Finset.card_eq_zero, Finset.filter_eq_empty_iff]

omit [DecidableEq Tid] in
/-- A wider predicate that counts no more threads holds of no others. -/
theorem forall_of_countThreads_le {predicate wider : Local → Bool} {threads : Tid → Local}
    (implies : ∀ thread, predicate (threads thread) = true → wider (threads thread) = true)
    (count : countThreads wider threads ≤ countThreads predicate threads)
    (thread : Tid) (holds : wider (threads thread) = true) : predicate (threads thread) = true := by
  have subset : Finset.univ.filter (fun thread => predicate (threads thread) = true) ⊆
      Finset.univ.filter fun thread => wider (threads thread) = true := by
    intro other member
    simp only [Finset.mem_filter, Finset.mem_univ, true_and] at member ⊢
    exact implies other member
  have same := Finset.eq_of_subset_of_card_le subset count
  have member : thread ∈ Finset.univ.filter fun thread => wider (threads thread) = true := by
    simpa using holds
  rw [← same] at member
  simpa using member

end Counting

end Program
