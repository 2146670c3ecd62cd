import ConcurrencyCourse.OptimizedQueue.Linearization

/-!
# Sleeping consumers

`push` notifies without holding `head_mutex`, so a whole `push` fits between the moment at which a
consumer finds the list empty and the moment at which it blocks: the notification reaches nobody
and the consumer sleeps next to the value.  A count of values, sleepers and notifications still to
come says when blocking is harmless, and no value is stranded when every consumer that blocks does
so harmlessly.
-/

namespace ConcurrencyCourse
namespace OptimizedQueue

open ThreadSafeQueue

variable {Tid Value : Type*}

/-- A push that has moved `tail` and has not notified yet. -/
def Pc.owesNotify : Pc Value → Bool
  | .pushUnlock | .pushNotify => true
  | _ => false

/-- A push that has not notified yet. -/
def Pc.willNotify : Pc Value → Bool
  | .pushAllocate _ | .pushLock _ _ | .pushReadTail _ _ | .pushData _ _ _
  | .pushReadTailAgain _ _ | .pushNext _ _ _ | .pushTail _ _ | .pushUnlock | .pushNotify => true
  | _ => false

/-- A removal that has neither taken a value nor found the list empty since it last tested it. -/
def Pc.mayTake : Pc Value → Bool
  | .popLock _ | .popReadHead _ | .getTailLock _ _ | .getTailRead _ _ | .takeHead _
  | .clearHead _ _ | .waiting => true
  | .getTailUnlock _ head tail | .popCompare _ head tail => decide (head ≠ some tail)
  | _ => false

/-- A consumer that has found the list empty and is about to block. -/
def Pc.willBlock : Pc Value → Bool
  | .getTailUnlock .waitAndPop head tail | .popCompare .waitAndPop head tail =>
      decide (head = some tail)
  | .waitBlock => true
  | _ => false

/-- What a step does to the balance of values and sleepers. -/
inductive WakeStep (queue : Queue Tid Value) (pc : Pc Value) (queue' : Queue Tid Value)
    (pc' : Pc Value) : Prop
  | balanced :
      queue'.pushed.length + queue'.dataCond.card + queue.removed.length + pc.owesNotify.toNat +
          pc.mayTake.toNat ≤
        queue.pushed.length + queue.dataCond.card + queue'.removed.length +
          pc'.owesNotify.toNat + pc'.mayTake.toNat →
      queue'.dataCond.card + pc'.willBlock.toNat + pc.willNotify.toNat ≤
        queue.dataCond.card + pc.willBlock.toNat + pc'.willNotify.toNat →
      (pc ≠ .waitBlock → queue'.dataCond ⊆ queue.dataCond) → WakeStep queue pc queue' pc'
  | empty : queue'.pushed.length = queue'.removed.length → WakeStep queue pc queue' pc'
  | awake : queue'.dataCond = ∅ → WakeStep queue pc queue' pc'

variable {layout : Layout Tid Value} {thread : Tid} {queue queue' : Queue Tid Value}
  {pc pc' : Pc Value}

theorem WakeStep.of_same (pushed : queue'.pushed = queue.pushed)
    (removed : queue'.removed = queue.removed) (dataCond : queue'.dataCond = queue.dataCond)
    (owes : pc'.owesNotify = pc.owesNotify) (takes : pc'.mayTake = pc.mayTake)
    (blocks : pc'.willBlock = pc.willBlock) (notifies : pc'.willNotify = pc.willNotify) :
    WakeStep queue pc queue' pc' := by
  apply WakeStep.balanced
  · rw [pushed, removed, dataCond, owes, takes]
  · rw [dataCond, blocks, notifies]
  · rw [dataCond]
    exact fun _ => subset_rfl

theorem PushCase.wakeStep (step : PushCase thread queue pc queue' pc') :
    WakeStep queue pc queue' pc' := by
  cases step with
  | moveTail value p =>
      apply WakeStep.balanced
      · simp only [Pc.owesNotify, Pc.mayTake, List.length_append, List.length_singleton,
          Bool.toNat_false, Bool.toNat_true]
        omega
      · simp [Pc.willBlock, Pc.willNotify]
      · exact fun _ => subset_rfl
  | lock | readTail | writeData | readTailAgain | writeNext | unlock | unwind | discard =>
      exact .of_same rfl rfl rfl rfl rfl rfl rfl

theorem Assertion.wake_compareCase (shape : Shape layout queue)
    (assertion : Assertion layout thread queue pc)
    (step : CompareCase thread queue pc queue' pc') : WakeStep queue pc queue' pc' := by
  cases step with
  | readTail kind head =>
      obtain ⟨-, rfl⟩ := assertion.headFact
      by_cases empty : layout.front = queue.tail
      · exact .empty (by rw [shape.order, shape.values_eq_nil empty, List.append_nil])
      · refine .of_same rfl rfl rfl rfl (by simp [Pc.mayTake, empty]) ?_ rfl
        cases kind with
        | tryPop => rfl
        | waitAndPop => simp [Pc.willBlock, empty]
  | unlockTail kind head tail =>
      cases kind with
      | tryPop | waitAndPop => exact .of_same rfl rfl rfl rfl rfl rfl rfl
  | equalTry tail => exact .of_same rfl rfl rfl rfl (by simp [Pc.mayTake]) rfl rfl
  | equalWait tail =>
      exact .of_same rfl rfl rfl rfl (by simp [Pc.mayTake]) (by simp [Pc.willBlock]) rfl
  | different kind head tail differs =>
      refine .of_same rfl rfl rfl rfl (by simp [Pc.mayTake, differs]) ?_ rfl
      cases kind with
      | tryPop => rfl
      | waitAndPop => simp [Pc.willBlock, differs]
  | lock | readHead | lockTail | unlock => exact .of_same rfl rfl rfl rfl rfl rfl rfl

theorem PopCase.wakeStep (step : PopCase queue pc queue' pc') :
    WakeStep queue pc queue' pc' := by
  cases step with
  | clearHead kind node =>
      apply WakeStep.balanced
      · simp only [Pc.owesNotify, Pc.mayTake, List.length_append, List.length_singleton,
          Bool.toNat_false, Bool.toNat_true]
        omega
      · simp [Pc.willBlock, Pc.willNotify]
      · exact fun _ => subset_rfl
  | takeHead | readNext | clearNext | setHead | unlock | takeNothing | takeData | free | freed =>
      exact .of_same rfl rfl rfl rfl rfl rfl rfl

section Runs

variable [DecidableEq Tid]

theorem Assertion.wakeStep {action : Action Tid Value} (shape : Shape layout queue)
    (assertion : Assertion layout thread queue pc)
    (step : threadStep thread action queue pc = some (queue', pc'))
    (noThrow : action ≠ .throw) : WakeStep queue pc queue' pc' := by
  cases assertion.threadStep_cases shape step with
  | call call =>
      cases call with
      | push value | tryPop | waitAndPop =>
          apply WakeStep.balanced
          · simp [entry, Pc.owesNotify, Pc.mayTake]
          · simp [entry, Pc.willBlock, Pc.willNotify]
          · exact fun _ => subset_rfl
  | notifyNobody nobody => exact .awake nobody
  | notify member =>
      have card := Finset.card_erase_add_one member
      apply WakeStep.balanced
      · simp only [Pc.owesNotify, Pc.mayTake, Bool.toNat_true, Bool.toNat_false]
        omega
      · simp only [Pc.willBlock, Pc.willNotify, Bool.toNat_true, Bool.toNat_false]
        omega
      · exact fun _ => Finset.erase_subset _ _
  | block =>
      have card := Finset.card_insert_of_notMem (assertion.not_blocked nofun)
      apply WakeStep.balanced
      · simp only [Pc.owesNotify, Pc.mayTake, Bool.toNat_true, Bool.toNat_false]
        omega
      · simp only [Pc.willBlock, Pc.willNotify, Bool.toNat_true, Bool.toNat_false]
        omega
      · exact fun stays => absurd rfl stays
  | wake member =>
      have card := Finset.card_erase_add_one member
      apply WakeStep.balanced
      · simp only [Pc.owesNotify, Pc.mayTake, Bool.toNat_true, Bool.toNat_false]
        omega
      · simp only [Pc.willBlock, Pc.willNotify, Bool.toNat_false]
        omega
      · exact fun _ => Finset.erase_subset _ _
  | throwAllocate | throwData | throwTake => exact absurd rfl noThrow
  | push taken => exact taken.wakeStep
  | compare taken => exact assertion.wake_compareCase shape taken
  | pop taken => exact taken.wakeStep
  | allocate | relock | ret => exact .of_same rfl rfl rfl rfl rfl rfl rfl

/-! ## When blocking is harmless -/

variable [Fintype Tid]

open Program (countThreads)

/-- Every stored value is matched by a push that has still to notify for it, or by a removal that
is not blocked and has not found the list empty.  A blocked consumer counts on both sides. -/
def ValuesCovered (config : Config Tid Value) : Prop :=
  config.shared.pushed.length + config.shared.dataCond.card ≤
    config.shared.removed.length + countThreads Pc.owesNotify config.threads +
      countThreads Pc.mayTake config.threads

/-- Every consumer that is blocked or about to block is matched by a push that has still to
notify. -/
def SleepersCovered (config : Config Tid Value) : Prop :=
  config.shared.dataCond.card + countThreads Pc.willBlock config.threads ≤
    countThreads Pc.willNotify config.threads

/-- A consumer blocks only when the values or the sleepers are covered. -/
def BlocksCovered (before : Config Tid Value) (label : Tid × Action Tid Value)
    (_ : Config Tid Value) : Prop :=
  before.threads label.1 = .waitBlock → ValuesCovered before ∨ SleepersCovered before

instance [DecidableEq Value] (before after : Config Tid Value)
    (label : Tid × Action Tid Value) : Decidable (BlocksCovered before label after) :=
  inferInstanceAs (Decidable (_ → _ ≤ _ ∨ _ ≤ _))

/-- The sleepers are matched: nobody sleeps, or the values or the sleepers are covered. -/
def Balanced (config : Config Tid Value) : Prop :=
  config.shared.dataCond = ∅ ∨ ValuesCovered config ∨ SleepersCovered config

theorem card_dataCond_le {config : Config Tid Value} (reach : program.system.Reachable config) :
    config.shared.dataCond.card ≤ countThreads Pc.mayTake config.threads := by
  obtain ⟨layout, -, asserted⟩ := exists_layout reach
  apply Finset.card_le_card
  intro thread member
  have position := (asserted thread).blocked member
  simp [position, Pc.mayTake]

theorem Balanced.step {before after : Config Tid Value} {label : Tid × Action Tid Value}
    (reach : program.system.Reachable before) (balanced : Balanced before)
    (step : program.system.Step before label after) (noThrow : NoThrow before label after)
    (covered : BlocksCovered before label after) : Balanced after := by
  have reach' := reach.step step
  obtain ⟨layout, shape, asserted⟩ := exists_layout reach
  obtain ⟨thread, action⟩ := label
  obtain ⟨queue', pc', taken, rfl⟩ := Program.system_step_iff.mp step
  have card := card_dataCond_le reach'
  cases (asserted thread).wakeStep shape taken noThrow with
  | awake nobody => exact Or.inl nobody
  | empty same =>
      refine Or.inr (Or.inl ?_)
      simp only [ValuesCovered] at card ⊢
      omega
  | balanced values sleepers stays =>
      have owes := Program.countThreads_update Pc.owesNotify before.threads thread pc'
      have takes := Program.countThreads_update Pc.mayTake before.threads thread pc'
      have blocks := Program.countThreads_update Pc.willBlock before.threads thread pc'
      have notifies := Program.countThreads_update Pc.willNotify before.threads thread pc'
      have kept : ValuesCovered before ∨ SleepersCovered before → Balanced
          ⟨queue', Function.update before.threads thread pc'⟩ := by
        rintro (valuesCovered | sleepersCovered)
        · refine Or.inr (Or.inl ?_)
          simp only [ValuesCovered] at valuesCovered ⊢
          omega
        · refine Or.inr (Or.inr ?_)
          simp only [SleepersCovered] at sleepersCovered ⊢
          omega
      rcases balanced with nobody | both
      · by_cases blocks : before.threads thread = .waitBlock
        · exact kept (covered blocks)
        · have nobody' := stays blocks
          rw [nobody, Finset.subset_empty] at nobody'
          exact Or.inl nobody'
      · exact kept both

/-- Every call still in progress is a `wait_and_pop()` that is blocked and not notified. -/
def OnlySleepers (config : Config Tid Value) : Prop :=
  ∀ thread, config.threads thread = .idle ∨
    config.threads thread = .waiting ∧ thread ∈ config.shared.dataCond

/-- When no consumer blocks uncovered, no value is stranded next to a sleeping consumer. -/
theorem empty_of_blocksCovered {config : Config Tid Value}
    (reach : (program.system.restrict fun before label after =>
      NoThrow before label after ∧ BlocksCovered before label after).Reachable config)
    (quiet : OnlySleepers config) (sleeping : config.shared.dataCond.Nonempty) :
    Stores config [] := by
  have balanced : Balanced config := by
    refine reach.invariant (motive := Balanced) ?_ ?_
    · rintro ⟨queue, threads⟩ ⟨rfl, rfl⟩
      exact Or.inl rfl
    · rintro before label after earlier kept ⟨step, noThrow, covered⟩
      exact kept.step earlier.of_restrict step noThrow covered
  obtain ⟨layout, shape, asserted⟩ := exists_layout reach.of_restrict
  have none_of_sleeping (predicate : Pc Value → Bool) (idle : predicate .idle = false)
      (waiting : predicate .waiting = false) : countThreads predicate config.threads = 0 := by
    rw [Program.countThreads_eq_zero]
    intro thread
    rcases quiet thread with position | ⟨position, -⟩
    · rw [position, idle]
    · rw [position, waiting]
  have owes := none_of_sleeping Pc.owesNotify rfl rfl
  have notifies := none_of_sleeping Pc.willNotify rfl rfl
  have takes : countThreads Pc.mayTake config.threads ≤ config.shared.dataCond.card := by
    apply Finset.card_le_card
    intro thread member
    rcases quiet thread with position | ⟨-, blocked⟩
    · simp [position, Pc.mayTake] at member
    · exact blocked
  have sleepers := sleeping.card_pos
  have lengths : config.shared.pushed.length ≤ config.shared.removed.length := by
    rcases balanced with nobody | values | covered
    · simp [nobody] at sleepers
    · simp only [ValuesCovered] at values
      omega
    · simp only [SleepersCovered] at covered
      omega
  have nothing : layout.values = [] := by
    rw [shape.order, List.length_append] at lengths
    apply List.eq_nil_of_length_eq_zero
    omega
  rw [← nothing]
  exact stores_of_shape shape asserted

/-- A push moves `tail` between a consumer's test and its blocking and notifies after it.  The
consumer takes the value and blocks in its next call. -/
theorem empty_of_blocksCovered_overlapping :
    ∃ config : Config (Fin 2) Nat, config.shared.pushed = [5] ∧
      (OnlySleepers config ∧ config.shared.dataCond.Nonempty) ∧ Stores config [] := by
  have woken : ∃ config : Config (Fin 2) Nat, (program.system.restrict
      fun before label after => NoThrow before label after ∧
        BlocksCovered before label after).Run initial
      ((0, .call .waitAndPop) :: List.replicate 6 (0, .run) ++
        [(1, .call (.push 5)), (1, .allocate 1)] ++ List.replicate 7 (1, .run) ++
        [(0, .run), (1, .notifyOne (some 0)), (1, .run)] ++ List.replicate 16 (0, .run) ++
        (0, .call .waitAndPop) :: List.replicate 7 (0, .run)) config ∧
      (config.shared.pushed = [5] ∧ config.threads 0 = .waiting ∧ 0 ∈ config.shared.dataCond ∧
        config.threads 1 = .idle) :=
    Program.exists_run_of_execute (by decide)
  obtain ⟨config, run, pushed, waiting, member, idle⟩ := woken
  have quiet : OnlySleepers config :=
    Fin.forall_fin_two.mpr ⟨Or.inr ⟨waiting, member⟩, Or.inl idle⟩
  exact ⟨config, pushed, ⟨quiet, 0, member⟩,
    empty_of_blocksCovered (run.reachable initial_reachable) quiet ⟨0, member⟩⟩

/-- A whole push between a consumer's test and its blocking leaves the consumer asleep next to the
value. -/
theorem lost_wakeup :
    ∃ config : Config (Fin 2) Nat, (program.system.restrict NoThrow).Reachable config ∧
      OnlySleepers config ∧ config.shared.dataCond.Nonempty ∧ ¬ Stores config [] := by
  have lost : ∃ config : Config (Fin 2) Nat, (program.system.restrict NoThrow).Run
      initial ((0, .call .waitAndPop) :: List.replicate 6 (0, .run) ++
        [(1, .call (.push 5)), (1, .allocate 1)] ++ List.replicate 7 (1, .run) ++
        [(1, .notifyOne none), (1, .run), (0, .run)]) config ∧
      (config.threads 0 = .waiting ∧ 0 ∈ config.shared.dataCond ∧ config.threads 1 = .idle ∧
        logicalHead config = some 0 ∧ config.shared.tail = 1) :=
    Program.exists_run_of_execute (by decide)
  obtain ⟨config, run, waiting, member, idle, head, tail⟩ := lost
  refine ⟨config, run.reachable initial_reachable, ?_, ⟨0, member⟩, ?_⟩
  · exact Fin.forall_fin_two.mpr ⟨Or.inr ⟨waiting, member⟩, Or.inl idle⟩
  · rintro ⟨first, nodes, head', path, -, data⟩
    obtain rfl : nodes = [] := by simpa using data
    rw [head, Option.some.injEq] at head'
    rw [LinkedPath.path_nil, ← head', tail] at path
    exact absurd path (by decide)

end Runs

end OptimizedQueue
end ConcurrencyCourse
