import ConcurrencyCourse.RunBenchmark.Model

/-!
# The barrier

The phase number says how many rounds are over.  A thread that has to go through a round is either
not at the barrier yet, or counted in `entered`; when all threads that have not been removed are
counted, none of them sleeps without a wake-up.
-/

namespace ConcurrencyCourse
namespace RunBenchmark

variable {Tid : Type*}

/-- The thread has not been removed from the barrier. -/
def Pc.present : Pc → Bool
  | .completing | .signalling | .locking | .testing | .blocking | .sleeping | .finished => false
  | _ => true

/-- The thread waits for the end of a phase. -/
def Pc.waitsIn (phaseNumber : Nat) : Pc → Bool
  | .waiting _ phaseNumberCp => phaseNumberCp == phaseNumber
  | _ => false

/-- The thread neither waits at the barrier nor is about to wake the others. -/
def Pc.calm : Pc → Bool
  | .waiting _ _ | .notifying _ => false
  | _ => true

/-- How many rounds are over where a thread is. -/
def Stage (phaseNumber : Nat) : Pc → Prop
  | .before | .arriving .start => phaseNumber = 0
  | .waiting .start phaseNumberCp => phaseNumberCp = 0 ∧ phaseNumber ≤ 1
  | .notifying .start | .looping _ | .arriving .stop => phaseNumber = 1
  | .waiting .stop phaseNumberCp => phaseNumberCp = 1 ∧ 1 ≤ phaseNumber ∧ phaseNumber ≤ 2
  | .notifying .stop | .after => phaseNumber = 2
  | _ => True

/-- Behind the barrier. -/
def Behind : Round → Pc → Prop
  | .start, pc => ∃ cached, pc = .looping cached
  | .stop, pc => pc = .after

theorem present_of_waitsIn {phaseNumber : Nat} {pc : Pc} (waits : pc.waitsIn phaseNumber = true) :
    pc.present = true := by
  cases pc <;> first | rfl | simp [Pc.waitsIn] at waits

theorem waitsIn_of_calm {phaseNumber : Nat} {pc : Pc} (calm : pc.calm = true) :
    pc.waitsIn phaseNumber = false := by
  cases pc <;> first | rfl | simp [Pc.calm] at calm

theorem calm_of_behind {round : Round} {pc : Pc} (behind : Behind round pc) :
    pc.calm = true ∧ pc.present = true := by
  cases round with
  | start =>
      obtain ⟨cached, rfl⟩ := behind
      exact ⟨rfl, rfl⟩
  | stop =>
      obtain rfl : pc = .after := behind
      exact ⟨rfl, rfl⟩

theorem stage_of_behind {phaseNumber : Nat} {round : Round} {pc : Pc}
    (notifies : Stage phaseNumber (.notifying round)) (behind : Behind round pc) :
    Stage phaseNumber pc := by
  cases round with
  | start =>
      obtain ⟨cached, rfl⟩ := behind
      exact notifies
  | stop =>
      obtain rfl : pc = .after := behind
      exact notifies

namespace Barrier

variable [DecidableEq Tid]

/-- What a step of a thread can do to the barrier. -/
inductive StepCase (thread : Tid) (barrier : Barrier Tid) : Pc → Barrier Tid → Pc → Prop
  | quiet (pc pc' : Pc) (calm : pc.calm = true) (calm' : pc'.calm = true)
      (present : pc'.present = pc.present)
      (stage : ∀ {phaseNumber}, Stage phaseNumber pc → Stage phaseNumber pc') :
      StepCase thread barrier pc barrier pc'
  | enter (round : Round) (early : barrier.entered + 1 < barrier.runningThreads) :
      StepCase thread barrier (.arriving round)
        { barrier with
          entered := barrier.entered + 1
          phaseCondition := insert thread barrier.phaseCondition }
        (.waiting round barrier.phaseNumber)
  | last (round : Round) (complete : barrier.entered + 1 = barrier.runningThreads) :
      StepCase thread barrier (.arriving round) barrier.nextPhase (.notifying round)
  | lastAwake (round : Round) (phaseNumberCp : Nat) (awake : thread ∉ barrier.phaseCondition)
      (here : ¬ phaseNumberCp < barrier.phaseNumber)
      (complete : barrier.entered = barrier.runningThreads) :
      StepCase thread barrier (.waiting round phaseNumberCp) barrier.nextPhase (.notifying round)
  | pass (round : Round) (phaseNumberCp : Nat) (pc : Pc) (awake : thread ∉ barrier.phaseCondition)
      (past : phaseNumberCp < barrier.phaseNumber) (behind : Behind round pc) :
      StepCase thread barrier (.waiting round phaseNumberCp) barrier pc
  | sleepAgain (round : Round) (phaseNumberCp : Nat) (awake : thread ∉ barrier.phaseCondition)
      (here : ¬ phaseNumberCp < barrier.phaseNumber)
      (incomplete : barrier.entered ≠ barrier.runningThreads) :
      StepCase thread barrier (.waiting round phaseNumberCp) (barrier.sleep thread)
        (.waiting round phaseNumberCp)
  | notify (round : Round) (pc : Pc) (behind : Behind round pc) :
      StepCase thread barrier (.notifying round) barrier.notifyAll pc
  | remove : StepCase thread barrier .removing barrier.removeThread .completing
  | spurious (round : Round) (phaseNumberCp : Nat) :
      StepCase thread barrier (.waiting round phaseNumberCp)
        { barrier with phaseCondition := barrier.phaseCondition.erase thread }
        (.waiting round phaseNumberCp)

variable [Fintype Tid]

/-- The barrier, and where the threads are. -/
structure Holds (barrier : Barrier Tid) (pcs : Tid → Pc) : Prop where
  running : barrier.runningThreads = Program.countThreads Pc.present pcs
  entered : barrier.entered = Program.countThreads (Pc.waitsIn barrier.phaseNumber) pcs
  stage : ∀ thread, Stage barrier.phaseNumber (pcs thread)
  sleepers : ∀ thread ∈ barrier.phaseCondition, (pcs thread).calm = false ∧
    ∀ round, pcs thread ≠ .notifying round
  -- a sleeper of a phase that is over is about to be woken
  released : ∀ thread ∈ barrier.phaseCondition,
    (pcs thread).waitsIn barrier.phaseNumber = false → ∃ other round, pcs other = .notifying round
  -- nobody sleeps in a phase in which all have entered
  full : 0 < barrier.entered → barrier.entered = barrier.runningThreads →
    ∀ thread ∈ barrier.phaseCondition, (pcs thread).waitsIn barrier.phaseNumber = false

variable {barrier barrier' : Barrier Tid} {pcs : Tid → Pc} {thread : Tid} {pc : Pc}

omit [DecidableEq Tid] in
theorem Holds.notMem_of_calm (holds : barrier.Holds pcs) (calm : (pcs thread).calm = true) :
    thread ∉ barrier.phaseCondition := by
  intro member
  rw [(holds.sleepers thread member).1] at calm
  simp at calm

theorem Holds.stage_update (holds : barrier.Holds pcs) (stage : Stage barrier.phaseNumber pc)
    (other : Tid) : Stage barrier.phaseNumber (Function.update pcs thread pc other) := by
  by_cases same : other = thread
  · subst same
    rwa [Function.update_self]
  · rw [Function.update_of_ne same]
    exact holds.stage other

omit [Fintype Tid] in
theorem exists_notifying_update (quiet : ∀ round, pcs thread ≠ .notifying round)
    (notifying : ∃ other round, pcs other = .notifying round) :
    ∃ other round, Function.update pcs thread pc other = .notifying round := by
  obtain ⟨notifier, round, notifies⟩ := notifying
  have different : notifier ≠ thread := by
    rintro rfl
    exact quiet round notifies
  exact ⟨notifier, round, by rw [Function.update_of_ne different, notifies]⟩

/-- A thread that does not sleep moves on, and nothing changes at the barrier. -/
theorem Holds.move (holds : barrier.Holds pcs) (awake : thread ∉ barrier.phaseCondition)
    (quiet : ∀ round, pcs thread ≠ .notifying round)
    (outside : (pcs thread).waitsIn barrier.phaseNumber = false)
    (outside' : pc.waitsIn barrier.phaseNumber = false)
    (present : pc.present = (pcs thread).present) (stage : Stage barrier.phaseNumber pc) :
    barrier.Holds (Function.update pcs thread pc) := by
  have foreign {other : Tid} (member : other ∈ barrier.phaseCondition) : other ≠ thread :=
    ne_of_mem_of_not_mem member awake
  have presents := Program.countThreads_update Pc.present pcs thread pc
  have waits := Program.countThreads_update (Pc.waitsIn barrier.phaseNumber) pcs thread pc
  rw [present] at presents
  rw [outside, outside'] at waits
  refine ⟨?_, ?_, holds.stage_update stage, fun other member => ?_, fun other member past => ?_,
    fun positive complete other member => ?_⟩
  · rw [holds.running]
    omega
  · rw [holds.entered]
    omega
  · simpa [foreign member] using holds.sleepers other member
  · rw [Function.update_of_ne (foreign member)] at past
    exact exists_notifying_update quiet (holds.released other member past)
  · rw [Function.update_of_ne (foreign member)]
    exact holds.full positive complete other member

/-- The last thread of a phase begins the next one. -/
theorem Holds.nextPhase {round : Round} (holds : barrier.Holds pcs)
    (awake : thread ∉ barrier.phaseCondition) (present : (pcs thread).present = true)
    (others : ∀ other ≠ thread, (pcs other).present = true →
      (pcs other).waitsIn barrier.phaseNumber = true)
    (stage : Stage (barrier.phaseNumber + 1) (.notifying round)) :
    barrier.nextPhase.Holds (Function.update pcs thread (.notifying round)) := by
  have foreign {other : Tid} (member : other ∈ barrier.phaseCondition) : other ≠ thread :=
    ne_of_mem_of_not_mem member awake
  have presents := Program.countThreads_update Pc.present pcs thread (.notifying round)
  rw [present] at presents
  have later {pc : Pc} (now : Stage barrier.phaseNumber pc) :
      pc.waitsIn (barrier.phaseNumber + 1) = false := by
    cases pc with
    | waiting round phaseNumberCp =>
        cases round <;> simp only [Stage] at now <;> simp only [Pc.waitsIn, beq_eq_false_iff_ne] <;>
          omega
    | _ => rfl
  have advance {pc : Pc} (now : Stage barrier.phaseNumber pc)
      (waits : pc.present = true → pc.waitsIn barrier.phaseNumber = true) :
      Stage (barrier.phaseNumber + 1) pc := by
    cases pc with
    | waiting round phaseNumberCp =>
        have here : phaseNumberCp = barrier.phaseNumber := by
          simpa [Pc.waitsIn, Pc.present] using waits
        cases round <;> simp only [Stage] at now ⊢ <;> omega
    | _ => first | exact trivial | simp [Pc.waitsIn, Pc.present] at waits
  refine ⟨?_, ?_, fun other => ?_, fun other member => ?_, fun other member past => ?_,
    fun positive => absurd positive (Nat.lt_irrefl 0)⟩
  · have running := holds.running
    simp only [Barrier.nextPhase, Pc.present, Bool.toNat_true] at presents ⊢
    omega
  · refine (Program.countThreads_eq_zero.mpr fun other => ?_).symm
    by_cases same : other = thread
    · subst same
      simp [Pc.waitsIn]
    · rw [Function.update_of_ne same]
      exact later (holds.stage other)
  · by_cases same : other = thread
    · subst same
      simpa [Barrier.nextPhase] using stage
    · rw [Function.update_of_ne same]
      exact advance (holds.stage other) (others other same)
  · rw [Function.update_of_ne (foreign member)]
    exact holds.sleepers other member
  · exact ⟨thread, round, Function.update_self ..⟩

omit [DecidableEq Tid] in
/-- All threads that have not been removed wait, when as many have entered. -/
theorem Holds.all_wait (holds : barrier.Holds pcs)
    (complete : barrier.entered = barrier.runningThreads) (present : (pcs thread).present = true) :
    (pcs thread).waitsIn barrier.phaseNumber = true := by
  refine Program.forall_of_countThreads_le (fun other => present_of_waitsIn) ?_ thread present
  rw [← holds.running, ← holds.entered, complete]

/-- All others wait, when one thread is missing that has just come. -/
theorem Holds.others_wait {other : Tid} {round : Round} (holds : barrier.Holds pcs)
    (place : pcs thread = .arriving round)
    (complete : barrier.entered + 1 = barrier.runningThreads) (different : other ≠ thread)
    (present : (pcs other).present = true) : (pcs other).waitsIn barrier.phaseNumber = true := by
  let arrived := Function.update pcs thread (.waiting round barrier.phaseNumber)
  have presents := Program.countThreads_update Pc.present pcs thread
    (.waiting round barrier.phaseNumber)
  have waits := Program.countThreads_update (Pc.waitsIn barrier.phaseNumber) pcs thread
    (.waiting round barrier.phaseNumber)
  have running := holds.running
  have entered := holds.entered
  rw [place] at presents waits
  simp only [Pc.present, Pc.waitsIn, beq_self_eq_true, Bool.toNat_true, Bool.toNat_false]
    at presents waits
  have same : arrived other = pcs other := Function.update_of_ne different _ _
  rw [← same] at present ⊢
  refine Program.forall_of_countThreads_le (fun another => present_of_waitsIn) ?_ other present
  simp only [arrived]
  omega

theorem Holds.sleep {round : Round} {phaseNumberCp : Nat} (holds : barrier.Holds pcs)
    (place : pcs thread = .waiting round phaseNumberCp)
    (here : phaseNumberCp = barrier.phaseNumber)
    (incomplete : barrier.entered ≠ barrier.runningThreads) : (barrier.sleep thread).Holds pcs := by
  refine ⟨holds.running, holds.entered, holds.stage, fun other member => ?_,
    fun other member past => ?_, fun _ complete => absurd complete incomplete⟩
  · rcases Finset.mem_insert.mp member with rfl | member
    · simp [place, Pc.calm]
    · exact holds.sleepers other member
  · rcases Finset.mem_insert.mp member with rfl | member
    · simp [place, here, Pc.waitsIn, Barrier.sleep] at past
    · exact holds.released other member past

theorem Holds.enter {round : Round} (holds : barrier.Holds pcs)
    (place : pcs thread = .arriving round) (early : barrier.entered + 1 < barrier.runningThreads) :
    ({ barrier with entered := barrier.entered + 1 } : Barrier Tid).Holds
      (Function.update pcs thread (.waiting round barrier.phaseNumber)) := by
  have awake : thread ∉ barrier.phaseCondition := holds.notMem_of_calm (by rw [place]; rfl)
  have foreign {other : Tid} (member : other ∈ barrier.phaseCondition) : other ≠ thread :=
    ne_of_mem_of_not_mem member awake
  have presents := Program.countThreads_update Pc.present pcs thread
    (.waiting round barrier.phaseNumber)
  have waits := Program.countThreads_update (Pc.waitsIn barrier.phaseNumber) pcs thread
    (.waiting round barrier.phaseNumber)
  have running := holds.running
  have entered := holds.entered
  have before := holds.stage thread
  rw [place] at presents waits before
  simp only [Pc.present, Pc.waitsIn, beq_self_eq_true, Bool.toNat_true, Bool.toNat_false]
    at presents waits
  refine ⟨?_, ?_, holds.stage_update ?_, fun other member => ?_, fun other member past => ?_, ?_⟩
  · simp only
    omega
  · simp only
    omega
  · cases round <;> simp only [Stage] at before ⊢ <;> omega
  · rw [Function.update_of_ne (foreign member)]
    exact holds.sleepers other member
  · rw [Function.update_of_ne (foreign member)] at past
    exact exists_notifying_update (by simp [place]) (holds.released other member past)
  · intro _ complete
    exact absurd complete early.ne

theorem Holds.pass {round : Round} {phaseNumberCp : Nat} (holds : barrier.Holds pcs)
    (place : pcs thread = .waiting round phaseNumberCp) (awake : thread ∉ barrier.phaseCondition)
    (past : phaseNumberCp < barrier.phaseNumber) (behind : Behind round pc) :
    barrier.Holds (Function.update pcs thread pc) := by
  obtain ⟨calm, present⟩ := calm_of_behind behind
  have before := holds.stage thread
  rw [place] at before
  refine holds.move awake (by simp [place]) ?_ (waitsIn_of_calm calm) (by rw [place, present]; rfl)
    (stage_of_behind ?_ behind)
  · rw [place, Pc.waitsIn, beq_eq_false_iff_ne]
    omega
  · cases round <;> simp only [Stage] at before ⊢ <;> omega

/-- The last thread of a phase wakes the others. -/
theorem Holds.notify {round : Round} (holds : barrier.Holds pcs)
    (place : pcs thread = .notifying round) (behind : Behind round pc) :
    barrier.notifyAll.Holds (Function.update pcs thread pc) := by
  obtain ⟨calm, present⟩ := calm_of_behind behind
  have before := holds.stage thread
  have presents := Program.countThreads_update Pc.present pcs thread pc
  have waits := Program.countThreads_update (Pc.waitsIn barrier.phaseNumber) pcs thread pc
  rw [place] at before
  rw [place, present] at presents
  rw [place, waitsIn_of_calm calm] at waits
  simp only [Pc.present, Pc.waitsIn, Bool.toNat_true, Bool.toNat_false] at presents waits
  refine ⟨?_, ?_, holds.stage_update (stage_of_behind before behind), by simp [notifyAll],
    by simp [notifyAll], by simp [notifyAll]⟩
  · simp only [notifyAll, holds.running]
    omega
  · simp only [notifyAll, holds.entered]
    omega

/-- A thread is removed; who waits is woken, as the others may be complete without it. -/
theorem Holds.remove (holds : barrier.Holds pcs) (place : pcs thread = .removing) :
    barrier.removeThread.Holds (Function.update pcs thread .completing) := by
  have awake : thread ∉ barrier.phaseCondition := holds.notMem_of_calm (by rw [place]; rfl)
  have presents := Program.countThreads_update Pc.present pcs thread .completing
  have waits := Program.countThreads_update (Pc.waitsIn barrier.phaseNumber) pcs thread .completing
  have running := holds.running
  have entered := holds.entered
  have stages : ∀ other,
      Stage barrier.phaseNumber (Function.update pcs thread .completing other) :=
    holds.stage_update trivial
  rw [place] at presents waits
  simp only [Pc.present, Pc.waitsIn, Bool.toNat_true, Bool.toNat_false] at presents waits
  by_cases nobody : barrier.entered = 0
  · rw [removeThread, if_pos nobody]
    refine ⟨by simp only; omega, by simp only; omega, stages, fun other member => ?_,
      fun other member past => ?_, fun positive => absurd positive (by simp [nobody])⟩
    · rw [Function.update_of_ne (ne_of_mem_of_not_mem member awake)]
      exact holds.sleepers other member
    · rw [Function.update_of_ne (ne_of_mem_of_not_mem member awake)] at past
      exact exists_notifying_update (by simp [place]) (holds.released other member past)
  · rw [removeThread, if_neg nobody]
    exact ⟨by simp only [notifyAll]; omega, by simp only [notifyAll]; omega, stages,
      by simp [notifyAll], by simp [notifyAll], by simp [notifyAll]⟩

theorem Holds.erase (holds : barrier.Holds pcs) (thread : Tid) :
    ({ barrier with phaseCondition := barrier.phaseCondition.erase thread } : Barrier Tid).Holds
      pcs :=
  ⟨holds.running, holds.entered, holds.stage,
    fun other member => holds.sleepers other (Finset.mem_of_mem_erase member),
    fun other member => holds.released other (Finset.mem_of_mem_erase member),
    fun positive complete other member =>
      holds.full positive complete other (Finset.mem_of_mem_erase member)⟩

theorem Holds.step (holds : barrier.Holds pcs)
    (step : barrier.StepCase thread (pcs thread) barrier' pc) :
    barrier'.Holds (Function.update pcs thread pc) := by
  have before := holds.stage thread
  generalize place : pcs thread = old at step before
  have stays : Function.update pcs thread old = pcs := by rw [← place, Function.update_eq_self]
  cases step with
  | quiet _ _ calm calm' present stage =>
      refine holds.move (holds.notMem_of_calm (by rw [place, calm])) ?_ ?_ (waitsIn_of_calm calm')
        (by rw [place, present]) (stage before)
      · rintro round notifies
        rw [place] at notifies
        rw [notifies] at calm
        simp [Pc.calm] at calm
      · rw [place]
        exact waitsIn_of_calm calm
  | enter round early =>
      exact (holds.enter place early).sleep (Function.update_self ..) rfl early.ne
  | last round complete =>
      refine holds.nextPhase (holds.notMem_of_calm (by rw [place]; rfl)) (by rw [place]; rfl)
        (fun other different => holds.others_wait place complete different) ?_
      cases round <;> simp only [Stage] at before ⊢ <;> omega
  | lastAwake round phaseNumberCp awake here complete =>
      refine holds.nextPhase awake (by rw [place]; rfl) (fun other _ => holds.all_wait complete) ?_
      cases round <;> simp only [Stage] at before ⊢ <;> omega
  | pass round phaseNumberCp _ awake past behind => exact holds.pass place awake past behind
  | sleepAgain round phaseNumberCp _ here incomplete =>
      rw [stays]
      refine holds.sleep place ?_ incomplete
      cases round <;> simp only [Stage] at before <;> omega
  | notify round _ behind => exact holds.notify place behind
  | remove => exact holds.remove place
  | spurious round phaseNumberCp =>
      rw [stays]
      exact holds.erase thread

omit [DecidableEq Tid] in
/-- No thread is left alone at the barrier: when all that have not been removed sleep, there are
none. -/
theorem Holds.none_present (holds : barrier.Holds pcs)
    (asleep : ∀ thread, (pcs thread).present = true → thread ∈ barrier.phaseCondition)
    (thread : Tid) : (pcs thread).present = false := by
  refine Bool.eq_false_of_not_eq_true fun present => ?_
  have waits (other : Tid) (here : (pcs other).present = true) :
      (pcs other).waitsIn barrier.phaseNumber = true := by
    refine Bool.eq_true_of_not_eq_false fun past => ?_
    obtain ⟨notifier, round, notifies⟩ := holds.released other (asleep other here) past
    have member := asleep notifier (by rw [notifies]; rfl)
    exact (holds.sleepers notifier member).2 round notifies
  have complete : barrier.entered = barrier.runningThreads := by
    rw [holds.entered, holds.running, Program.countThreads, Program.countThreads]
    congr 1
    ext other
    simp only [Finset.mem_filter, Finset.mem_univ, true_and]
    exact ⟨present_of_waitsIn, waits other⟩
  have positive : 0 < barrier.entered := by
    refine Nat.pos_of_ne_zero fun zero => ?_
    rw [holds.entered, Program.countThreads_eq_zero] at zero
    simpa [zero thread] using waits thread present
  have past := holds.full positive complete thread (asleep thread present)
  rw [waits thread present] at past
  simp at past

/-- The `CHECK` of the barrier: a thread that arrives is not counted yet. -/
theorem Holds.check {round : Round} (holds : barrier.Holds pcs)
    (place : pcs thread = .arriving round) : barrier.entered < barrier.runningThreads := by
  have waits := Program.countThreads_update (Pc.waitsIn barrier.phaseNumber) pcs thread
    (.waiting round barrier.phaseNumber)
  have presents := Program.countThreads_update Pc.present pcs thread
    (.waiting round barrier.phaseNumber)
  have fewer : Program.countThreads (Pc.waitsIn barrier.phaseNumber)
      (Function.update pcs thread (.waiting round barrier.phaseNumber)) ≤
        Program.countThreads Pc.present
          (Function.update pcs thread (.waiting round barrier.phaseNumber)) := by
    refine Finset.card_le_card fun other member => ?_
    simp only [Finset.mem_filter, Finset.mem_univ, true_and] at member ⊢
    exact present_of_waitsIn member
  rw [place] at waits presents
  simp only [Pc.present, Pc.waitsIn, beq_self_eq_true, Bool.toNat_true, Bool.toNat_false]
    at presents waits
  have running := holds.running
  have entered := holds.entered
  omega

end Barrier

end RunBenchmark
end ConcurrencyCourse
