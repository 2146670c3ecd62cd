import ConcurrencyCourse.RunBenchmark.Invariant
import Mathlib.Data.BitVec

/-!
# The end of a benchmark run

The threads run their loops together, every run comes to its end, and the results are complete by
then.
-/

namespace ConcurrencyCourse
namespace RunBenchmark

variable {Tid Message Totals : Type*} [DecidableEq Tid] [Fintype Tid] [AddCommMonoid Totals]
  {maxIterations : BitVec 64} {contribution : Tid → Totals} {main thread : Tid}
  {config before after : Program.Config Tid (Manager Tid Message Totals) (Local Message)}

/-- A bound on the steps of a thread.  A wake-up of all costs as much as there are threads, and one
of the main thread three. -/
def Pc.weight (threads iterations : Nat) : Pc → Nat
  | .finished => 0
  | .blocking => 1
  | .testing => 2
  | .locking | .sleeping => 3
  | .signalling => 7
  | .completing => 8
  | .removing => threads + 9
  | .returned => threads + 10
  | .after => threads + 11
  | .notifying .stop => 2 * threads + 12
  | .waiting .stop _ => 2 * threads + 13
  | .arriving .stop => 2 * threads + 14
  | .looping cached => 2 * threads + 15 + cached
  | .notifying .start => 3 * threads + 16 + iterations
  | .waiting .start _ => 3 * threads + 17 + iterations
  | .arriving .start => 3 * threads + 18 + iterations
  | .before => 3 * threads + 19 + iterations

/-- The position of a thread, and the error that it may still report. -/
def Local.weight (threads iterations : Nat) (caller : Local Message) : Nat :=
  caller.pc.weight threads iterations + caller.error.isNone.toNat

/-- The threads that are awake. -/
def Manager.awake (manager : Manager Tid Message Totals) : Nat :=
  (Fintype.card Tid - manager.startStopBarrier.phaseCondition.card) +
    if manager.endCondition then 0 else 3

/-- A bound on the steps of all threads. -/
def rank (maxIterations : BitVec 64)
    (config : Program.Config Tid (Manager Tid Message Totals) (Local Message)) : Nat :=
  Program.sumThreads (Local.weight (Fintype.card Tid) maxIterations.toNat) config.threads +
    config.shared.awake

/-- Only a spurious wake-up raises the bound. -/
def noise : Action Message → Bool
  | .wakeSpuriously => true
  | _ => false

omit [AddCommMonoid Totals] in
theorem weight_passed (caller : Local Message) (round : Round) (threads : Nat) (pc : Pc)
    (behind : pc = caller.passed maxIterations round) :
    pc.weight threads maxIterations.toNat + threads + 1 ≤
      (Pc.notifying round).weight threads maxIterations.toNat := by
  subst behind
  cases round with
  | start =>
      simp only [Local.passed, Pc.weight]
      split <;> omega
  | stop =>
      simp only [Local.passed, Pc.weight]
      omega

theorem weight_step {action : Action Message} {manager manager' : Manager Tid Message Totals}
    {caller caller' : Local Message}
    (step : StepCase maxIterations contribution main thread manager caller action manager' caller')
    (sound : manager'.aborted = false)
    (awake : caller.pc = .blocking → manager.endCondition = false) :
    caller'.weight (Fintype.card Tid) maxIterations.toNat + manager'.awake + 1 ≤
      caller.weight (Fintype.card Tid) maxIterations.toNat + manager.awake +
        4 * (noise action).toNat := by
  have few := Finset.card_le_univ manager.startStopBarrier.phaseCondition
  cases step with
  | crowded | uneven => simp at sound
  | start place | iterate _ place | finish place | record place | test place =>
      simp only [Local.weight, place, Pc.weight, Manager.awake]
      omega
  | enter round place early =>
      have grown := Finset.card_le_card
        (Finset.subset_insert thread manager.startStopBarrier.phaseCondition)
      cases round <;> simp only [Local.weight, place, Pc.weight, Manager.awake] <;> omega
  | last round place | lastAwake round _ place =>
      cases round <;>
        simp only [Local.weight, place, Pc.weight, Manager.awake, Barrier.nextPhase] <;> omega
  | pass round phaseNumberCp place awake past =>
      have less := weight_passed caller round (Fintype.card Tid)
        (caller.passed maxIterations round) rfl
      have more : (Pc.notifying round).weight (Fintype.card Tid) maxIterations.toNat + 1 =
          (Pc.waiting round phaseNumberCp).weight (Fintype.card Tid) maxIterations.toNat := by
        cases round <;> simp only [Pc.weight]
        omega
      simp only [Local.weight, place, Manager.awake]
      omega
  | sleepAgain round phaseNumberCp place awake =>
      have grown := Finset.card_insert_of_notMem awake
      have fewer := Finset.card_le_univ (insert thread manager.startStopBarrier.phaseCondition)
      simp only [Local.weight, place, Manager.awake, Barrier.sleep]
      omega
  | notify round place =>
      have less := weight_passed caller round (Fintype.card Tid)
        (caller.passed maxIterations round) rfl
      simp only [Local.weight, place, Manager.awake, Barrier.notifyAll, Finset.card_empty]
      omega
  | remove place =>
      simp only [Local.weight, place, Pc.weight, Manager.awake, Barrier.removeThread]
      split_ifs <;> simp only [Barrier.notifyAll, Finset.card_empty] <;> omega
  | complete place =>
      simp only [Local.weight, place, Manager.awake]
      rcases leaves_cases main thread with ⟨leaves, -⟩ | leaves <;> simp only [leaves] <;>
        split_ifs <;> simp only [Pc.weight] <;> omega
  | signal place =>
      simp only [Local.weight, place, Manager.awake]
      rcases leaves_cases main thread with ⟨leaves, -⟩ | leaves <;>
        simp only [leaves, Pc.weight] <;> split_ifs <;> omega
  | lock place | done place | rouse place =>
      simp only [Local.weight, place, Pc.weight, Manager.awake]
      omega
  | block place =>
      simp only [Local.weight, place, Pc.weight, Manager.awake, awake place, Bool.false_eq_true,
        if_true, if_false]
      omega
  | skip message inside none =>
      have same : (manager.report message).awake = manager.awake := rfl
      simp only [Local.weight, none, same, Option.isNone_none, Option.isNone_some,
        Bool.toNat_true, Bool.toNat_false]
      omega
  | leave inside =>
      have less : Pc.returned.weight (Fintype.card Tid) maxIterations.toNat + 1 ≤
          caller.pc.weight (Fintype.card Tid) maxIterations.toNat := by
        cases place : caller.pc <;> first
          | (simp only [Pc.weight]; omega)
          | simp [place, Pc.inFunction] at inside
      simp only [Local.weight]
      omega
  | spurious =>
      have less := Finset.pred_card_le_card_erase (s := manager.startStopBarrier.phaseCondition)
        (a := thread)
      simp only [Manager.awake, noise, Bool.toNat_true]
      omega
  | spuriousEnd =>
      simp only [Manager.awake, noise, Bool.toNat_true]
      split_ifs <;> omega

theorem rank_step {label : Tid × Action Message}
    (invariant : Invariant maxIterations contribution main before)
    (step : (program maxIterations contribution main).system.Step before label after) :
    rank maxIterations after + 1 ≤ rank maxIterations before + 4 * (noise label.2).toNat := by
  have later := invariant.step step
  obtain ⟨thread, action⟩ := label
  obtain ⟨shared, caller, taken, rfl⟩ := Program.system_step_iff.mp step
  have awake : (before.threads thread).pc = .blocking → before.shared.endCondition = false := by
    intro blocking
    have self : thread = main := invariant.ending.mainOnly thread (by rw [pcs, blocking]; rfl)
    refine Bool.eq_false_of_not_eq_true fun asleep => ?_
    have sleeping := invariant.ending.sleeps asleep
    rw [← self, pcs, blocking] at sleeping
    cases sleeping
  have less := weight_step (threadStep_cases taken).2 later.sound awake
  have change := Program.sumThreads_update
    (Local.weight (Fintype.card Tid) maxIterations.toNat) before.threads thread caller
  simp only [rank]
  omega

omit [Fintype Tid] in
variable (maxIterations contribution main) in
theorem finished_or_waiting {manager : Manager Tid Message Totals} {caller : Local Message}
    (sound : manager.aborted = false)
    (stuck : ∀ action, noise action = false →
      threadStep maxIterations contribution main thread action manager caller = none) :
    caller.pc = .finished ∨
    ((∃ round phaseNumberCp, caller.pc = .waiting round phaseNumberCp) ∧
      thread ∈ manager.startStopBarrier.phaseCondition) ∨
    (caller.pc = .sleeping ∧ (manager.endCondition = true ∨ manager.endMutex = true)) ∨
    ((caller.pc = .signalling ∨ caller.pc = .locking) ∧ manager.endMutex = true) := by
  have running : runStep maxIterations contribution main thread manager caller = none := by
    simpa [threadStep, sound] using stuck .run rfl
  cases place : caller.pc with
  | before | notifying round | removing | completing | blocking => simp [runStep, place] at running
  | arriving round =>
      simp only [runStep, place] at running
      split at running <;> simp at running
  | waiting round phaseNumberCp =>
      refine Or.inr (Or.inl ⟨⟨round, phaseNumberCp, rfl⟩, ?_⟩)
      by_contra awake
      simp [runStep, place, awake] at running
  | looping cached => cases cached <;> simp [runStep, place] at running
  | after =>
      have leaving := stuck .leave rfl
      simp [threadStep, sound, place] at leaving
  | returned | testing =>
      simp only [runStep, place] at running
      split at running <;> simp at running
  | signalling =>
      refine Or.inr (Or.inr (Or.inr ⟨Or.inl rfl, ?_⟩))
      by_contra free
      simp [runStep, place, free] at running
  | locking =>
      refine Or.inr (Or.inr (Or.inr ⟨Or.inr rfl, ?_⟩))
      by_contra free
      simp [runStep, place, free] at running
  | sleeping =>
      refine Or.inr (Or.inr (Or.inl ⟨rfl, ?_⟩))
      by_contra free
      rw [not_or, Bool.not_eq_true, Bool.not_eq_true] at free
      simp [runStep, place, free.1, free.2] at running
  | finished => exact Or.inl rfl

/-- Where only a spurious wake-up is possible, every thread has finished. -/
theorem finished_of_stuck (invariant : Invariant maxIterations contribution main config)
    (stuck : ∀ label next, (program maxIterations contribution main).system.Step config label next →
      noise label.2 = true) (thread : Tid) : pcs config thread = .finished := by
  have still (other : Tid) : pcs config other = .finished ∨
      ((∃ round phaseNumberCp, pcs config other = .waiting round phaseNumberCp) ∧
        other ∈ config.shared.startStopBarrier.phaseCondition) ∨
      (pcs config other = .sleeping ∧
        (config.shared.endCondition = true ∨ config.shared.endMutex = true)) ∨
      ((pcs config other = .signalling ∨ pcs config other = .locking) ∧
        config.shared.endMutex = true) := by
    refine finished_or_waiting maxIterations contribution main invariant.sound
      fun action quiet => ?_
    cases taken : threadStep maxIterations contribution main other action config.shared
        (config.threads other) with
    | none => rfl
    | some result =>
        have step := stuck (other, action) _
          (Program.system_step_iff.mpr ⟨result.1, result.2, taken, rfl⟩)
        rw [quiet] at step
        simp at step
  -- the main thread would go on if it held the mutex
  have free : config.shared.endMutex = false := by
    refine Bool.eq_false_of_not_eq_true fun held => ?_
    rcases invariant.ending.mutex.mp held with place | place <;> simpa [place] using still main
  have absent (other : Tid) : (pcs config other).present = false := by
    refine invariant.barrier.none_present (fun other present => ?_) other
    rcases still other with place | ⟨-, member⟩ | ⟨place, -⟩ | ⟨-, held⟩
    · simp [place, Pc.present] at present
    · exact member
    · simp [place, Pc.present] at present
    · simp [free] at held
  have dead (other : Tid) : (pcs config other).alive = false := by
    rcases still other with place | ⟨⟨round, phaseNumberCp, place⟩, -⟩ | ⟨place, -⟩ | ⟨-, held⟩
    · rw [place]
      rfl
    · have gone := absent other
      simp [place, Pc.present] at gone
    · rw [place]
      rfl
    · simp [free] at held
  rcases still thread with place | ⟨⟨round, phaseNumberCp, place⟩, -⟩ | ⟨-, asleep | held⟩ |
    ⟨-, held⟩
  · exact place
  · have gone := absent thread
    simp [place, Pc.present] at gone
  · -- nobody is left to wake the main thread
    have none_left : config.shared.aliveThreads = 0 := by
      rw [invariant.ending.alive]
      exact Program.countThreads_eq_zero.mpr dead
    obtain ⟨notifier, signalling⟩ := invariant.ending.signals none_left (Or.inr asleep)
    simpa [signalling, free] using still notifier
  · simp [free] at held
  · simp [free] at held

theorem final_finished : ForkJoin.Final
    (program maxIterations contribution main : Program Tid (Action Message) _ _)
    Local.finished := by
  intro thread action manager caller ended
  have place : caller.pc = .finished := by simpa [Local.finished] using ended
  cases action <;> simp [program, threadStep, runStep, place, Pc.inFunction]

/-- What a run has come to at its end. -/
structure Completed (maxIterations : BitVec 64) (contribution : Tid → Totals)
    (state : ForkJoin.State Tid (Manager Tid Message Totals) (Local Message)) : Prop where
  commands : state.commands = []
  finished : ∀ thread, pcs state.config thread = .finished
  sound : state.config.shared.aborted = false
  results : state.config.shared.results = ∑ thread, contribution thread
  reported : state.config.shared.errorMessage = none ↔
    ∀ thread, (state.config.threads thread).error = none
  message : ∀ message, state.config.shared.errorMessage = some message →
    ∃ thread, (state.config.threads thread).error = some message
  iterated : ∀ thread, (state.config.threads thread).error = none →
    (state.config.threads thread).iterated = maxIterations.toNat

/-- Two threads that iterate five times each. -/
def twoThreads : TransitionSystem
    (ForkJoin.State Bool (Manager Bool (List Char) (BitVec 64)) (Local (List Char)))
    (ForkJoin.Label Bool (Action (List Char))) :=
  benchmarkRun 5 (fun _ => 3) false [true]

/-- The start of their run. -/
def twoStart :
    ForkJoin.State Bool (Manager Bool (List Char) (BitVec 64)) (Local (List Char)) :=
  ⟨⟨newManager, fun _ => newThread 5⟩, ∅, ForkJoin.startThenJoin [true, false] [false, true]⟩

/-- The thread has not come to the first round of the barrier. -/
def Pc.beforeStart : Pc → Bool
  | .before | .arriving .start => true
  | _ => false

/-- The thread has not come to the second round of the barrier, and still may. -/
def Pc.beforeStop : Pc → Bool
  | .before | .arriving _ | .waiting .start _ | .notifying .start | .looping _ => true
  | _ => false

end RunBenchmark
end ConcurrencyCourse
