import ConcurrencyCourse.RunBenchmark.StepCases

/-!
# What holds in a benchmark run

The barrier is used as it should be, nobody misses the end of the last thread, the results are the
sums of what the threads have added to them, and no `CHECK` fails.
-/

namespace ConcurrencyCourse
namespace RunBenchmark

variable {Tid Message Totals : Type*}

section EndOfRun

variable [DecidableEq Tid] [Fintype Tid] {main thread : Tid}
  {manager manager' : Manager Tid Message Totals} {pcs : Tid → Pc} {pc : Pc}

/-- Where the threads are at the end of the run. -/
structure EndHolds (main : Tid) (manager : Manager Tid Message Totals) (pcs : Tid → Pc) : Prop where
  alive : manager.aliveThreads = Program.countThreads Pc.alive pcs
  mainOnly : ∀ thread, (pcs thread).waitsForAll = true → thread = main
  mutex : manager.endMutex = true ↔ pcs main = .testing ∨ pcs main = .blocking
  sleeps : manager.endCondition = true → pcs main = .sleeping
  -- the main thread does not miss the last thread
  signals : manager.aliveThreads = 0 → pcs main = .blocking ∨ manager.endCondition = true →
    ∃ thread, pcs thread = .signalling

theorem alive_of_waitsForAll (waits : pc.waitsForAll = true) : pc.alive = false := by
  cases pc <;> first | rfl | simp [Pc.waitsForAll] at waits

omit [Fintype Tid] in
/-- A move from elsewhere to elsewhere leaves the question where the main thread is. -/
theorem update_eq_iff {target : Pc} (old : pcs thread ≠ target) (new : pc ≠ target) :
    Function.update pcs thread pc main = target ↔ pcs main = target := by
  by_cases self : main = thread
  · subst self
    simp [old, new]
  · rw [Function.update_of_ne self]

omit [Fintype Tid] in
theorem leaves_apart (main thread : Tid) : leaves main thread ≠ .testing ∧
    leaves main thread ≠ .blocking ∧ leaves main thread ≠ .sleeping ∧
    (leaves main thread).alive = false ∧
    ((leaves main thread).waitsForAll = true → thread = main) := by
  rcases leaves_cases main thread with ⟨leaves, self⟩ | leaves <;> rw [leaves]
  · simp [Pc.alive, self]
  · simp [Pc.alive, Pc.waitsForAll]

section Kept

variable (holds : EndHolds main manager pcs)
include holds

theorem EndHolds.mainOnly_update (fits : pc.waitsForAll = true → thread = main) (other : Tid)
    (waits : (Function.update pcs thread pc other).waitsForAll = true) : other = main := by
  by_cases same : other = thread
  · subst same
    exact fits (by simpa using waits)
  · exact holds.mainOnly other (by simpa [same] using waits)

omit [DecidableEq Tid] in
theorem EndHolds.not_endCondition (awake : pcs main ≠ .sleeping) :
    ¬ manager.endCondition = true :=
  fun asleep => awake (holds.sleeps asleep)

theorem EndHolds.quiet (living : (pcs thread).alive = true) (living' : pc.alive = true)
    (threads : manager'.aliveThreads = manager.aliveThreads)
    (mutex : manager'.endMutex = manager.endMutex)
    (condition : manager'.endCondition = manager.endCondition) :
    EndHolds main manager' (Function.update pcs thread pc) := by
  have count := Program.countThreads_update Pc.alive pcs thread pc
  rw [living, living'] at count
  have busy : 0 < manager.aliveThreads := by
    rw [holds.alive]
    refine Nat.pos_of_ne_zero fun zero => ?_
    rw [Program.countThreads_eq_zero] at zero
    simp [zero thread] at living
  have same (target : Pc) (dead : target.alive = false) :
      Function.update pcs thread pc main = target ↔ pcs main = target :=
    update_eq_iff (by rintro rfl; simp [dead] at living) (by rintro rfl; simp [dead] at living')
  refine ⟨by rw [threads, holds.alive]; omega, holds.mainOnly_update fun waits => ?_, ?_,
    fun asleep => ?_, fun none => by omega⟩
  · rw [alive_of_waitsForAll waits] at living'
    simp at living'
  · rw [mutex, same .testing rfl, same .blocking rfl]
    exact holds.mutex
  · exact (same .sleeping rfl).mpr (holds.sleeps (condition ▸ asleep))

/-- A thread is no longer alive; the last one is about to signal. -/
theorem EndHolds.complete (place : pcs thread = .completing) :
    EndHolds main { manager with aliveThreads := manager.aliveThreads - 1 }
      (Function.update pcs thread
        (if manager.aliveThreads - 1 = 0 then .signalling else leaves main thread)) := by
  have landed : (if manager.aliveThreads - 1 = 0 then Pc.signalling else leaves main thread) =
      .signalling ∨ manager.aliveThreads - 1 ≠ 0 ∧
      (if manager.aliveThreads - 1 = 0 then Pc.signalling else leaves main thread) =
        leaves main thread := by
    split
    · exact Or.inl rfl
    · exact Or.inr ⟨‹_›, rfl⟩
  generalize (if manager.aliveThreads - 1 = 0 then Pc.signalling else leaves main thread) = pc
    at landed ⊢
  obtain ⟨noTest, noBlock, noSleep, dead, fits⟩ : pc ≠ .testing ∧ pc ≠ .blocking ∧
      pc ≠ .sleeping ∧ pc.alive = false ∧ (pc.waitsForAll = true → thread = main) := by
    rcases landed with rfl | ⟨-, rfl⟩
    · simp [Pc.alive, Pc.waitsForAll]
    · exact leaves_apart main thread
  have alive := holds.alive
  have count := Program.countThreads_update Pc.alive pcs thread pc
  rw [place, dead] at count
  simp only [Pc.alive, Bool.toNat_false, Bool.toNat_true] at count
  refine ⟨by simp only; omega, holds.mainOnly_update fits, ?_, fun asleep => ?_, fun none _ => ?_⟩
  · rw [update_eq_iff (by simp [place]) noTest, update_eq_iff (by simp [place]) noBlock]
    exact holds.mutex
  · exact (update_eq_iff (by simp [place]) noSleep).mpr (holds.sleeps asleep)
  · rcases landed with rfl | ⟨left, -⟩
    · exact ⟨thread, Function.update_self ..⟩
    · exact absurd none left

/-- The main thread cannot be between its test and its wait while the last thread signals. -/
theorem EndHolds.signal (place : pcs thread = .signalling) (free : manager.endMutex = false) :
    EndHolds main { manager with endCondition := false }
      (Function.update pcs thread (leaves main thread)) := by
  obtain ⟨noTest, noBlock, noSleep, dead, fits⟩ := leaves_apart main thread
  have alive := holds.alive
  have count := Program.countThreads_update Pc.alive pcs thread (leaves main thread)
  rw [place, dead] at count
  simp only [Pc.alive, Bool.toNat_false] at count
  refine ⟨by simp only; omega, holds.mainOnly_update fits, ?_, by simp, fun _ late => ?_⟩
  · rw [update_eq_iff (by simp [place]) noTest, update_eq_iff (by simp [place]) noBlock]
    exact holds.mutex
  · have blocking := late.resolve_right (by simp)
    rw [update_eq_iff (by simp [place]) noBlock] at blocking
    rw [holds.mutex.mpr (Or.inr blocking)] at free
    simp at free

/-- A step of the main thread in `WaitForAllThreads`. -/
theorem EndHolds.waits (own : (pcs main).waitsForAll = true) (dead : pc.alive = false)
    (threads : manager'.aliveThreads = manager.aliveThreads)
    (mutex : manager'.endMutex = true ↔ pc = .testing ∨ pc = .blocking)
    (sleeps : manager'.endCondition = true → pc = .sleeping)
    (signals : manager'.aliveThreads = 0 → pc = .blocking ∨ manager'.endCondition = true →
      ∃ thread, pcs thread = .signalling) :
    EndHolds main manager' (Function.update pcs main pc) := by
  have count := Program.countThreads_update Pc.alive pcs main pc
  rw [alive_of_waitsForAll own, dead] at count
  refine ⟨by rw [threads, holds.alive]; omega, holds.mainOnly_update fun _ => rfl,
    by simpa using mutex, by simpa using sleeps, fun none late => ?_⟩
  obtain ⟨notifier, notifies⟩ := signals none (by simpa using late)
  have different : notifier ≠ main := by
    rintro rfl
    simp [notifies, Pc.waitsForAll] at own
  exact ⟨notifier, by rw [Function.update_of_ne different, notifies]⟩

theorem EndHolds.step (step : EndCase main thread manager (pcs thread) manager' pc) :
    EndHolds main manager' (Function.update pcs thread pc) := by
  generalize place : pcs thread = old at step
  have main_of (waits : old.waitsForAll = true) : thread = main :=
    holds.mainOnly thread (place ▸ waits)
  cases step with
  | quiet _ _ _ living living' threads mutex condition =>
      exact holds.quiet (place ▸ living) living' threads mutex condition
  | complete => exact holds.complete place
  | signal free => exact holds.signal place free
  | lock free =>
      obtain rfl := main_of rfl
      have awake := holds.not_endCondition (by simp [place])
      exact holds.waits (by rw [place]; rfl) rfl rfl (by simp) (absurd · awake) (by simp [awake])
  | done none_left =>
      obtain rfl := main_of rfl
      have awake := holds.not_endCondition (by simp [place])
      exact holds.waits (by rw [place]; rfl) rfl rfl (by simp) (absurd · awake) (by simp [awake])
  | test left =>
      obtain rfl := main_of rfl
      have awake := holds.not_endCondition (by simp [place])
      exact holds.waits (by rw [place]; rfl) rfl rfl (by simp [holds.mutex, place])
        (absurd · awake) (fun none => absurd none left)
  | block =>
      obtain rfl := main_of rfl
      exact holds.waits (by rw [place]; rfl) rfl rfl (by simp) (by simp)
        fun none _ => holds.signals none (Or.inl place)
  | rouse notified free =>
      obtain rfl := main_of rfl
      exact holds.waits (by rw [place]; rfl) rfl rfl (by simp) (by simp [notified])
        (by simp [notified])
  | spurious =>
      obtain rfl := main_of rfl
      have mutex : ¬ manager.endMutex = true := by simp [holds.mutex, place]
      exact holds.waits (by rw [place]; rfl) rfl rfl (by simp [mutex]) (by simp) (by simp)

end Kept

end EndOfRun

variable [DecidableEq Tid] [Fintype Tid] [AddCommMonoid Totals]
  {maxIterations : BitVec 64} {contribution : Tid → Totals} {main thread : Tid}
  {config before after : Program.Config Tid (Manager Tid Message Totals) (Local Message)}

/-- Where the threads are. -/
def pcs (config : Program.Config Tid (Manager Tid Message Totals) (Local Message)) (thread : Tid) :
    Pc := (config.threads thread).pc

/-- What holds in every state of a run. -/
structure Invariant (maxIterations : BitVec 64) (contribution : Tid → Totals) (main : Tid)
    (config : Program.Config Tid (Manager Tid Message Totals) (Local Message)) : Prop where
  barrier : config.shared.startStopBarrier.Holds (pcs config)
  ending : EndHolds main config.shared (pcs config)
  kept : ∀ thread, (config.threads thread).Kept maxIterations
  results : config.shared.results =
    ∑ thread with (pcs config thread).recorded = true, contribution thread
  reported : config.shared.errorMessage = none ↔ ∀ thread, (config.threads thread).error = none
  message : ∀ message, config.shared.errorMessage = some message →
    ∃ thread, (config.threads thread).error = some message
  sound : config.shared.aborted = false

omit [Fintype Tid] [AddCommMonoid Totals] in
theorem pcs_update (shared : Manager Tid Message Totals) (caller : Local Message) :
    pcs ⟨shared, Function.update before.threads thread caller⟩ =
      Function.update (pcs before) thread caller.pc := by
  funext other
  by_cases same : other = thread
  · subst same
    simp [pcs]
  · simp [pcs, same]

theorem invariant_initial
    (initial : (program maxIterations contribution main).system.Initial config) :
    Invariant maxIterations contribution main config := by
  obtain ⟨shared, threads⟩ := config
  obtain ⟨rfl, rfl⟩ : shared = newManager ∧ threads = fun _ => newThread maxIterations := initial
  have all (predicate : Pc → Bool) (holds : predicate .before = true) : Fintype.card Tid =
      Program.countThreads predicate fun _ : Tid => Pc.before := by
    simp [Program.countThreads, holds]
  have nobody : 0 = Program.countThreads (Pc.waitsIn 0) fun _ : Tid => Pc.before :=
    (Program.countThreads_eq_zero.mpr fun _ => rfl).symm
  refine ⟨⟨all _ rfl, nobody, fun _ => rfl, ?_, ?_, ?_⟩,
    ⟨all _ rfl, ?_, ?_, ?_, ?_⟩, fun _ => ⟨?_, ?_⟩, ?_, ?_, ?_, rfl⟩
  · simp [newManager]
  · simp [newManager]
  · simp [newManager]
  · simp [pcs, newThread, Pc.waitsForAll]
  · simp [newManager, pcs, newThread]
  · simp [newManager]
  · simp [newManager, pcs, newThread]
  · simp [newThread, Pc.pastLoop]
  · simp [newThread, Pc.toIterate]
  · simp [newManager, pcs, newThread, Pc.recorded, Pc.present]
  · simp [newManager, newThread]
  · simp [newManager]

theorem results_of_adds {shared : Manager Tid Message Totals} {caller : Local Message}
    (results : before.shared.results =
      ∑ thread with (pcs before thread).recorded = true, contribution thread)
    (adds : Adds contribution thread before.shared (before.threads thread) shared caller) :
    shared.results = ∑ other with (Function.update (pcs before) thread caller.pc other).recorded =
      true, contribution other := by
  rcases adds.results with ⟨same, recorded⟩ | ⟨more, missing, recorded⟩
  · rw [same, results]
    refine Finset.sum_congr (Finset.filter_congr fun other _ => ?_) fun _ _ => rfl
    by_cases self : other = thread
    · subst self
      rw [Function.update_self, recorded]
      rfl
    · rw [Function.update_of_ne self]
  · have grown : Finset.univ.filter (fun other =>
        (Function.update (pcs before) thread caller.pc other).recorded = true) =
        insert thread (Finset.univ.filter fun other => (pcs before other).recorded = true) := by
      ext other
      simp only [Finset.mem_filter, Finset.mem_univ, true_and, Finset.mem_insert]
      by_cases self : other = thread
      · subst self
        simp [recorded]
      · simp [self]
    have new : thread ∉ Finset.univ.filter fun other => (pcs before other).recorded = true := by
      intro member
      have recorded : (before.threads thread).pc.recorded = true := (Finset.mem_filter.mp member).2
      rw [missing] at recorded
      simp at recorded
    rw [more, results, grown, Finset.sum_insert new, add_comm]

theorem Invariant.step {label : Tid × Action Message}
    (invariant : Invariant maxIterations contribution main before)
    (step : (program maxIterations contribution main).system.Step before label after) :
    Invariant maxIterations contribution main after := by
  obtain ⟨thread, action⟩ := label
  obtain ⟨shared, caller, taken, rfl⟩ := Program.system_step_iff.mp step
  have taken : threadStep maxIterations contribution main thread action before.shared
    (before.threads thread) = some (shared, caller) := taken
  obtain ⟨sound, stepCase⟩ := threadStep_cases taken
  obtain ⟨kept, adds⟩ := stepCase.adds sound (invariant.kept thread)
    fun round place => invariant.barrier.check place
  have others (other : Tid) (different : other ≠ thread) :
      Function.update before.threads thread caller other = before.threads other :=
    Function.update_of_ne different _ _
  refine ⟨?_, ?_, fun other => ?_, ?_, ?_, fun message first => ?_, adds.sound⟩
  · rw [pcs_update]
    exact invariant.barrier.step (stepCase.barrier adds.sound)
  · rw [pcs_update]
    exact invariant.ending.step stepCase.ending
  · by_cases same : other = thread
    · subst same
      simpa using kept
    · simpa [same] using invariant.kept other
  · rw [pcs_update]
    exact results_of_adds invariant.results adds
  · rcases adds.errors with ⟨same, error⟩ | ⟨message, -, error, reported⟩
    · simp only [same, invariant.reported]
      refine forall_congr' fun other => ?_
      by_cases self : other = thread
      · subst self
        simp [error]
      · simp [self]
    · simp only [reported, reduceCtorEq, false_iff, not_forall]
      exact ⟨thread, by simp [error]⟩
  · rcases adds.errors with ⟨same, error⟩ | ⟨latest, none, error, reported⟩
    · obtain ⟨reporter, reports⟩ := invariant.message message (same ▸ first)
      refine ⟨reporter, ?_⟩
      by_cases self : reporter = thread
      · subst self
        simpa [error] using reports
      · simpa [self] using reports
    · cases earlier : before.shared.errorMessage with
      | none =>
          refine ⟨thread, ?_⟩
          rw [reported, earlier] at first
          simpa [error] using first
      | some kept =>
          obtain ⟨reporter, reports⟩ := invariant.message kept earlier
          have different : reporter ≠ thread := by
            rintro rfl
            simp [none] at reports
          refine ⟨reporter, ?_⟩
          rw [reported, earlier] at first
          simpa [different, reports] using first

theorem invariant_of_reachable
    (reach : (program maxIterations contribution main).system.Reachable config) :
    Invariant maxIterations contribution main config :=
  reach.invariant invariant_initial fun _ invariant step => invariant.step step

end RunBenchmark
end ConcurrencyCourse
