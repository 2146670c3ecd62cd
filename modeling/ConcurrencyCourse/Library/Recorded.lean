import ConcurrencyCourse.Library.AtomicObject
import ConcurrencyCourse.Library.Interleaving

/-!
# Programs that record their calls and returns

A program whose threads call operations is observed through the history of its calls and returns.
The recorded program keeps this history beside the shared state.  If every step of a thread either
changes nothing that can be observed, or is a call, the effect of its operation, or a return, then
each history is one of the atomic object.
-/

namespace Program

open AtomicObject (Event Status)

variable {Tid Action Shared Local Value Op Ret : Type*}

/-- Append what each step shows to a history. -/
def recorded (program : Program Tid Action Shared Local)
    (event : Tid → Action → Local → Option (Event Tid Op Ret)) :
    Program Tid Action (Shared × List (Event Tid Op Ret)) Local where
  Initial shared threads := program.Initial shared.1 threads ∧ shared.2 = []
  step thread action shared local' :=
    (program.step thread action shared.1 local').map fun result =>
      ((result.1, shared.2 ++ (event thread action local').toList), result.2)

namespace Config

/-- Forget the history. -/
def unrecorded (config : Config Tid (Shared × List (Event Tid Op Ret)) Local) :
    Config Tid Shared Local :=
  ⟨config.shared.1, config.threads⟩

@[simp] theorem unrecorded_threads (config : Config Tid (Shared × List (Event Tid Op Ret)) Local) :
    config.unrecorded.threads = config.threads := rfl

end Config

/-- What one step of a thread is for an object: nothing, a call, an effect or a return. -/
inductive Linear (object : SequentialObject Value Op Ret) (thread : Tid) :
    Option (Event Tid Op Ret) → Status Op Ret → Value → Status Op Ret → Value → Prop
  | quiet (status : Status Op Ret) (value : Value) :
      Linear object thread none status value status value
  | call (op : Op) (value : Value) :
      Linear object thread (some (.call thread op)) .idle value (.pending op) value
  | effect {op : Op} {result : Ret} {value value' : Value} :
      object.apply value op result value' →
      Linear object thread none (.pending op) value (.finished result) value'
  | ret (result : Ret) (value : Value) :
      Linear object thread (some (.ret thread result)) (.finished result) value .idle value

variable [DecidableEq Tid] {program : Program Tid Action Shared Local}
  {event : Tid → Action → Local → Option (Event Tid Op Ret)}

/-- A step of the recorded program is a step of the program that appends its event. -/
theorem recorded_step_iff {before after : Config Tid (Shared × List (Event Tid Op Ret)) Local}
    {thread : Tid} {action : Action} :
    (program.recorded event).system.Step before (thread, action) after ↔
      program.system.Step before.unrecorded (thread, action) after.unrecorded ∧
        after.shared.2 =
          before.shared.2 ++ (event thread action (before.threads thread)).toList := by
  obtain ⟨⟨shared, history⟩, threads⟩ := before
  obtain ⟨⟨shared', history'⟩, threads'⟩ := after
  simp only [system_step_iff, recorded, Config.unrecorded, Option.map_eq_some_iff, Prod.exists,
    Prod.mk.injEq, Config.mk.injEq]
  constructor
  · rintro ⟨_, _, local', ⟨_, _, step, ⟨rfl, rfl⟩, rfl⟩, ⟨rfl, rfl⟩, rfl⟩
    exact ⟨⟨_, _, step, rfl, rfl⟩, rfl⟩
  · rintro ⟨⟨_, _, step, rfl, rfl⟩, rfl⟩
    exact ⟨_, _, _, ⟨_, _, step, ⟨rfl, rfl⟩, rfl⟩, ⟨rfl, rfl⟩, rfl⟩

theorem reachable_unrecorded
    (allowed : Config Tid Shared Local → Tid × Action → Config Tid Shared Local → Prop)
    {config : Config Tid (Shared × List (Event Tid Op Ret)) Local}
    (reach : ((program.recorded event).system.restrict fun before label after =>
      allowed before.unrecorded label after.unrecorded).Reachable config) :
    (program.system.restrict allowed).Reachable config.unrecorded := by
  induction reach with
  | initial start => exact .initial start.1
  | @step before after label _ step ih =>
      exact .step ih ⟨(recorded_step_iff.mp step.1).1, step.2⟩

theorem Linear.step {object : SequentialObject Value Op Ret} {thread : Tid}
    {shown : Option (Event Tid Op Ret)} {status status' : Status Op Ret} {value value' : Value}
    {progress : Tid → Status Op Ret}
    (point : Linear object thread shown status value status' value')
    (mine : progress thread = status) (past : List (Event Tid Op Ret)) :
    (value' = value ∧ status' = status ∧ shown = none) ∨
      AtomicObject.Step object ⟨value, progress, past⟩
        ⟨value', Function.update progress thread status', past ++ shown.toList⟩ := by
  cases point with
  | quiet => exact Or.inl ⟨rfl, rfl, rfl⟩
  | call op => exact Or.inr (.call op mine)
  | effect applied =>
      rw [Option.toList_none, List.append_nil]
      exact Or.inr (.effect _ _ mine applied)
  | ret => exact Or.inr (.ret mine)

/-- The rule for linearization points: one case for each step of a thread. -/
theorem exists_atomic_of_linear {object : SequentialObject Value Op Ret}
    (allowed : Config Tid Shared Local → Tid × Action → Config Tid Shared Local → Prop)
    (status : Local → Status Op Ret) (value : Config Tid Shared Local → Value)
    (base : ∀ {config}, program.system.Initial config →
      value config = object.initial ∧ ∀ thread, status (config.threads thread) = .idle)
    (linear : ∀ {before thread action after},
      (program.system.restrict allowed).Reachable before →
      (program.system.restrict allowed).Step before (thread, action) after →
      Linear object thread (event thread action (before.threads thread))
        (status (before.threads thread)) (value before) (status (after.threads thread))
        (value after))
    {config : Config Tid (Shared × List (Event Tid Op Ret)) Local}
    (reach : ((program.recorded event).system.restrict fun before label after =>
      allowed before.unrecorded label after.unrecorded).Reachable config) :
    ∃ state, (AtomicObject.system Tid object).Reachable state ∧
      state.value = value config.unrecorded ∧ state.history = config.shared.2 ∧
      ∀ thread, state.status thread = status (config.threads thread) := by
  refine AtomicObject.exists_of_simulation (fun config state =>
    state.value = value config.unrecorded ∧ state.history = config.shared.2 ∧
      ∀ thread, state.status thread = status (config.threads thread)) ?_ ?_ reach
  · rintro start ⟨initial, history⟩
    have begins : program.system.Initial start.unrecorded := initial
    obtain ⟨new, idle⟩ := base begins
    exact ⟨new.symm, history.symm, fun thread => (idle thread).symm⟩
  · rintro before ⟨thread, action⟩ after ⟨current, progress, past⟩ earlier
      ⟨rfl, rfl, sameStatus⟩ ⟨taken, permitted⟩
    obtain ⟨step, history⟩ := recorded_step_iff.mp taken
    obtain ⟨shared, local', -, moved⟩ := system_step_iff.mp step
    have threads : after.threads = Function.update before.threads thread local' :=
      congrArg Config.threads moved
    have point := linear (reachable_unrecorded allowed earlier) ⟨step, permitted⟩
    simp only [Config.unrecorded_threads] at point
    have statuses (other : Tid) :
        Function.update progress thread (status (after.threads thread)) other =
          status (after.threads other) := by
      by_cases same : other = thread
      · subst same
        simp
      · simpa [threads, same] using sameStatus other
    rcases point.step (sameStatus thread) before.shared.2 with ⟨value, own, shows⟩ | effect
    · refine Or.inl ⟨value.symm, ?_, fun other => ?_⟩
      · rw [history, shows, Option.toList_none, List.append_nil]
      · rw [← statuses other, own, ← sameStatus thread, Function.update_eq_self]
    · exact Or.inr ⟨_, effect, rfl, history.symm, statuses⟩

end Program
