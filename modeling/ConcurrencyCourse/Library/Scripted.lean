import ConcurrencyCourse.Library.Interleaving

/-!
# Threads that work through lists of calls

In a program some actions of a thread begin a call.  Its scripted form gives each thread a list of
calls that it makes in this order, one after the other, and nothing else: the body of a thread that
uses an object.  Forgetting the lists turns every run of the scripted program into a run of the
program.
-/

namespace Program

variable {Tid Action Shared Local Op : Type*}

/-- The calls that are left after an action; `none` when the next call is another one. -/
def advance [DecidableEq Op] (called : Option Op) (todo : List Op) : Option (List Op) :=
  match called, todo with
  | none, todo => some todo
  | some op, next :: todo => if next = op then some todo else none
  | some _, [] => none

theorem advance_eq_some [DecidableEq Op] {called : Option Op} {todo todo' : List Op} :
    advance called todo = some todo' ↔ todo = called.toList ++ todo' := by
  cases called with
  | none => simp [advance]
  | some op =>
      cases todo with
      | nil => simp [advance]
      | cons next todo => by_cases same : next = op <;> simp [advance, same]

/-- Every thread makes the calls of its script, in order. -/
def scripted [DecidableEq Op] (program : Program Tid Action Shared Local)
    (called : Action → Option Op) (script : Tid → List Op) :
    Program Tid Action Shared (List Op × Local) where
  Initial shared threads := program.Initial shared (fun thread => (threads thread).2) ∧
    ∀ thread, (threads thread).1 = script thread
  step thread action shared local' :=
    (advance (called action) local'.1).bind fun todo =>
      (program.step thread action shared local'.2).map fun result => (result.1, todo, result.2)

namespace Config

/-- Forget the calls to come. -/
def base (config : Config Tid Shared (List Op × Local)) : Config Tid Shared Local where
  shared := config.shared
  threads thread := (config.threads thread).2

/-- The calls that a thread has still to make. -/
def todo (config : Config Tid Shared (List Op × Local)) (thread : Tid) : List Op :=
  (config.threads thread).1

end Config

variable [DecidableEq Tid] [DecidableEq Op] {program : Program Tid Action Shared Local}
  {called : Action → Option Op} {script : Tid → List Op}

/-- A step of the scripted program is a step of the program that begins the next call or none. -/
theorem scripted_step_iff {before after : Config Tid Shared (List Op × Local)} {thread : Tid}
    {action : Action} :
    (program.scripted called script).system.Step before (thread, action) after ↔
      program.system.Step before.base (thread, action) after.base ∧
        before.todo thread = (called action).toList ++ after.todo thread ∧
        ∀ other, other ≠ thread → after.todo other = before.todo other := by
  simp only [system_step_iff, scripted, Option.bind_eq_some_iff, Option.map_eq_some_iff,
    advance_eq_some, Prod.mk.injEq]
  constructor
  · rintro ⟨shared, local', ⟨todo, split, ⟨shared', pc⟩, step, rfl, rfl⟩, rfl⟩
    refine ⟨⟨shared', pc, step, ?_⟩, ?_, fun other foreign => ?_⟩
    · simp only [Config.base, Config.mk.injEq, true_and]
      funext other
      by_cases same : other = thread
      · subst same
        simp
      · simp [same]
    · simpa [Config.todo] using split
    · simp [Config.todo, foreign]
  · rintro ⟨⟨shared, pc, step, same⟩, split, others⟩
    refine ⟨shared, (after.todo thread, pc), ⟨_, split, _, step, rfl, rfl⟩, ?_⟩
    obtain ⟨shared', threads⟩ := after
    simp only [Config.base, Config.mk.injEq] at same
    obtain ⟨rfl, own⟩ := same
    simp only [Config.mk.injEq, true_and]
    funext other
    have local' := congrFun own other
    by_cases same : other = thread
    · subst same
      simpa [Prod.ext_iff, Config.todo] using local'
    · have kept := others other same
      simp_all [Prod.ext_iff, Config.todo, Config.base]

variable (called script) in
theorem exists_scripted_step {before : Config Tid Shared (List Op × Local)}
    {next : Config Tid Shared Local} {thread : Tid} {action : Action} (rest : List Op)
    (step : program.system.Step before.base (thread, action) next)
    (todo : before.todo thread = (called action).toList ++ rest) :
    ∃ after, (program.scripted called script).system.Step before (thread, action) after ∧
      after.base = next := by
  let after : Config Tid Shared (List Op × Local) :=
    ⟨next.shared, fun other =>
      (if other = thread then rest else before.todo other, next.threads other)⟩
  refine ⟨after, scripted_step_iff.mpr ⟨step, ?_, fun other foreign => ?_⟩, rfl⟩
  · simpa [after, Config.todo] using todo
  · simp [after, Config.todo, foreign]

theorem reachable_base
    (allowed : Config Tid Shared Local → Tid × Action → Config Tid Shared Local → Prop)
    {config : Config Tid Shared (List Op × Local)}
    (reach : ((program.scripted called script).system.restrict fun before label after =>
      allowed before.base label after.base).Reachable config) :
    (program.system.restrict allowed).Reachable config.base := by
  induction reach with
  | initial start => exact .initial start.1
  | @step before after label _ step ih =>
      exact .step ih ⟨(scripted_step_iff.mp step.1).1, step.2⟩

end Program
