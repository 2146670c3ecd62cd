import Mathlib.Logic.Relation

/-!
# Labelled transition systems

Reachability, finite runs and inductive invariants of a system whose steps carry labels.
Conditions on the steps of a run are expressed by restricting the system: a run of
`system.restrict allowed` is exactly a run of `system` all of whose steps are allowed.
-/

/-- A transition system with labelled steps. -/
structure TransitionSystem (State : Type*) (Label : Type*) where
  /-- States in which a run may start. -/
  Initial : State → Prop
  /-- One labelled step. -/
  Step : State → Label → State → Prop

namespace TransitionSystem

variable {State Label : Type*} {system : TransitionSystem State Label}

/-- States reached by finitely many steps from an initial state. -/
inductive Reachable (system : TransitionSystem State Label) : State → Prop
  | initial {state : State} : system.Initial state → Reachable system state
  | step {before after : State} {label : Label} :
      Reachable system before → system.Step before label after → Reachable system after

/-- A finite run, with the labels of its steps in order. -/
inductive Run (system : TransitionSystem State Label) (start : State) :
    List Label → State → Prop
  | nil : Run system start [] start
  | snoc {trace : List Label} {before after : State} {label : Label} :
      Run system start trace before → system.Step before label after →
      Run system start (trace ++ [label]) after

namespace Run

theorem cons {start middle after : State} {label : Label} {trace : List Label}
    (step : system.Step start label middle) (run : system.Run middle trace after) :
    system.Run start (label :: trace) after := by
  induction run with
  | nil => exact .snoc .nil step
  | snoc _ last ih => exact .snoc ih last

theorem step_of_single {start after : State} {label : Label}
    (run : system.Run start [label] after) : system.Step start label after := by
  generalize labels : [label] = trace at run
  cases run with
  | nil => simp at labels
  | snoc earlier last =>
      rename_i before label'
      cases earlier with
      | nil =>
          obtain rfl : label = label' := by simpa using labels
          exact last
      | snoc =>
          have lengths := congrArg List.length labels
          simp at lengths

theorem eq_or_exists_cons {start after : State} {trace : List Label}
    (run : system.Run start trace after) : (trace = [] ∧ start = after) ∨
      ∃ label middle rest, trace = label :: rest ∧ system.Step start label middle ∧
        system.Run middle rest after := by
  induction run with
  | nil => exact Or.inl ⟨rfl, rfl⟩
  | @snoc trace before after last _ step ih =>
      right
      rcases ih with ⟨rfl, rfl⟩ | ⟨label, middle, rest, rfl, first, later⟩
      · exact ⟨last, after, [], rfl, step, .nil⟩
      · exact ⟨label, middle, rest ++ [last], rfl, first, later.snoc step⟩

/-- A run is no longer than the rank that each of its steps lowers. -/
theorem length_add_rank_le {motive : State → Prop} {rank : State → Nat} {start after : State}
    {trace : List Label} (run : system.Run start trace after) (base : motive start)
    (lowers : ∀ {before label next}, motive before → system.Step before label next →
      motive next ∧ rank next < rank before) :
    motive after ∧ trace.length + rank after ≤ rank start := by
  induction run with
  | nil => exact ⟨base, by simp⟩
  | snoc _ step ih =>
      obtain ⟨kept, less⟩ := lowers ih.1 step
      refine ⟨kept, ?_⟩
      rw [List.length_append, List.length_singleton]
      omega

theorem reachable {start after : State} {trace : List Label}
    (reach : system.Reachable start) (run : system.Run start trace after) :
    system.Reachable after := by
  induction run with
  | nil => exact reach
  | snoc _ step ih => exact .step ih step

/-- A property kept by every step of a run started in a reachable state holds at its end. -/
theorem preserves {motive : State → Prop} {start after : State} {trace : List Label}
    (run : system.Run start trace after) (reach : system.Reachable start)
    (base : motive start)
    (step : ∀ {before label next}, system.Reachable before → motive before →
      system.Step before label next → motive next) : motive after := by
  induction run with
  | nil => exact base
  | snoc earlier last ih => exact step (earlier.reachable reach) ih last

/-- The state satisfies the goal, or some state on the way did. -/
def Visits (system : TransitionSystem State Label) (goal : State → Prop) (start : State)
    (trace : List Label) (after : State) : Prop :=
  ∃ left right middle, trace = left ++ right ∧ system.Run start left middle ∧ goal middle ∧
    system.Run middle right after

theorem Visits.snoc {goal : State → Prop} {start before after : State} {trace : List Label}
    {label : Label} (visits : Visits system goal start trace before)
    (step : system.Step before label after) :
    Visits system goal start (trace ++ [label]) after := by
  obtain ⟨left, right, middle, rfl, first, reached, second⟩ := visits
  exact ⟨left, right ++ [label], middle, by simp, first, reached, second.snoc step⟩

/-- A property that can only be lost by reaching a goal. -/
theorem preserves_or_visits {motive goal : State → Prop} {start after : State}
    {trace : List Label} (run : system.Run start trace after) (reach : system.Reachable start)
    (base : motive start)
    (step : ∀ {before label next}, system.Reachable before → motive before →
      system.Step before label next → motive next ∨ goal next) :
    motive after ∨ Visits system goal start trace after := by
  induction run with
  | nil => exact Or.inl base
  | snoc earlier last ih =>
      rcases ih with kept | visits
      · rcases step (earlier.reachable reach) kept last with kept' | reached
        · exact Or.inl kept'
        · exact Or.inr ⟨_, [], _, by simp, earlier.snoc last, reached, .nil⟩
      · exact Or.inr (visits.snoc last)

end Run

namespace Reachable

/-- Inductive invariants hold in every reachable state. -/
theorem invariant {motive : State → Prop} {state : State} (reach : system.Reachable state)
    (base : ∀ {start}, system.Initial start → motive start)
    (step : ∀ {before label after}, system.Reachable before → motive before →
      system.Step before label after → motive after) : motive state := by
  induction reach with
  | initial start => exact base start
  | step earlier last ih => exact step earlier ih last

theorem of_foldlM {next : Label → State → Option State} {labels : List Label} {start final : State}
    (sound : ∀ {label before after}, next label before = some after →
      system.Step before label after)
    (reach : system.Reachable start)
    (execution : labels.foldlM (fun state label => next label state) start = some final) :
    system.Reachable final := by
  induction labels generalizing start with
  | nil =>
      obtain rfl : start = final := by simpa using execution
      exact reach
  | cons label labels ih =>
      obtain ⟨middle, first, rest⟩ : ∃ middle, next label start = some middle ∧
          labels.foldlM (fun state label => next label state) middle = some final := by
        simpa [Option.bind_eq_some_iff] using execution
      exact ih (reach.step (sound first)) rest

end Reachable

/-- Keep only the steps that `allowed` admits. -/
def restrict (system : TransitionSystem State Label) (allowed : State → Label → State → Prop) :
    TransitionSystem State Label where
  Initial := system.Initial
  Step before label after := system.Step before label after ∧ allowed before label after

theorem Reachable.of_restrict {allowed : State → Label → State → Prop} {state : State}
    (reach : (system.restrict allowed).Reachable state) : system.Reachable state := by
  induction reach with
  | initial start => exact .initial start
  | step _ last ih => exact .step ih last.1

theorem Reachable.restrict {allowed : State → Label → State → Prop} {state : State}
    (reach : system.Reachable state)
    (permitted : ∀ {before label after}, system.Step before label after →
      allowed before label after) : (system.restrict allowed).Reachable state := by
  induction reach with
  | initial start => exact .initial start
  | step _ last ih => exact .step ih ⟨last, permitted last⟩

theorem Reachable.unrestricted {state : State} (reach : system.Reachable state) :
    (system.restrict fun _ _ _ => True).Reachable state :=
  reach.restrict fun _ => trivial

theorem Reachable.mono {allowed wider : State → Label → State → Prop} {state : State}
    (widen : ∀ {before label after}, (system.restrict allowed).Reachable before →
      system.Step before label after → allowed before label after → wider before label after)
    (reach : (system.restrict allowed).Reachable state) :
    (system.restrict wider).Reachable state := by
  induction reach with
  | initial start => exact .initial start
  | step earlier last ih => exact .step ih ⟨last.1, widen earlier last.1 last.2⟩

theorem Run.of_restrict {allowed : State → Label → State → Prop} {start after : State}
    {trace : List Label} (run : (system.restrict allowed).Run start trace after) :
    system.Run start trace after := by
  induction run with
  | nil => exact .nil
  | snoc _ step ih => exact ih.snoc step.1

/-- The rule for a run all of whose steps are allowed, from any state the system can reach. -/
theorem Run.preserves_of_restrict {allowed : State → Label → State → Prop} {motive : State → Prop}
    {start after : State} {trace : List Label}
    (run : (system.restrict allowed).Run start trace after) (reach : system.Reachable start)
    (base : motive start)
    (step : ∀ {before label next}, system.Reachable before → motive before →
      system.Step before label next → allowed before label next → motive next) :
    system.Reachable after ∧ motive after := by
  induction run with
  | nil => exact ⟨reach, base⟩
  | snoc _ last ih => exact ⟨.step ih.1 last.1, step ih.1 ih.2 last.1 last.2⟩

theorem Reachable.exists_run {state : State} (reach : system.Reachable state) :
    ∃ start trace, system.Initial start ∧ system.Run start trace state := by
  induction reach with
  | initial start => exact ⟨_, [], start, .nil⟩
  | step _ last ih =>
      obtain ⟨start, trace, initial, run⟩ := ih
      exact ⟨start, _, initial, run.snoc last⟩

/-- The progress rule: when some step lowers the rank wherever the goal is not yet met, and keeps
the invariant, a run leads to the goal. -/
theorem exists_run_of_decreasing {Rank : Type*} {lower : Rank → Rank → Prop}
    (wellFounded : WellFounded lower) (rank : State → Rank) {motive goal : State → Prop}
    (progress : ∀ {before}, motive before → goal before ∨
      ∃ label after, system.Step before label after ∧ motive after ∧
        lower (rank after) (rank before))
    {start : State} (base : motive start) :
    ∃ trace after, system.Run start trace after ∧ motive after ∧ goal after := by
  induction start using (InvImage.wf rank wellFounded).induction with
  | h start ih =>
      rcases progress base with reached | ⟨label, next, step, kept, less⟩
      · exact ⟨[], start, .nil, base, reached⟩
      · obtain ⟨trace, after, run, kept', reached⟩ := ih next less kept
        exact ⟨label :: trace, after, run.cons step, kept', reached⟩

theorem Run.append {start middle after : State} {left right : List Label}
    (first : system.Run start left middle) (second : system.Run middle right after) :
    system.Run start (left ++ right) after := by
  induction second with
  | nil => simpa using first
  | snoc _ step ih => simpa using ih.snoc step

/-- Whatever steps are taken, the goal is reached: every run is finite, and one that can go no
further has reached it. -/
def Inevitable (system : TransitionSystem State Label) (goal : State → Prop) (state : State) :
    Prop :=
  ∃ bound, ∀ trace after, system.Run state trace after →
    trace.length ≤ bound ∧ ((∀ label next, ¬ system.Step after label next) → goal after)

/-- The rule for a rank that every step lowers under an invariant. -/
theorem inevitable_of_decreasing {motive goal : State → Prop} (rank : State → Nat) {state : State}
    (base : motive state)
    (lowers : ∀ {before label next}, motive before → system.Step before label next →
      motive next ∧ rank next < rank before)
    (progress : ∀ {before}, motive before → goal before ∨
      ∃ label next, system.Step before label next) : system.Inevitable goal state := by
  refine ⟨rank state, fun trace after run => ?_⟩
  obtain ⟨kept, bound⟩ := run.length_add_rank_le base lowers
  refine ⟨by omega, fun stuck => (progress kept).resolve_right ?_⟩
  rintro ⟨label, next, step⟩
  exact stuck label next step

/-- A run is no longer than the rank that each of its steps lowers, up to noise that raises it. -/
theorem Run.length_add_rank_le_of_noise {motive : State → Prop} {rank : State → Nat}
    {noise : Label → Bool} {cost : Nat} {start after : State} {trace : List Label}
    (run : system.Run start trace after) (base : motive start)
    (lowers : ∀ {before label next}, motive before → system.Step before label next →
      motive next ∧ rank next + 1 ≤ rank before + cost * (noise label).toNat) :
    motive after ∧ trace.length + rank after ≤ rank start + cost * trace.countP noise := by
  induction run with
  | nil => exact ⟨base, by simp⟩
  | @snoc trace before after label _ step ih =>
      obtain ⟨kept, less⟩ := lowers ih.1 step
      refine ⟨kept, ?_⟩
      have counted : (trace ++ [label]).countP noise =
          trace.countP noise + (noise label).toNat := by
        rw [List.countP_append, List.countP_singleton]
        cases noise label <;> rfl
      rw [List.length_append, List.length_singleton, counted, Nat.mul_add]
      omega

/-- Whatever steps are taken, the goal is reached as soon as the noise stops: up to a fixed price
for each noise step every run is finite, and where only noise is possible the goal is met. -/
def InevitableDespite (system : TransitionSystem State Label) (noise : Label → Bool)
    (goal : State → Prop) (state : State) : Prop :=
  ∃ bound cost, ∀ trace after, system.Run state trace after →
    trace.length ≤ bound + cost * trace.countP noise ∧
      ((∀ label next, system.Step after label next → noise label = true) → goal after)

/-- The rule for a rank that every step but the noise lowers under an invariant. -/
theorem inevitableDespite_of_decreasing {motive goal : State → Prop} (rank : State → Nat)
    (noise : Label → Bool) (cost : Nat) {state : State} (base : motive state)
    (lowers : ∀ {before label next}, motive before → system.Step before label next →
      motive next ∧ rank next + 1 ≤ rank before + cost * (noise label).toNat)
    (progress : ∀ {before}, motive before →
      (∀ label next, system.Step before label next → noise label = true) → goal before) :
    system.InevitableDespite noise goal state := by
  refine ⟨rank state, cost, fun trace after run => ?_⟩
  obtain ⟨kept, bound⟩ := run.length_add_rank_le_of_noise base lowers
  exact ⟨by omega, progress kept⟩

theorem InevitableDespite.widen {noise : Label → Bool} {goal wider : State → Prop} {state : State}
    (inevitable : system.InevitableDespite noise goal state) (reach : system.Reachable state)
    (widen : ∀ {after}, system.Reachable after → goal after → wider after) :
    system.InevitableDespite noise wider state := by
  obtain ⟨bound, cost, ends⟩ := inevitable
  refine ⟨bound, cost, fun trace after run => ?_⟩
  obtain ⟨length, met⟩ := ends trace after run
  exact ⟨length, fun stuck => widen (run.reachable reach) (met stuck)⟩

theorem InevitableDespite.inevitable {noise : Label → Bool} {goal : State → Prop} {state : State}
    (inevitable : system.InevitableDespite noise goal state)
    (silent : ∀ label, noise label = false) : system.Inevitable goal state := by
  obtain ⟨bound, cost, ends⟩ := inevitable
  refine ⟨bound, fun trace after run => ?_⟩
  obtain ⟨length, met⟩ := ends trace after run
  refine ⟨?_, fun stuck => met fun label next step => absurd step (stuck label next)⟩
  have quiet : trace.countP noise = 0 := List.countP_eq_zero.mpr fun label _ => by simp [silent]
  rwa [quiet, Nat.mul_zero, Nat.add_zero] at length

theorem InevitableDespite.of_restrict {allowed : State → Label → State → Prop}
    {noise : Label → Bool} {goal : State → Prop} {state : State}
    (inevitable : (system.restrict allowed).InevitableDespite noise goal state)
    (permitted : ∀ {before label after}, system.Step before label after →
      allowed before label after) : system.InevitableDespite noise goal state := by
  obtain ⟨bound, cost, ends⟩ := inevitable
  refine ⟨bound, cost, fun trace after run => ?_⟩
  have run' : (system.restrict allowed).Run state trace after := by
    induction run with
    | nil => exact .nil
    | snoc _ step ih => exact ih.snoc ⟨step, permitted step⟩
  obtain ⟨length, met⟩ := ends trace after run'
  exact ⟨length, fun stuck => met fun label next step => stuck label next step.1⟩

/-- Some run leads to an inevitable goal. -/
theorem Inevitable.exists_run {goal : State → Prop} {state : State}
    (inevitable : system.Inevitable goal state) :
    ∃ trace after, system.Run state trace after ∧ goal after := by
  obtain ⟨bound, ends⟩ := inevitable
  refine Classical.byContradiction fun never => ?_
  have longer (length : Nat) : ∃ trace after, system.Run state trace after ∧
      trace.length = length := by
    induction length with
    | zero => exact ⟨[], state, .nil, rfl⟩
    | succ length ih =>
        obtain ⟨trace, after, run, same⟩ := ih
        refine Classical.byContradiction fun stuck => ?_
        refine never ⟨trace, after, run, (ends trace after run).2 fun label next step => stuck ?_⟩
        exact ⟨_, next, run.snoc step, by simp [same]⟩
  obtain ⟨trace, after, run, same⟩ := longer (bound + 1)
  have short := (ends trace after run).1
  omega

/-- Where every state has one step at most, a run that can go no further contains every other run
from its start. -/
theorem Run.exists_rest_of_deterministic
    (deterministic : ∀ {before label label' next next'}, system.Step before label next →
      system.Step before label' next' → next = next') {start after final : State}
    {trace whole : List Label} (run : system.Run start trace after)
    (full : system.Run start whole final) (stuck : ∀ label next, ¬ system.Step final label next) :
    ∃ rest, system.Run after rest final := by
  induction run with
  | nil => exact ⟨whole, full⟩
  | snoc _ step ih =>
      obtain ⟨rest, later⟩ := ih
      rcases later.eq_or_exists_cons with ⟨-, rfl⟩ | ⟨label, middle, rest', -, step', later⟩
      · exact absurd step (stuck _ _)
      · obtain rfl := deterministic step step'
        exact ⟨rest', later⟩

/-! ## Counting marked steps -/

/-- A finite run in which exactly `count` steps are marked. -/
inductive CountedRun (system : TransitionSystem State Label)
    (marked : State → Label → State → Prop) (start : State) : Nat → State → Prop
  | nil : CountedRun system marked start 0 start
  | skip {count : Nat} {before after : State} {label : Label} :
      CountedRun system marked start count before → system.Step before label after →
      ¬ marked before label after → CountedRun system marked start count after
  | mark {count : Nat} {before after : State} {label : Label} :
      CountedRun system marked start count before → system.Step before label after →
      marked before label after → CountedRun system marked start (count + 1) after

namespace CountedRun

variable {marked : State → Label → State → Prop} {start after : State} {count : Nat}

theorem reachable (reach : system.Reachable start)
    (run : system.CountedRun marked start count after) : system.Reachable after := by
  induction run with
  | nil => exact reach
  | skip _ step _ ih => exact .step ih step
  | mark _ step _ ih => exact .step ih step

/-- A property kept by the unmarked steps, and changed by one for each marked step. -/
theorem preserves {motive : Nat → State → Prop}
    (run : system.CountedRun marked start count after) (reach : system.Reachable start)
    (base : motive 0 start)
    (skip : ∀ {count before label next}, system.Reachable before → motive count before →
      system.Step before label next → ¬ marked before label next → motive count next)
    (mark : ∀ {count before label next}, system.Reachable before → motive count before →
      system.Step before label next → marked before label next → motive (count + 1) next) :
    motive count after := by
  induction run with
  | nil => exact base
  | skip earlier step unmarked ih => exact skip (earlier.reachable reach) ih step unmarked
  | mark earlier step marked ih => exact mark (earlier.reachable reach) ih step marked

theorem of_restrict {allowed : State → Label → State → Prop}
    (run : (system.restrict allowed).CountedRun marked start count after) :
    system.CountedRun marked start count after := by
  induction run with
  | nil => exact .nil
  | skip _ step unmarked ih => exact .skip ih step.1 unmarked
  | mark _ step marked ih => exact .mark ih step.1 marked

theorem preserves_of_restrict {allowed : State → Label → State → Prop}
    {motive : Nat → State → Prop}
    (run : (system.restrict allowed).CountedRun marked start count after)
    (reach : system.Reachable start) (base : motive 0 start)
    (skip : ∀ {count before label next}, system.Reachable before → motive count before →
      system.Step before label next → allowed before label next →
      ¬ marked before label next → motive count next)
    (mark : ∀ {count before label next}, system.Reachable before → motive count before →
      system.Step before label next → allowed before label next →
      marked before label next → motive (count + 1) next) : motive count after := by
  induction run with
  | nil => exact base
  | skip earlier step unmarked ih =>
      exact skip (earlier.of_restrict.reachable reach) ih step.1 step.2 unmarked
  | mark earlier step marked ih =>
      exact mark (earlier.of_restrict.reachable reach) ih step.1 step.2 marked

theorem zero_of_run {allowed : State → Label → State → Prop} {trace : List Label}
    (run : (system.restrict fun before label next =>
      allowed before label next ∧ ¬ marked before label next).Run start trace after) :
    (system.restrict allowed).CountedRun marked start 0 after := by
  induction run with
  | nil => exact .nil
  | snoc _ step ih => exact .skip ih ⟨step.1, step.2.1⟩ step.2.2

end CountedRun

end TransitionSystem
