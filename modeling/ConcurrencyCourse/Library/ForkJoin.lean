import ConcurrencyCourse.Library.Interleaving

/-!
# A main thread that starts and joins the others

The main thread works through a list of commands: it starts a thread of a program, or blocks until
a thread has finished.  The other threads step as soon as they have been started.  When the main
thread is through, the threads it has joined have finished, and nothing of them is left to run.
-/

namespace ForkJoin

open Program (Config)

/-- What the main thread does next. -/
inductive Command (Tid : Type*)
  | start (thread : Tid)
  | join (thread : Tid)
  deriving DecidableEq

/-- A step of the main thread, or of one of the others. -/
inductive Label (Tid Action : Type*)
  | main
  | child (thread : Tid) (action : Action)
  deriving DecidableEq

/-- The threads of the program, those that have been started, and the rest of the main thread. -/
structure State (Tid Shared Local : Type*) where
  config : Config Tid Shared Local
  started : Finset Tid
  commands : List (Command Tid)

variable {Tid Action Shared Local : Type*} [DecidableEq Tid]

/-- One step. -/
def next (program : Program Tid Action Shared Local) (finished : Local → Bool) :
    Label Tid Action → State Tid Shared Local → Option (State Tid Shared Local)
  | .main, ⟨config, started, .start thread :: rest⟩ => some ⟨config, insert thread started, rest⟩
  | .main, ⟨config, started, .join thread :: rest⟩ =>
      if finished (config.threads thread) then some ⟨config, started, rest⟩ else none
  | .main, ⟨_, _, []⟩ => none
  | .child thread action, ⟨config, started, commands⟩ =>
      if thread ∈ started then
        (program.next (thread, action) config).map fun config => ⟨config, started, commands⟩
      else none

/-- Every interleaving of the main thread with the threads it has started. -/
def system (program : Program Tid Action Shared Local) (finished : Local → Bool)
    (commands : List (Command Tid)) :
    TransitionSystem (State Tid Shared Local) (Label Tid Action) where
  Initial state := program.system.Initial state.config ∧ state.started = ∅ ∧
    state.commands = commands
  Step before label after := next program finished label before = some after

variable {program : Program Tid Action Shared Local} {finished : Local → Bool}
  {commands : List (Command Tid)} {before after state : State Tid Shared Local}
  {thread : Tid} {action : Action}

theorem child_step_iff :
    (system program finished commands).Step before (.child thread action) after ↔
      thread ∈ before.started ∧ program.system.Step before.config (thread, action) after.config ∧
        after.started = before.started ∧ after.commands = before.commands := by
  obtain ⟨config, started, rest⟩ := before
  obtain ⟨config', started', rest'⟩ := after
  by_cases runs : thread ∈ started
  · simp only [system, Program.system, next, runs, if_true, true_and]
    constructor
    · intro step
      obtain ⟨_, taken, same⟩ := Option.map_eq_some_iff.mp step
      cases same
      exact ⟨taken, rfl, rfl⟩
    · rintro ⟨step, rfl, rfl⟩
      exact Option.map_eq_some_iff.mpr ⟨config', step, rfl⟩
  · simp [system, next, runs]

theorem main_step_cases (step : (system program finished commands).Step before .main after) :
    after.config = before.config ∧ ((∃ thread, before.commands = .start thread :: after.commands ∧
        after.started = insert thread before.started) ∨
      ∃ thread, before.commands = .join thread :: after.commands ∧
        after.started = before.started ∧
        finished (before.config.threads thread) = true) := by
  obtain ⟨config, started, rest⟩ := before
  simp only [system] at step
  cases rest with
  | nil => simp [next] at step
  | cons command rest =>
      cases command with
      | start thread =>
          obtain rfl := Option.some.inj step
          exact ⟨rfl, Or.inl ⟨thread, rfl, rfl⟩⟩
      | join thread =>
          by_cases done : finished (config.threads thread) = true
          · simp only [next, if_pos done] at step
            obtain rfl := Option.some.inj step
            exact ⟨rfl, Or.inr ⟨thread, rfl, rfl, done⟩⟩
          · simp [next, done] at step

/-- A condition on the steps of the threads that have been started. -/
def Permits (allowed : Config Tid Shared Local → Tid × Action → Config Tid Shared Local → Prop)
    (before : State Tid Shared Local) (label : Label Tid Action) (after : State Tid Shared Local) :
    Prop :=
  match label with
  | .main => True
  | .child thread action => allowed before.config (thread, action) after.config

variable {allowed : Config Tid Shared Local → Tid × Action → Config Tid Shared Local → Prop}

theorem reachable_config
    (reach : ((system program finished commands).restrict (Permits allowed)).Reachable state) :
    (program.system.restrict allowed).Reachable state.config := by
  induction reach with
  | initial start => exact .initial start.1
  | @step before after label _ step ih =>
      cases label with
      | main =>
          rw [(main_step_cases step.1).1]
          exact ih
      | child thread action => exact .step ih ⟨(child_step_iff.mp step.1).2.1, step.2⟩

/-- The commands that have been carried out, and what they have left behind. -/
structure Done (finished : Local → Bool) (commands done : List (Command Tid))
    (state : State Tid Shared Local) : Prop where
  split : commands = done ++ state.commands
  started : ∀ thread, .start thread ∈ done ↔ thread ∈ state.started
  joined : ∀ thread, .join thread ∈ done → finished (state.config.threads thread) = true

/-- A finished thread stays finished: the program has no step for it. -/
def Final (program : Program Tid Action Shared Local) (finished : Local → Bool) : Prop :=
  ∀ thread action shared local', finished local' = true →
    program.step thread action shared local' = none

theorem Done.step {done : List (Command Tid)} {label : Label Tid Action}
    (final : Final program finished) (earlier : Done finished commands done before)
    (step : (system program finished commands).Step before label after) :
    ∃ done', Done finished commands done' after := by
  cases label with
  | main =>
      obtain ⟨same, ⟨thread, next, started⟩ | ⟨thread, next, started, ended⟩⟩ :=
        main_step_cases step
      · refine ⟨done ++ [.start thread], ?_, fun other => ?_, fun other member => ?_⟩
        · rw [earlier.split, next, List.append_assoc, List.singleton_append]
        · simp [started, earlier.started, or_comm]
        · rw [same]
          exact earlier.joined other (by simpa using member)
      · refine ⟨done ++ [.join thread], ?_, fun other => ?_, fun other member => ?_⟩
        · rw [earlier.split, next, List.append_assoc, List.singleton_append]
        · simp [started, earlier.started]
        · rw [same]
          rcases List.mem_append.mp member with member | last
          · exact earlier.joined other member
          · obtain rfl : other = thread := by simpa using last
            exact ended
  | child thread action =>
      obtain ⟨-, step, started, rest⟩ := child_step_iff.mp step
      refine ⟨done, by rw [earlier.split, rest], fun other => by rw [started, earlier.started],
        fun other member => ?_⟩
      have ended := earlier.joined other member
      obtain ⟨shared, local', own, moved⟩ := Program.system_step_iff.mp step
      have foreign : other ≠ thread := by
        rintro rfl
        rw [final other action _ _ ended] at own
        simp at own
      rw [moved]
      simpa [foreign] using ended

theorem exists_done (final : Final program finished)
    (reach : (system program finished commands).Reachable state) :
    ∃ done, Done finished commands done state := by
  refine reach.invariant (motive := fun state => ∃ done, Done finished commands done state) ?_ ?_
  · rintro start ⟨-, started, rest⟩
    exact ⟨[], by rw [rest, List.nil_append], by simp [started], by simp⟩
  · rintro before label after - ⟨done, earlier⟩ step
    exact earlier.step final step

theorem finished_of_join (final : Final program finished)
    (reach : (system program finished commands).Reachable state) (ended : state.commands = [])
    (member : .join thread ∈ commands) : finished (state.config.threads thread) = true := by
  obtain ⟨done, earlier⟩ := exists_done final reach
  apply earlier.joined
  rw [earlier.split, ended, List.append_nil] at member
  exact member

/-! ## A main thread that starts threads first and joins them afterwards -/

/-- Start these threads, then join those. -/
def startThenJoin (starts joins : List Tid) : List (Command Tid) :=
  starts.map .start ++ joins.map .join

/-- The noise of the threads. -/
def noisy (noise : Tid × Action → Bool) : Label Tid Action → Bool
  | .main => false
  | .child thread action => noise (thread, action)

variable (program finished commands allowed) in
theorem exists_start_step {rest : List (Command Tid)}
    (next : state.commands = .start thread :: rest) :
    ∃ after, ((system program finished commands).restrict (Permits allowed)).Step state .main
      after := by
  obtain ⟨config, started, rest'⟩ := state
  obtain rfl : rest' = .start thread :: rest := next
  exact ⟨_, rfl, trivial⟩

variable (program commands allowed) in
theorem exists_join_step {rest : List (Command Tid)} (next : state.commands = .join thread :: rest)
    (ended : finished (state.config.threads thread) = true) :
    ∃ after, ((system program finished commands).restrict (Permits allowed)).Step state .main
      after := by
  obtain ⟨config, started, rest'⟩ := state
  obtain rfl : rest' = .join thread :: rest := next
  exact ⟨_, if_pos ended, trivial⟩

omit [DecidableEq Tid] in
/-- When the next command is no start, every start has been carried out. -/
theorem mem_done_of_no_start {starts joins : List Tid} {done rest : List (Command Tid)}
    (split : startThenJoin starts joins = done ++ rest)
    (joining : ∀ thread, rest.head? ≠ some (.start thread)) :
    ∀ thread ∈ starts, .start thread ∈ done := by
  induction starts generalizing done with
  | nil => simp
  | cons first starts ih =>
      cases done with
      | nil =>
          refine absurd ?_ (joining first)
          rw [← List.nil_append rest, ← split]
          rfl
      | cons command done =>
          obtain ⟨rfl, later⟩ : .start first = command ∧
              startThenJoin starts joins = done ++ rest := by
            simpa [startThenJoin] using split
          intro thread member
          rcases List.mem_cons.mp member with rfl | member
          · exact List.mem_cons_self
          · exact List.mem_cons_of_mem _ (ih later thread member)

/-- If every run of the threads is finite up to noise, then so is the whole; it ends where the main
thread is through, or waits for a thread that has not finished, and no thread can go further. -/
theorem inevitable_through_or_waiting {starts joins : List Tid}
    {motive : Config Tid Shared Local → Prop} (final : Final program finished)
    (every : ∀ thread, thread ∈ starts) (rank : Config Tid Shared Local → Nat)
    (noise : Tid × Action → Bool) (cost : Nat)
    (base : ∀ {config}, program.system.Initial config → motive config)
    (lowers : ∀ {before label next}, motive before →
      (program.system.restrict allowed).Step before label next →
      motive next ∧ rank next + 1 ≤ rank before + cost * (noise label).toNat)
    (initial : (system program finished (startThenJoin starts joins)).Initial state) :
    ((system program finished (startThenJoin starts joins)).restrict
      (Permits allowed)).InevitableDespite (noisy noise) (fun state => motive state.config ∧
        (∀ label next, (program.system.restrict allowed).Step state.config label next →
          noise label = true) ∧
        (state.commands = [] ∨ ∃ thread rest, state.commands = .join thread :: rest ∧
          thread ∈ joins ∧ finished (state.config.threads thread) = false)) state := by
  refine TransitionSystem.inevitableDespite_of_decreasing
    (motive := fun state => motive state.config ∧
      ∃ done, Done finished (startThenJoin starts joins) done state)
    (fun state => rank state.config + state.commands.length) (noisy noise) cost
    ⟨base initial.1, exists_done final (.initial initial)⟩ ?_ ?_
  · rintro before label next ⟨holds, done, earlier⟩ ⟨step, permitted⟩
    have later := earlier.step final step
    cases label with
    | main =>
        obtain ⟨same, commands⟩ := main_step_cases step
        have shorter : before.commands.length = next.commands.length + 1 := by
          rcases commands with ⟨thread, next, -⟩ | ⟨thread, next, -, -⟩ <;>
            rw [next, List.length_cons]
        rw [same]
        exact ⟨⟨holds, later⟩, by omega⟩
    | child thread action =>
        obtain ⟨-, taken, -, rest⟩ := child_step_iff.mp step
        obtain ⟨kept, less⟩ := lowers holds ⟨taken, permitted⟩
        refine ⟨⟨kept, later⟩, ?_⟩
        rw [rest]
        simp only [noisy]
        omega
  · rintro state ⟨holds, done, earlier⟩ stuck
    have joining (thread : Tid) : state.commands.head? ≠ some (.start thread) := by
      intro head
      obtain ⟨rest, next⟩ := List.head?_eq_some_iff.mp head
      obtain ⟨after, step⟩ :=
        exists_start_step program finished (startThenJoin starts joins) allowed next
      simpa [noisy] using stuck .main after step
    have started (thread : Tid) : thread ∈ state.started :=
      (earlier.started thread).mp (mem_done_of_no_start earlier.split joining thread (every thread))
    refine ⟨holds, fun ⟨thread, action⟩ next step =>
      stuck (.child thread action) ⟨next, state.started, state.commands⟩
        ⟨child_step_iff.mpr ⟨started thread, step.1, rfl, rfl⟩, step.2⟩, ?_⟩
    cases rest : state.commands with
    | nil => exact Or.inl rfl
    | cons command commands =>
        cases command with
        | start thread => exact absurd (by rw [rest]; rfl) (joining thread)
        | join thread =>
            refine Or.inr ⟨thread, commands, rfl, ?_, ?_⟩
            · have whole : Command.join thread ∈ startThenJoin starts joins := by
                rw [earlier.split, rest]
                exact List.mem_append_right _ List.mem_cons_self
              simpa [startThenJoin] using whole
            · refine Bool.eq_false_of_not_eq_true fun ended => ?_
              obtain ⟨after, step⟩ := exists_join_step program (startThenJoin starts joins) allowed
                rest ended
              simpa [noisy] using stuck .main after step

/-- The whole ends when its threads do. -/
theorem inevitable_of_threads {starts joins : List Tid} {motive : Config Tid Shared Local → Prop}
    (final : Final program finished) (every : ∀ thread, thread ∈ starts)
    (rank : Config Tid Shared Local → Nat) (noise : Tid × Action → Bool) (cost : Nat)
    (base : ∀ {config}, program.system.Initial config → motive config)
    (lowers : ∀ {before label next}, motive before →
      (program.system.restrict allowed).Step before label next →
      motive next ∧ rank next + 1 ≤ rank before + cost * (noise label).toNat)
    (progress : ∀ {config}, motive config →
      (∀ label next, (program.system.restrict allowed).Step config label next →
        noise label = true) → ∀ thread ∈ joins, finished (config.threads thread) = true)
    (initial : (system program finished (startThenJoin starts joins)).Initial state) :
    ((system program finished (startThenJoin starts joins)).restrict
      (Permits allowed)).InevitableDespite (noisy noise) (fun state => state.commands = [])
        state := by
  refine (inevitable_through_or_waiting final every rank noise cost base lowers initial).widen
    (.initial initial) ?_
  rintro after - ⟨holds, stuck, through | ⟨thread, rest, -, member, running⟩⟩
  · exact through
  · rw [progress holds stuck thread member] at running
    simp at running

/-! ## Runs of the whole -/

omit [DecidableEq Tid] in
theorem permits_all {before after : State Tid Shared Local} {label : Label Tid Action} :
    Permits (fun _ _ _ => True) before label after := by
  cases label <;> trivial

theorem reachable_config_unrestricted (reach : (system program finished commands).Reachable state) :
    program.system.Reachable state.config :=
  (reachable_config (reach.restrict fun _ => permits_all)).of_restrict

variable {config config' : Config Tid Shared Local} {started : Finset Tid}
  {rest : List (Command Tid)}

theorem run_of_config {trace : List (Tid × Action)} (all : ∀ thread, thread ∈ started)
    (run : program.system.Run config trace config') :
    (system program finished commands).Run ⟨config, started, rest⟩
      (trace.map fun label => .child label.1 label.2) ⟨config', started, rest⟩ := by
  induction run with
  | nil => exact .nil
  | snoc _ step ih =>
      rw [List.map_append]
      exact ih.snoc (child_step_iff.mpr ⟨all _, step, rfl, rfl⟩)

theorem exists_run_starts (starts : List Tid) : ∃ trace started',
    (system program finished commands).Run ⟨config, started, starts.map .start ++ rest⟩ trace
      ⟨config, started', rest⟩ ∧ ∀ thread, thread ∈ starts ∨ thread ∈ started →
        thread ∈ started' := by
  induction starts generalizing started with
  | nil => exact ⟨[], started, .nil, fun thread => Or.rec nofun id⟩
  | cons first starts ih =>
      obtain ⟨trace, started', run, all⟩ := @ih (insert first started)
      refine ⟨.main :: trace, started', run.cons rfl, fun thread member => all thread ?_⟩
      rw [List.mem_cons] at member
      rw [Finset.mem_insert]
      tauto

theorem exists_run_joins (ended : ∀ thread, finished (config.threads thread) = true)
    (joins : List Tid) : ∃ trace, (system program finished commands).Run
      ⟨config, started, joins.map .join⟩ trace ⟨config, started, []⟩ := by
  induction joins with
  | nil => exact ⟨[], .nil⟩
  | cons first joins ih =>
      obtain ⟨trace, run⟩ := ih
      exact ⟨.main :: trace, run.cons (if_pos (ended first))⟩

/-- Whatever the threads can do to their end, they can do between the starts and the joins. -/
theorem exists_reachable_through {starts joins : List Tid} {trace : List (Tid × Action)}
    (every : ∀ thread, thread ∈ starts) (initial : program.system.Initial config)
    (run : program.system.Run config trace config')
    (ended : ∀ thread, finished (config'.threads thread) = true) : ∃ state,
      (system program finished (startThenJoin starts joins)).Reachable state ∧
        state.commands = [] ∧ state.config = config' := by
  let first : State Tid Shared Local := ⟨config, ∅, startThenJoin starts joins⟩
  have reach : (system program finished (startThenJoin starts joins)).Reachable first :=
    .initial ⟨initial, rfl, rfl⟩
  obtain ⟨_, started, begins, all⟩ : ∃ trace started,
      (system program finished (startThenJoin starts joins)).Run first trace
        ⟨config, started, joins.map .join⟩ ∧ ∀ thread, thread ∈ starts ∨ thread ∈ ∅ →
          thread ∈ started := exists_run_starts starts
  obtain ⟨_, ends⟩ : ∃ trace, (system program finished (startThenJoin starts joins)).Run
      ⟨config', started, joins.map .join⟩ trace ⟨config', started, []⟩ :=
    exists_run_joins ended joins
  have runs : (system program finished (startThenJoin starts joins)).Run
      ⟨config, started, joins.map .join⟩ _ ⟨config', started, joins.map .join⟩ :=
    run_of_config (fun thread => all thread (Or.inl (every thread))) run
  exact ⟨_, ends.reachable (runs.reachable (begins.reachable reach)), rfl, rfl⟩

end ForkJoin
