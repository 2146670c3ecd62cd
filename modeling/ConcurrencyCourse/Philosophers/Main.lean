import ConcurrencyCourse.Philosophers.Forks

/-!
# The end of the dinner

`main` starts one philosopher after the other, sleeps, and leaves its scope: the destructors run in
the reverse order, and each sets `m_cancelled` and joins the thread of its philosopher.  The program
can always come to its end exactly when some seat stays empty; with all seats taken it may hang.
-/

namespace ConcurrencyCourse
namespace Philosophers

open CircularWait

/-- What `main` does next: `Start`, and the two parts of a destructor. -/
inductive Command (Tid : Type*)
  | start (philosopher : Tid)
  | cancel (philosopher : Tid)
  | join (philosopher : Tid)
  deriving DecidableEq

/-- The table, the philosophers that have been started, and the rest of `main`. -/
structure Dinner (Tid : Type*) where
  config : Config Tid
  started : Finset Tid
  commands : List (Command Tid)

/-- A step of `main`, or of a philosopher. -/
inductive Label (Tid : Type*)
  | main
  | philosopher (philosopher : Tid)

/-- The destructors of these philosophers. -/
def destructors {Tid : Type*} (philosophers : List Tid) : List (Command Tid) :=
  philosophers.flatMap fun philosopher => [.cancel philosopher, .join philosopher]

/-- `main` with these philosophers. -/
def mainCommands {Tid : Type*} (philosophers : List Tid) : List (Command Tid) :=
  philosophers.map .start ++ destructors philosophers.reverse

section Steps

variable {Tid : Type*} [DecidableEq Tid]

/-- One step. -/
def next (seat : Tid → Seat) : Label Tid → Dinner Tid → Option (Dinner Tid)
  | .main, ⟨config, started, .start philosopher :: rest⟩ =>
      some ⟨config, insert philosopher started, rest⟩
  | .main, ⟨config, started, .cancel philosopher :: rest⟩ =>
      ((program seat).next (philosopher, .cancel) config).map (⟨·, started, rest⟩)
  | .main, ⟨config, started, .join philosopher :: rest⟩ =>
      if config.threads philosopher = .stopped then some ⟨config, started, rest⟩ else none
  | .main, ⟨_, _, []⟩ => none
  | .philosopher philosopher, ⟨config, started, commands⟩ =>
      if philosopher ∈ started then
        ((program seat).next (philosopher, .run) config).map (⟨·, started, commands⟩)
      else none

/-- Every interleaving of `main` with the philosophers. -/
def evening (seat : Tid → Seat) (philosophers : List Tid) :
    TransitionSystem (Dinner Tid) (Label Tid) where
  Initial dinner := dinner = ⟨initial, ∅, mainCommands philosophers⟩
  Step before label after := next seat label before = some after

variable {seat : Tid → Seat} {philosophers : List Tid} {before after dinner : Dinner Tid}
  {label : Label Tid} {philosopher : Tid}

/-- Effects of a step. -/
inductive EveningCase (seat : Tid → Seat) (before : Dinner Tid) : Label Tid → Dinner Tid → Prop
  | start {philosopher : Tid} {rest : List (Command Tid)} :
      before.commands = .start philosopher :: rest →
      EveningCase seat before .main ⟨before.config, insert philosopher before.started, rest⟩
  | cancel {philosopher : Tid} {rest : List (Command Tid)} {config : Config Tid} :
      before.commands = .cancel philosopher :: rest →
      (program seat).system.Step before.config (philosopher, .cancel) config →
      EveningCase seat before .main ⟨config, before.started, rest⟩
  | join {philosopher : Tid} {rest : List (Command Tid)} :
      before.commands = .join philosopher :: rest →
      before.config.threads philosopher = .stopped →
      EveningCase seat before .main ⟨before.config, before.started, rest⟩
  | run {philosopher : Tid} {config : Config Tid} : philosopher ∈ before.started →
      (program seat).system.Step before.config (philosopher, .run) config →
      EveningCase seat before (.philosopher philosopher)
        ⟨config, before.started, before.commands⟩

theorem evening_step_iff :
    (evening seat philosophers).Step before label after ↔ EveningCase seat before label after := by
  obtain ⟨config, started, commands⟩ := before
  simp only [evening]
  constructor
  · intro step
    cases label with
    | philosopher philosopher =>
        by_cases runs : philosopher ∈ started
        · simp only [next, if_pos runs, Option.map_eq_some_iff] at step
          obtain ⟨config', own, rfl⟩ := step
          exact .run runs own
        · simp [next, runs] at step
    | main =>
        cases commands with
        | nil => simp [next] at step
        | cons command rest =>
            cases command with
            | start philosopher =>
                obtain rfl := Option.some.inj step
                exact .start rfl
            | cancel philosopher =>
                simp only [next, Option.map_eq_some_iff] at step
                obtain ⟨config', own, rfl⟩ := step
                exact .cancel rfl own
            | join philosopher =>
                by_cases ended : config.threads philosopher = .stopped
                · simp only [next, if_pos ended] at step
                  obtain rfl := Option.some.inj step
                  exact .join rfl ended
                · simp [next, ended] at step
  · intro step
    cases step with
    | start first =>
        obtain rfl : commands = _ := first
        rfl
    | cancel first own =>
        obtain rfl : commands = _ := first
        simp only [next]
        exact Option.map_eq_some_iff.mpr ⟨_, own, rfl⟩
    | join first ended =>
        obtain rfl : commands = _ := first
        exact if_pos ended
    | run runs own =>
        simp only [next, if_pos runs]
        exact Option.map_eq_some_iff.mpr ⟨_, own, rfl⟩

/-! ## The phases of main -/

/-- How far `main` has come. -/
inductive Phase (philosophers : List Tid) (dinner : Dinner Tid) : Prop
  | starting (begun rest : List Tid) (philosopher : Tid) :
      philosophers = begun ++ philosopher :: rest →
      dinner.commands = (philosopher :: rest).map .start ++ destructors philosophers.reverse →
      (∀ other ∈ begun, other ∈ dinner.started) → Phase philosophers dinner
  | cancelling (joined rest : List Tid) : philosophers.reverse = joined ++ rest →
      dinner.commands = destructors rest → (∀ other ∈ philosophers, other ∈ dinner.started) →
      (∀ other ∈ joined, dinner.config.threads other = .stopped) → Phase philosophers dinner
  | joining (joined rest : List Tid) (philosopher : Tid) :
      philosophers.reverse = joined ++ philosopher :: rest →
      dinner.commands = .join philosopher :: destructors rest →
      (∀ other ∈ philosophers, other ∈ dinner.started) →
      (∀ other ∈ joined, dinner.config.threads other = .stopped) →
      dinner.config.shared.cancelled philosopher = true → Phase philosophers dinner

theorem stays_of_step {config config' : Config Tid} {action : Action} (other : Tid)
    (step : (program seat).system.Step config (philosopher, action) config') :
    (config.threads other = .stopped → config'.threads other = .stopped) ∧
      (config.shared.cancelled other = true → config'.shared.cancelled other = true) := by
  obtain ⟨table', pc', change, rfl⟩ := exists_stepCase step
  constructor
  · intro stopped
    by_cases same : other = philosopher
    · subst same
      rw [stopped] at change
      cases change with
      | cancel => simp
    · simpa [same] using stopped
  · intro cancelled
    generalize config.threads philosopher = pc at change
    cases change with
    | cancel =>
        by_cases same : other = philosopher <;> simp [same, cancelled]
    | _ => exact cancelled

theorem cancelled_of_cancel {config config' : Config Tid}
    (step : (program seat).system.Step config (philosopher, .cancel) config') :
    config'.shared.cancelled philosopher = true := by
  obtain ⟨table', pc', change, rfl⟩ := exists_stepCase step
  generalize config.threads philosopher = pc at change
  cases change with
  | cancel => simp

theorem Phase.step (phase : Phase philosophers before)
    (step : EveningCase seat before label after) : Phase philosophers after := by
  cases step with
  | run runs own =>
      have stays := fun other => stays_of_step other own
      cases phase with
      | starting begun rest philosopher split commands started =>
          exact .starting begun rest philosopher split commands started
      | cancelling joined rest split commands started stopped =>
          exact .cancelling joined rest split commands started
            fun other member => (stays other).1 (stopped other member)
      | joining joined rest philosopher split commands started stopped cancelled =>
          exact .joining joined rest philosopher split commands started
            (fun other member => (stays other).1 (stopped other member))
            ((stays philosopher).2 cancelled)
  | @start first rest' now =>
      cases phase with
      | starting begun rest philosopher split commands started =>
          obtain ⟨rfl, left⟩ : first = philosopher ∧
              rest' = rest.map .start ++ destructors philosophers.reverse := by
            simpa [now] using commands
          have started' (other : Tid) (member : other ∈ begun ++ [first]) :
              other ∈ insert first before.started := by
            rcases List.mem_append.mp member with member | member
            · exact Finset.mem_insert_of_mem (started other member)
            · exact Finset.mem_insert.mpr (Or.inl (List.mem_singleton.mp member))
          cases rest with
          | nil =>
              exact .cancelling [] philosophers.reverse rfl left (fun other member => started' other
                (by simpa [split] using member)) nofun
          | cons second rest =>
              exact .starting (begun ++ [first]) rest second (by simp [split]) left started'
      | cancelling joined rest split commands started stopped =>
          cases rest <;> simp [now, destructors] at commands
      | joining joined rest philosopher split commands started stopped cancelled =>
          simp [now] at commands
  | @cancel first rest' _ now own =>
      have stays := fun other => stays_of_step other own
      cases phase with
      | starting begun rest philosopher split commands started => simp [now] at commands
      | cancelling joined rest split commands started stopped =>
          cases rest with
          | nil => simp [now, destructors] at commands
          | cons philosopher rest =>
              obtain ⟨rfl, left⟩ : first = philosopher ∧
                  rest' = .join philosopher :: destructors rest := by
                simpa [now, destructors] using commands
              exact .joining joined rest first split left started
                (fun other member => (stays other).1 (stopped other member))
                (cancelled_of_cancel own)
      | joining joined rest philosopher split commands started stopped cancelled =>
          simp [now] at commands
  | @join first rest' now ended =>
      cases phase with
      | starting begun rest philosopher split commands started => simp [now] at commands
      | cancelling joined rest split commands started stopped =>
          cases rest <;> simp [now, destructors] at commands
      | joining joined rest philosopher split commands started stopped cancelled =>
          obtain ⟨rfl, left⟩ : first = philosopher ∧ rest' = destructors rest := by
            simpa [now] using commands
          refine .cancelling (joined ++ [first]) rest (by simp [split]) left started ?_
          intro other member
          rcases List.mem_append.mp member with member | member
          · exact stopped other member
          · exact List.mem_singleton.mp member ▸ ended

theorem phase_of_reachable (reach : (evening seat philosophers).Reachable dinner) :
    Phase philosophers dinner := by
  refine reach.invariant (motive := Phase philosophers) ?_ ?_
  · rintro start rfl
    cases philosophers with
    | nil => exact .cancelling [] [] rfl rfl nofun nofun
    | cons philosopher rest => exact .starting [] rest philosopher rfl rfl nofun
  · intro before label after _ phase step
    exact phase.step (evening_step_iff.mp step)

theorem reachable_config (reach : (evening seat philosophers).Reachable dinner) :
    (program seat).system.Reachable dinner.config := by
  refine reach.invariant (motive := fun dinner =>
    (program seat).system.Reachable dinner.config) ?_ ?_
  · rintro start rfl
    exact .initial ⟨rfl, rfl⟩
  · intro before label after _ earlier step
    cases evening_step_iff.mp step with
    | start | join => exact earlier
    | cancel _ own | run _ own => exact earlier.step own

/-- When `main` has ended, all philosophers have stopped and all forks are on the table. -/
theorem settled_of_ended (every : ∀ philosopher, philosopher ∈ philosophers)
    (reach : (evening seat philosophers).Reachable dinner) (ended : dinner.commands = []) :
    (∀ philosopher, dinner.config.threads philosopher = .stopped) ∧
      ∀ fork, dinner.config.shared.forks fork = none := by
  have stopped (philosopher : Tid) : dinner.config.threads philosopher = .stopped := by
    cases phase_of_reachable reach with
    | starting begun rest philosopher split commands => simp [ended] at commands
    | joining joined rest philosopher split commands => simp [ended] at commands
    | cancelling joined rest split commands started stopped =>
        cases rest with
        | cons => simp [ended, destructors] at commands
        | nil =>
            refine stopped philosopher ?_
            rw [List.append_nil] at split
            rw [← split, List.mem_reverse]
            exact every philosopher
  refine ⟨stopped, fun fork => ?_⟩
  rw [Option.eq_none_iff_forall_ne_some]
  intro holder held
  have holds := mayHold_of_reachable (reachable_config reach) held
  simp [stopped holder, Pc.MayHold] at holds

/-! ## The way to the end -/

/-- The steps of a philosopher until he tests `m_cancelled`, and the step that stops him. -/
def Pc.stepsLeft : Pc → Nat
  | .lock1 => 6
  | .lock2 => 5
  | .eating => 4
  | .unlock2 => 3
  | .unlock1 => 2
  | .testCancelled => 1
  | .stopped => 0

/-- The philosopher waits for a fork that somebody holds. -/
def Waits (seat : Tid → Seat) (config : Config Tid) (philosopher : Tid) : Prop :=
  Blocked (fun philosopher => (config.threads philosopher).waitsFor (seat philosopher))
    config.shared.forks philosopher

/-- A philosopher that does not wait gets on, unless he is about to begin another round. -/
theorem exists_run_step {config : Config Tid} (free : ¬ Waits seat config philosopher)
    (busy : config.threads philosopher ≠ .stopped)
    (cancelled : config.threads philosopher = .testCancelled →
      config.shared.cancelled philosopher = true) :
    ∃ table' pc', threadStep seat philosopher .run config.shared (config.threads philosopher) =
      some (table', pc') ∧ pc'.stepsLeft < (config.threads philosopher).stepsLeft := by
  have unheld {fork : Nat}
      (waits : (config.threads philosopher).waitsFor (seat philosopher) = some fork) :
      config.shared.forks fork = none := by
    rw [Option.eq_none_iff_forall_ne_some]
    exact fun holder held => free ⟨fork, holder, waits, held⟩
  cases position : config.threads philosopher with
  | stopped => exact absurd position busy
  | testCancelled =>
      exact ⟨config.shared, .stopped, by simp [threadStep, cancelled position], by decide⟩
  | lock1 =>
      have fork := unheld (by rw [position]; rfl)
      exact ⟨config.shared.take philosopher (seat philosopher).fork1, .lock2,
        by simp [threadStep, Table.lock_of_free fork], by decide⟩
  | lock2 =>
      have fork := unheld (by rw [position]; rfl)
      exact ⟨config.shared.take philosopher (seat philosopher).fork2, .eating,
        by simp [threadStep, Table.lock_of_free fork], by decide⟩
  | eating => exact ⟨_, .unlock2, rfl, by decide⟩
  | unlock2 => exact ⟨_, .unlock1, rfl, by decide⟩
  | unlock1 => exact ⟨_, .testCancelled, rfl, by decide⟩

section Progress

variable [Fintype Tid]

/-- The commands that are left, and the steps of the philosophers until they stop. -/
def Dinner.rank (dinner : Dinner Tid) : Nat :=
  dinner.commands.length + ∑ philosopher, (dinner.config.threads philosopher).stepsLeft

omit [DecidableEq Tid] in
theorem rank_lt_of_command {config : Config Tid} {started : Finset Tid} {command : Command Tid}
    {rest : List (Command Tid)} (commands : before.commands = command :: rest)
    (threads : config.threads = before.config.threads) :
    Dinner.rank ⟨config, started, rest⟩ < before.rank := by
  simp [Dinner.rank, commands, threads]

/-- A philosopher that gets on brings the end nearer. -/
theorem exists_lower_of_thread (started : philosopher ∈ before.started)
    (own : ∃ table' pc', threadStep seat philosopher .run before.config.shared
      (before.config.threads philosopher) = some (table', pc') ∧
        pc'.stepsLeft < (before.config.threads philosopher).stepsLeft) :
    ∃ label after, (evening seat philosophers).Step before label after ∧
      after.rank < before.rank := by
  obtain ⟨table', pc', own, less⟩ := own
  refine ⟨.philosopher philosopher, _, evening_step_iff.mpr (.run started
    (Program.system_step_iff.mpr ⟨table', pc', own, rfl⟩)), ?_⟩
  refine Nat.add_lt_add_left (Finset.sum_lt_sum ?_ ⟨philosopher, Finset.mem_univ _, ?_⟩) _
  · intro other _
    by_cases same : other = philosopher
    · subst same
      simpa using less.le
    · simp [same]
  · simpa using less

/-- Without a deadlock `main` gets on, or a philosopher does whose turn brings its end nearer. -/
theorem exists_lower (every : ∀ philosopher, philosopher ∈ philosophers)
    (noDeadlock : ∀ config, (program seat).system.Reachable config → ∀ members, ¬ Deadlocked
      (fun philosopher => (config.threads philosopher).waitsFor (seat philosopher))
      config.shared.forks members)
    (reach : (evening seat philosophers).Reachable before) :
    before.commands = [] ∨ ∃ label after, (evening seat philosophers).Step before label after ∧
      after.rank < before.rank := by
  cases phase_of_reachable reach with
  | starting begun rest philosopher split commands started =>
      exact Or.inr ⟨.main, _, evening_step_iff.mpr (.start commands),
        rank_lt_of_command commands rfl⟩
  | cancelling joined rest split commands started stopped =>
      cases rest with
      | nil => exact Or.inl commands
      | cons philosopher rest =>
          refine Or.inr ⟨.main, _, evening_step_iff.mpr (.cancel commands
            (Program.system_step_iff.mpr ⟨_, _, rfl, rfl⟩)), rank_lt_of_command commands ?_⟩
          exact Function.update_eq_self _ _
  | joining joined rest philosopher split commands started stopped cancelled =>
      right
      by_cases ended : before.config.threads philosopher = .stopped
      · exact ⟨.main, _, evening_step_iff.mpr (.join commands ended),
          rank_lt_of_command commands rfl⟩
      by_cases waits : Waits seat before.config philosopher
      · -- some holder of a fork does not wait, and he is not at the head of his loop
        obtain ⟨fork, holder, held, free⟩ :=
          exists_free_holder (noDeadlock _ (reachable_config reach)) waits
        have holds := mayHold_of_reachable (reachable_config reach) held
        refine exists_lower_of_thread (started holder (every holder)) (exists_run_step free ?_ ?_)
        · intro stopped
          simp [stopped, Pc.MayHold] at holds
        · intro tests
          simp [tests, Pc.MayHold] at holds
      · exact exists_lower_of_thread (started philosopher (every philosopher))
          (exists_run_step waits ended fun _ => cancelled)

/-- Without a deadlock `main` can always come to its end. -/
theorem can_end (every : ∀ philosopher, philosopher ∈ philosophers)
    (noDeadlock : ∀ config, (program seat).system.Reachable config → ∀ members, ¬ Deadlocked
      (fun philosopher => (config.threads philosopher).waitsFor (seat philosopher))
      config.shared.forks members)
    (reach : (evening seat philosophers).Reachable dinner) :
    ∃ trace after, (evening seat philosophers).Run dinner trace after ∧ after.commands = [] := by
  obtain ⟨trace, after, run, -, ended⟩ := (evening seat philosophers).exists_run_of_decreasing
    Nat.lt_wfRel.wf Dinner.rank (motive := (evening seat philosophers).Reachable)
    (fun reach => (exists_lower every noDeadlock reach).imp id
      fun ⟨label, after, step, less⟩ => ⟨label, after, step, reach.step step, less⟩) reach
  exact ⟨trace, after, run, ended⟩

end Progress

/-! ## A deadlock is for ever -/

theorem run_of_config {config config' : Config Tid} {trace : List Tid} {started : Finset Tid}
    {commands : List (Command Tid)} (all : ∀ philosopher, philosopher ∈ started)
    (run : (program seat).system.Run config (trace.map (·, .run)) config') :
    (evening seat philosophers).Run ⟨config, started, commands⟩ (trace.map .philosopher)
      ⟨config', started, commands⟩ := by
  induction trace generalizing config with
  | nil =>
      rcases run.eq_or_exists_cons with ⟨-, rfl⟩ | ⟨_, _, _, same, -⟩
      · exact .nil
      · simp at same
  | cons philosopher trace ih =>
      rcases run.eq_or_exists_cons with ⟨same, -⟩ | ⟨label, rest, middle, same, step, after⟩
      · simp at same
      · obtain ⟨rfl, rfl⟩ := List.cons.inj same
        exact (ih after).cons (evening_step_iff.mpr (.run (all philosopher) step))

theorem exists_run_starts {config : Config Tid} {started : Finset Tid} (rest : List Tid)
    (left : List (Command Tid)) :
    ∃ trace, (evening seat philosophers).Run ⟨config, started, rest.map .start ++ left⟩ trace
      ⟨config, rest.foldl (fun started philosopher => insert philosopher started) started,
        left⟩ := by
  induction rest generalizing started with
  | nil => exact ⟨[], .nil⟩
  | cons philosopher rest ih =>
      obtain ⟨trace, run⟩ := @ih (insert philosopher started)
      exact ⟨.main :: trace, run.cons (evening_step_iff.mpr (.start rfl))⟩

theorem mem_started {started : Finset Tid} {rest : List Tid}
    (member : philosopher ∈ rest ∨ philosopher ∈ started) : philosopher ∈
      rest.foldl (fun started philosopher => insert philosopher started) started := by
  induction rest generalizing started with
  | nil => exact member.resolve_left List.not_mem_nil
  | cons first rest ih =>
      refine ih ?_
      rw [List.mem_cons] at member
      rw [Finset.mem_insert]
      tauto

/-- In some evening one philosopher for each of the first forks holds it, as in `Seated`. -/
theorem exists_seated_evening (every : ∀ philosopher, philosopher ∈ philosophers)
    {sitter : Nat → Tid} {count : Nat}
    (first : ∀ residue < count, (seat (sitter residue)).fork1 = residue) :
    ∃ dinner, (evening seat philosophers).Reachable dinner ∧
      (∀ philosopher, philosopher ∈ dinner.started) ∧ Seated sitter count dinner.config := by
  induction count with
  | zero =>
      obtain ⟨trace, run⟩ : ∃ trace, (evening seat philosophers).Run
          ⟨initial, ∅, mainCommands philosophers⟩ trace _ := exists_run_starts _ _
      exact ⟨_, run.reachable (.initial rfl), fun philosopher => mem_started (Or.inl
        (every philosopher)), nofun, fun _ _ => rfl, fun _ _ => rfl, fun _ => rfl⟩
  | succ count ih =>
      obtain ⟨⟨config, started, commands⟩, reach, all, seated⟩ :=
        ih fun residue small => first residue (by omega)
      obtain ⟨after, run, seated'⟩ := seated.next fun residue small => first residue (by omega)
      have run' : (evening seat philosophers).Run ⟨config, started, commands⟩
          ([sitter count, sitter count].map .philosopher) ⟨after, started, commands⟩ :=
        run_of_config all run
      exact ⟨_, run'.reachable reach, all, seated'⟩

/-- These philosophers wait for each other. -/
def Stuck (seat : Tid → Seat) (config : Config Tid) (members : Set Tid) : Prop :=
  Deadlocked (fun philosopher => (config.threads philosopher).waitsFor (seat philosopher))
    config.shared.forks members

theorem not_run_of_blocked {config config' : Config Tid} (waits : Waits seat config philosopher) :
    ¬ (program seat).system.Step config (philosopher, .run) config' := by
  intro step
  obtain ⟨fork, holder, waits, held⟩ := waits
  dsimp only at waits
  obtain ⟨table', pc', change, -⟩ := exists_stepCase step
  generalize config.threads philosopher = pc at waits change
  cases change with
  | lock1 free | lock2 free =>
      obtain rfl := Option.some.inj waits
      simp [free] at held
  | _ => simp [Pc.waitsFor] at waits

theorem Stuck.step {config config' : Config Tid} {members : Set Tid} {action : Action}
    (stuck : Stuck seat config members) (reach : (program seat).system.Reachable config)
    (step : (program seat).system.Step config (philosopher, action) config') :
    Stuck seat config' members := by
  have change := exists_stepCase step
  obtain ⟨table', pc', change, rfl⟩ := change
  have keeps := (Holds.step (holds_of_reachable reach philosopher) change).2
  have unmoved {member : Tid} (inside : member ∈ members) : member ≠ philosopher ∨
      pc' = config.threads philosopher ∧ table'.forks = config.shared.forks := by
    by_cases same : member = philosopher
    · subst same
      obtain ⟨fork, holder, waits, held, -⟩ := stuck.2 member inside
      have blocked : Waits seat config member := ⟨fork, holder, waits, held⟩
      generalize config.threads member = pc at change
      cases change with
      | cancel => exact Or.inr ⟨rfl, rfl⟩
      | _ => exact absurd step (not_run_of_blocked blocked)
    · exact Or.inl same
  refine ⟨stuck.1, fun member inside => ?_⟩
  obtain ⟨fork, holder, waits, held, within⟩ := stuck.2 member inside
  refine ⟨fork, holder, ?_, ?_, within⟩
  · rcases unmoved inside with other | ⟨same, -⟩
    · simpa [other] using waits
    · by_cases own : member = philosopher
      · subst own
        simpa [same] using waits
      · simpa [own] using waits
  · rcases unmoved within with other | ⟨-, same⟩
    · exact (keeps holder fork other).mpr held
    · exact (congrFun same fork).trans held

/-- Philosophers that wait for each other keep `main` from ending. -/
theorem not_ended_of_stuck {members : Set Tid} {trace : List (Label Tid)}
    (every : ∀ philosopher, philosopher ∈ philosophers)
    (reach : (evening seat philosophers).Reachable before)
    (stuck : Stuck seat before.config members)
    (run : (evening seat philosophers).Run before trace after) : after.commands ≠ [] := by
  intro ended
  have kept : Stuck seat after.config members := by
    refine run.preserves (motive := fun dinner => Stuck seat dinner.config members) reach stuck ?_
    intro before label after reach stuck step
    cases evening_step_iff.mp step with
    | start | join => exact stuck
    | cancel _ own | run _ own => exact stuck.step (reachable_config reach) own
  obtain ⟨⟨member, inside⟩, waiting⟩ := kept
  obtain ⟨fork, holder, waits, -⟩ := waiting member inside
  simp [(settled_of_ended every (run.reachable reach) ended).1 member, Pc.waitsFor] at waits

end Steps

section Dinner

variable {width forkCount : Nat} {indexes : List Nat}

/-- The evening of the philosophers started with `GetSeat(index)` for each index of a list. -/
abbrev dinnerEvening (width forkCount : Nat) (indexes : List Nat) :
    TransitionSystem (Dinner (Fin indexes.length)) (Label (Fin indexes.length)) :=
  evening (fun philosopher => getSeat width forkCount (indexes.get philosopher))
    (List.finRange indexes.length)

/-- With a philosopher waiting at every seat they all wait for each other. -/
theorem Seated.stuck (positive : 0 < forkCount)
    (bounded : ∀ index ∈ indexes, index < 2 ^ width - 1) {sitter : Nat → Fin indexes.length}
    {config : Config (Fin indexes.length)}
    (sits : ∀ residue < forkCount, indexes.get (sitter residue) % forkCount = residue)
    (seated : Seated sitter forkCount config) :
    Stuck (fun philosopher => getSeat width forkCount (indexes.get philosopher)) config
      {philosopher | ∃ residue < forkCount, philosopher = sitter residue} := by
  refine ⟨⟨_, 0, positive, rfl⟩, ?_⟩
  rintro _ ⟨residue, small, rfl⟩
  have next := Nat.mod_lt (residue + 1) positive
  refine ⟨(residue + 1) % forkCount, sitter ((residue + 1) % forkCount), ?_,
    (seated.sitting _ next).1, _, next, rfl⟩
  simp only [(seated.sitting residue small).2, Pc.waitsFor]
  rw [getSeat_fork2 (bounded _ (List.get_mem _ _)), sits residue small]

/-- When every seat is taken, the evening may come to a point from which `main` cannot end. -/
theorem exists_hanging (positive : 0 < forkCount)
    (bounded : ∀ index ∈ indexes, index < 2 ^ width - 1)
    (full : ∀ residue < forkCount, ∃ index ∈ indexes, index % forkCount = residue) :
    ∃ dinner, (dinnerEvening width forkCount indexes).Reachable dinner ∧ ∀ trace after,
      (dinnerEvening width forkCount indexes).Run dinner trace after → after.commands ≠ [] := by
  have exists_sitter : ∀ residue, ∃ philosopher, residue < forkCount →
      indexes.get philosopher % forkCount = residue := by
    intro residue
    obtain ⟨index, member, same⟩ := full (residue % forkCount) (Nat.mod_lt _ positive)
    obtain ⟨philosopher, rfl⟩ := List.get_of_mem member
    exact ⟨philosopher, fun small => same.trans (Nat.mod_eq_of_lt small)⟩
  choose sitter sits using exists_sitter
  obtain ⟨dinner, reach, -, seated⟩ :
      ∃ dinner, (dinnerEvening width forkCount indexes).Reachable dinner ∧
        (∀ philosopher, philosopher ∈ dinner.started) ∧ Seated sitter forkCount dinner.config :=
    exists_seated_evening (List.mem_finRange ·) sits
  exact ⟨dinner, reach, fun trace after => not_ended_of_stuck (List.mem_finRange ·) reach
    (seated.stuck positive bounded sits)⟩

/-- Whenever `main` ends all threads have ended with all forks on the table; and `main` can end,
whatever has happened, exactly when a seat is empty. -/
theorem main_can_end_iff (positive : 0 < forkCount)
    (bounded : ∀ index ∈ indexes, index < 2 ^ width - 1) :
    (∀ dinner, (dinnerEvening width forkCount indexes).Reachable dinner → dinner.commands = [] →
      (∀ philosopher, dinner.config.threads philosopher = .stopped) ∧
        ∀ fork, dinner.config.shared.forks fork = none) ∧
      ((∀ dinner, (dinnerEvening width forkCount indexes).Reachable dinner → ∃ trace after,
        (dinnerEvening width forkCount indexes).Run dinner trace after ∧ after.commands = []) ↔
          ∃ residue < forkCount, ∀ index ∈ indexes, index % forkCount ≠ residue) := by
  refine ⟨fun dinner => settled_of_ended (List.mem_finRange ·), ?_, ?_⟩
  · intro ends
    by_contra full
    push Not at full
    obtain ⟨dinner, reach, hangs⟩ := exists_hanging positive bounded full
    obtain ⟨trace, after, run, ended⟩ := ends dinner reach
    exact hangs trace after run ended
  · rintro ⟨residue, small, empty⟩ dinner reach
    refine can_end (List.mem_finRange ·) ?_ reach
    intro config reach members deadlocked
    obtain ⟨index, member, same⟩ :=
      seats_taken_of_deadlocked positive bounded reach deadlocked residue small
    exact empty index member same

/-- The program's three philosophers take all three seats; without the third one `main` could always
end. -/
theorem main_can_end_iff_three :
    (¬ ∀ dinner, (dinnerEvening 64 3 [0, 1, 2]).Reachable dinner → ∃ trace after,
      (dinnerEvening 64 3 [0, 1, 2]).Run dinner trace after ∧ after.commands = []) ∧
      ∀ dinner, (dinnerEvening 64 3 [0, 1]).Reachable dinner → ∃ trace after,
        (dinnerEvening 64 3 [0, 1]).Run dinner trace after ∧ after.commands = [] :=
  ⟨fun ends => absurd ((main_can_end_iff (by decide) (by decide)).2.mp ends) (by decide),
    (main_can_end_iff (by decide) (by decide)).2.mpr ⟨2, by decide, by decide⟩⟩

end Dinner

end Philosophers
end ConcurrencyCourse
