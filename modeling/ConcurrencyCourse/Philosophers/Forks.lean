import ConcurrencyCourse.Philosophers.Deadlock

/-!
# Who eats

A philosopher that eats holds the two forks of his seat, and they are different.  Neighbours
therefore never eat at the same time, and at most half as many philosophers eat at once as there are
forks; at a table with a single fork nobody ever eats.
-/

namespace ConcurrencyCourse
namespace Philosophers

section Held

variable {Tid : Type*} [DecidableEq Tid] {seat : Tid → Seat} {philosopher : Tid}
  {table table' : Table Tid} {pc pc' : Pc} {action : Action} {config : Config Tid}

/-- The table after a philosopher has taken a fork. -/
def Table.take (table : Table Tid) (philosopher : Tid) (fork : Nat) : Table Tid :=
  { table with forks := Function.update table.forks fork (some philosopher) }

/-- Effects of every step of a philosopher. -/
inductive StepCase (seat : Tid → Seat) (philosopher : Tid) (table : Table Tid) :
    Action → Pc → Table Tid → Pc → Prop
  | cancel (pc : Pc) : StepCase seat philosopher table .cancel pc
      { table with cancelled := Function.update table.cancelled philosopher true } pc
  | stop : table.cancelled philosopher = true →
      StepCase seat philosopher table .run .testCancelled table .stopped
  | hunger : table.cancelled philosopher = false →
      StepCase seat philosopher table .run .testCancelled table .lock1
  | lock1 : table.forks (seat philosopher).fork1 = none →
      StepCase seat philosopher table .run .lock1
        (table.take philosopher (seat philosopher).fork1) .lock2
  | lock2 : table.forks (seat philosopher).fork2 = none →
      StepCase seat philosopher table .run .lock2
        (table.take philosopher (seat philosopher).fork2) .eating
  | eat : StepCase seat philosopher table .run .eating table .unlock2
  | unlock2 : StepCase seat philosopher table .run .unlock2
      (table.unlock (seat philosopher).fork2) .unlock1
  | unlock1 : StepCase seat philosopher table .run .unlock1
      (table.unlock (seat philosopher).fork1) .testCancelled

omit [DecidableEq Tid] in
theorem Table.eq_take_of_lock {fork : Nat} (locked : table.lock philosopher fork = some table') :
    table.forks fork = none ∧ table' = table.take philosopher fork := by
  cases free : table.forks fork with
  | some holder => simp [Table.lock, free] at locked
  | none => simpa [Table.lock, free, Table.take, eq_comm] using locked

omit [DecidableEq Tid] in
theorem Table.lock_of_free {fork : Nat} (free : table.forks fork = none) :
    table.lock philosopher fork = some (table.take philosopher fork) := by
  simp [Table.lock, free, Table.take]

theorem threadStep_cases (step : threadStep seat philosopher action table pc = some (table', pc')) :
    StepCase seat philosopher table action pc table' pc' := by
  unfold threadStep at step
  split at step
  · cases step
    exact .cancel _
  · cases step
    split
    · exact .stop ‹_›
    · exact .hunger (Bool.eq_false_of_not_eq_true ‹_›)
  · obtain ⟨_, locked, same⟩ := Option.map_eq_some_iff.mp step
    cases same
    obtain ⟨free, rfl⟩ := Table.eq_take_of_lock locked
    exact .lock1 free
  · obtain ⟨_, locked, same⟩ := Option.map_eq_some_iff.mp step
    cases same
    obtain ⟨free, rfl⟩ := Table.eq_take_of_lock locked
    exact .lock2 free
  · cases step
    exact .eat
  · cases step
    exact .unlock2
  · cases step
    exact .unlock1
  · simp at step

theorem exists_stepCase {config' : Config Tid}
    (step : (program seat).system.Step config (philosopher, action) config') :
    ∃ table' pc', StepCase seat philosopher config.shared action (config.threads philosopher) table'
        pc' ∧ config' = ⟨table', Function.update config.threads philosopher pc'⟩ := by
  obtain ⟨table', pc', own, rfl⟩ := Program.system_step_iff.mp step
  exact ⟨table', pc', threadStep_cases own, rfl⟩

/-! ## The forks that a philosopher holds -/

/-- The forks that a philosopher is sure to hold. -/
def Pc.holds (seat : Seat) : Pc → List Nat
  | .lock2 | .unlock1 => [seat.fork1]
  | .eating | .unlock2 => [seat.fork1, seat.fork2]
  | _ => []

/-- What a philosopher knows of the table. -/
structure Holds (seat : Tid → Seat) (philosopher : Tid) (table : Table Tid) (pc : Pc) : Prop where
  held : ∀ fork ∈ pc.holds (seat philosopher), table.forks fork = some philosopher
  distinct : (pc.holds (seat philosopher)).Nodup

omit [DecidableEq Tid] in
theorem forks_take {fork other : Nat} {holder : Tid} (free : table.forks fork = none)
    (foreign : holder ≠ philosopher) :
    (table.take philosopher fork).forks other = some holder ↔ table.forks other = some holder := by
  by_cases same : other = fork
  · subst same
    simp [Table.take, free, foreign.symm]
  · simp [Table.take, same]

omit [DecidableEq Tid] in
theorem forks_unlock {fork other : Nat} {holder : Tid}
    (held : table.forks fork = some philosopher) (foreign : holder ≠ philosopher) :
    (table.unlock fork).forks other = some holder ↔ table.forks other = some holder := by
  by_cases same : other = fork
  · subst same
    simp [Table.unlock, held, foreign.symm]
  · simp [Table.unlock, same]

/-- A step keeps what its philosopher knows, and takes from no other philosopher what he holds. -/
theorem Holds.step (holds : Holds seat philosopher table pc)
    (step : StepCase seat philosopher table action pc table' pc') :
    Holds seat philosopher table' pc' ∧ ∀ other fork, other ≠ philosopher →
      (table'.forks fork = some other ↔ table.forks fork = some other) := by
  obtain ⟨held, distinct⟩ := holds
  cases step with
  | cancel => exact ⟨⟨held, distinct⟩, fun _ _ _ => Iff.rfl⟩
  | stop | hunger => exact ⟨⟨nofun, List.nodup_nil⟩, fun _ _ _ => Iff.rfl⟩
  | eat => exact ⟨⟨held, distinct⟩, fun _ _ _ => Iff.rfl⟩
  | lock1 free =>
      refine ⟨⟨?_, List.nodup_singleton _⟩, fun other fork => forks_take free⟩
      simp [Pc.holds, Table.take]
  | lock2 free =>
      have first : table.forks (seat philosopher).fork1 = some philosopher :=
        held _ (List.mem_singleton_self _)
      have apart : (seat philosopher).fork1 ≠ (seat philosopher).fork2 := by
        intro same
        rw [same, free] at first
        simp at first
      refine ⟨⟨?_, ?_⟩, fun other fork => forks_take free⟩
      · simp [Pc.holds, Table.take, apart, first]
      · simp [Pc.holds, apart]
  | unlock2 =>
      have apart : (seat philosopher).fork1 ≠ (seat philosopher).fork2 := by
        simpa [Pc.holds] using distinct
      have first := held (seat philosopher).fork1 (by simp [Pc.holds])
      have second := held (seat philosopher).fork2 (by simp [Pc.holds])
      refine ⟨⟨?_, List.nodup_singleton _⟩, fun other fork => forks_unlock second⟩
      simp [Pc.holds, Table.unlock, apart, first]
  | unlock1 =>
      have first := held (seat philosopher).fork1 (by simp [Pc.holds])
      exact ⟨⟨nofun, List.nodup_nil⟩, fun other fork => forks_unlock first⟩

theorem holds_of_reachable (reach : (program seat).system.Reachable config) (philosopher : Tid) :
    Holds seat philosopher config.shared (config.threads philosopher) := by
  refine (Program.invariant_of_assertions (fun _ => True)
    (fun philosopher => Holds seat philosopher) ?_ ?_ reach.unrestricted).2 philosopher
  · rintro table threads ⟨rfl, rfl⟩
    exact ⟨trivial, fun philosopher => ⟨by simp [initial, Pc.holds], by simp [initial, Pc.holds]⟩⟩
  · intro before after mover action table' pc' asserted _ step _
    obtain ⟨mine, others⟩ := (asserted mover).step (threadStep_cases step)
    refine ⟨trivial, mine, fun other pc foreign holds => ⟨fun fork member => ?_, holds.distinct⟩⟩
    exact (others other fork foreign).mpr (holds.held fork member)

theorem disjoint_holds (reach : (program seat).system.Reachable config) {other : Tid}
    (different : philosopher ≠ other) :
    ((config.threads philosopher).holds (seat philosopher)).Disjoint
      ((config.threads other).holds (seat other)) := by
  intro fork mine yours
  have held := (holds_of_reachable reach philosopher).held fork mine
  have held' := (holds_of_reachable reach other).held fork yours
  exact different (Option.some.inj (held.symm.trans held'))

end Held

section Dinner

variable {width forkCount : Nat} {indexes : List Nat} {config : Config (Fin indexes.length)}

/-- The philosopher has both forks and eats. -/
def Pc.eats : Pc → Bool
  | .eating => true
  | _ => false

/-- The two forks of a seat. -/
def Seat.forks (seat : Seat) : List Nat := [seat.fork1, seat.fork2]

theorem forks_lt (positive : 0 < forkCount) {index fork : Nat}
    (member : fork ∈ (getSeat width forkCount index).forks) : fork < forkCount := by
  simp only [Seat.forks, getSeat, List.mem_cons, List.not_mem_nil, or_false] at member
  rcases member with rfl | rfl <;> exact Nat.mod_lt _ positive

/-- Philosophers that eat at the same time have no fork in common, and there are twice as many forks
as philosophers eating. -/
theorem eaters_share_nothing (positive : 0 < forkCount)
    (reach : (dinner width forkCount indexes).system.Reachable config) :
    (∀ philosopher other, config.threads philosopher = .eating → config.threads other = .eating →
      philosopher ≠ other →
        (getSeat width forkCount (indexes.get philosopher)).forks.Disjoint
          (getSeat width forkCount (indexes.get other)).forks) ∧
      2 * Program.countThreads Pc.eats config.threads ≤ forkCount := by
  have apart (philosopher other : Fin indexes.length)
      (eats : config.threads philosopher = .eating) (eats' : config.threads other = .eating)
      (different : philosopher ≠ other) :
      (getSeat width forkCount (indexes.get philosopher)).forks.Disjoint
        (getSeat width forkCount (indexes.get other)).forks := by
    have disjoint := disjoint_holds reach different
    rw [eats, eats'] at disjoint
    exact disjoint
  refine ⟨apart, ?_⟩
  -- the forks of those who eat, two for each of them
  let eaters := Finset.univ.filter fun philosopher => (config.threads philosopher).eats = true
  let forks (philosopher : Fin indexes.length) :=
    (getSeat width forkCount (indexes.get philosopher)).forks.toFinset
  have eating {philosopher : Fin indexes.length} (member : philosopher ∈ eaters) :
      config.threads philosopher = .eating := by
    have eats := (Finset.mem_filter.mp member).2
    cases position : config.threads philosopher with
    | eating => rfl
    | _ => simp [position, Pc.eats] at eats
  have two {philosopher : Fin indexes.length} (member : philosopher ∈ eaters) :
      (forks philosopher).card = 2 := by
    have distinct := (holds_of_reachable reach philosopher).distinct
    rw [eating member] at distinct
    exact List.toFinset_card_of_nodup distinct
  have all : eaters.biUnion forks ⊆ Finset.range forkCount := by
    intro fork member
    obtain ⟨philosopher, -, own⟩ := Finset.mem_biUnion.mp member
    exact Finset.mem_range.mpr (forks_lt positive (List.mem_toFinset.mp own))
  have card : (eaters.biUnion forks).card = eaters.card * 2 := by
    rw [Finset.card_biUnion, Finset.sum_const_nat fun philosopher member => two member]
    intro philosopher member other member' different
    exact List.disjoint_toFinset_iff_disjoint.mpr
      (apart philosopher other (eating member) (eating member') different)
  have bound := Finset.card_le_card all
  rw [card, Finset.card_range] at bound
  have counted : Program.countThreads Pc.eats config.threads = eaters.card := rfl
  omega

/-- At a table with four seats and four philosophers two of them eat at once. -/
theorem eaters_share_nothing_four : ∃ config,
    (dinner 64 4 [0, 1, 2, 3]).system.Reachable config ∧ config.threads 0 = .eating ∧
      config.threads 2 = .eating ∧ (getSeat 64 4 0).forks.Disjoint (getSeat 64 4 2).forks := by
  have eat : ∃ config, ((dinner 64 4 [0, 1, 2, 3]).system.restrict fun _ _ _ => True).Run initial
      (List.replicate 3 (0, .run) ++ List.replicate 3 (2, .run)) config ∧
        (config.threads 0 = .eating ∧ config.threads 2 = .eating) :=
    Program.exists_run_of_execute (by decide)
  obtain ⟨config, run, first, third⟩ := eat
  have reach : (dinner 64 4 [0, 1, 2, 3]).system.Reachable config := by
    refine (run.reachable ?_).of_restrict
    exact .initial ⟨rfl, rfl⟩
  exact ⟨config, reach, first, third,
    (eaters_share_nothing (by decide) reach).1 0 2 first third (by decide)⟩

end Dinner

end Philosophers
end ConcurrencyCourse
