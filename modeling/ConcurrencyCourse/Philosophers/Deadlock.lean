import ConcurrencyCourse.Philosophers.Model
import ConcurrencyCourse.Library.CircularWait

/-!
# When the philosophers deadlock

A philosopher in a circular wait holds his first fork only, so his neighbour's first fork is the
one he waits for: the wait goes all the way round the table.  Conversely, when every seat is taken,
one philosopher at each seat may pick up his first fork before any of them picks up the second.
-/

namespace ConcurrencyCourse
namespace Philosophers

open CircularWait

/-- The fork that a philosopher is waiting for. -/
def Pc.waitsFor (seat : Seat) : Pc → Option Nat
  | .lock1 => some seat.fork1
  | .lock2 => some seat.fork2
  | _ => none

/-- A philosopher may hold this fork. -/
def Pc.MayHold (seat : Seat) (fork : Nat) : Pc → Prop
  | .lock2 | .unlock1 => fork = seat.fork1
  | .eating | .unlock2 => fork = seat.fork1 ∨ fork = seat.fork2
  | _ => False

section Held

variable {Tid : Type*} [DecidableEq Tid] {seat : Tid → Seat} {philosopher : Tid}
  {table table' : Table Tid} {pc pc' : Pc} {action : Action}

omit [DecidableEq Tid] in
theorem Table.lock_eq_some {fork : Nat} (locked : table.lock philosopher fork = some table') :
    table.forks fork = none ∧
      table'.forks = Function.update table.forks fork (some philosopher) := by
  cases free : table.forks fork with
  | some holder => simp [Table.lock, free] at locked
  | none =>
      obtain rfl : _ = table' := by simpa [Table.lock, free] using locked
      exact ⟨rfl, rfl⟩

/-- What a step does to the forks. -/
inductive ForkStep (seat : Tid → Seat) (philosopher : Tid) (table : Table Tid) (pc : Pc)
    (table' : Table Tid) (pc' : Pc) : Prop
  | same : table'.forks = table.forks →
      (∀ fork, pc.MayHold (seat philosopher) fork → pc'.MayHold (seat philosopher) fork) →
      ForkStep seat philosopher table pc table' pc'
  | lock (fork : Nat) : table'.forks = Function.update table.forks fork (some philosopher) →
      (∀ other, pc.MayHold (seat philosopher) other → pc'.MayHold (seat philosopher) other) →
      pc'.MayHold (seat philosopher) fork → ForkStep seat philosopher table pc table' pc'
  | unlock (fork : Nat) : table'.forks = Function.update table.forks fork none →
      (∀ other, other ≠ fork → pc.MayHold (seat philosopher) other →
        pc'.MayHold (seat philosopher) other) →
      ForkStep seat philosopher table pc table' pc'

theorem forkStep (step : threadStep seat philosopher action table pc = some (table', pc')) :
    ForkStep seat philosopher table pc table' pc' := by
  unfold threadStep at step
  split at step
  · cases step
    exact .same rfl fun _ => id
  · cases step
    exact .same rfl nofun
  · obtain ⟨_, locked, same⟩ := Option.map_eq_some_iff.mp step
    cases same
    exact .lock _ (Table.lock_eq_some locked).2 nofun rfl
  · obtain ⟨_, locked, same⟩ := Option.map_eq_some_iff.mp step
    cases same
    exact .lock _ (Table.lock_eq_some locked).2 (fun _ => Or.inl) (Or.inr rfl)
  · cases step
    exact .same rfl fun _ => id
  · cases step
    exact .unlock _ rfl fun _ differs => Or.rec id fun same => absurd same differs
  · cases step
    exact .unlock _ rfl fun _ differs same => absurd same differs
  · simp at step

omit [DecidableEq Tid] in
/-- A fork held after a step was held before, and by someone who may still hold it, or has just
been locked. -/
theorem ForkStep.held (step : ForkStep seat philosopher table pc table' pc') {fork : Nat}
    {holder : Tid} (held : table'.forks fork = some holder) :
    holder = philosopher ∧ pc'.MayHold (seat philosopher) fork ∨
      table.forks fork = some holder ∧ (pc.MayHold (seat philosopher) fork →
        pc'.MayHold (seat philosopher) fork) := by
  cases step with
  | same forks keeps =>
      rw [forks] at held
      exact Or.inr ⟨held, keeps fork⟩
  | lock locked forks keeps holds =>
      rw [forks] at held
      by_cases same : fork = locked
      · subst same
        rw [Function.update_self] at held
        exact Or.inl ⟨(Option.some.inj held).symm, holds⟩
      · rw [Function.update_of_ne same] at held
        exact Or.inr ⟨held, keeps fork⟩
  | unlock unlocked forks keeps =>
      rw [forks] at held
      by_cases same : fork = unlocked
      · simp [same] at held
      · rw [Function.update_of_ne same] at held
        exact Or.inr ⟨held, keeps fork same⟩

theorem mayHold_of_reachable {config : Config Tid}
    (reach : (program seat).system.Reachable config) {fork : Nat}
    (held : config.shared.forks fork = some philosopher) :
    (config.threads philosopher).MayHold (seat philosopher) fork := by
  refine reach.invariant (motive := fun config => ∀ fork philosopher,
    config.shared.forks fork = some philosopher →
      (config.threads philosopher).MayHold (seat philosopher) fork) ?_ ?_ fork philosopher held
  · rintro ⟨table, threads⟩ ⟨rfl, rfl⟩ fork philosopher held
    simp [initial] at held
  · rintro before ⟨mover, action⟩ after - asserted step fork philosopher held
    obtain ⟨table', pc', taken, rfl⟩ := Program.system_step_iff.mp step
    rcases (forkStep taken).held held with ⟨rfl, holds⟩ | ⟨before, keeps⟩
    · simpa using holds
    · by_cases same : philosopher = mover
      · subst same
        simpa using keeps (asserted fork philosopher before)
      · simpa [same] using asserted fork philosopher before

/-- In a circular wait every holder waits for his second fork and holds only his first. -/
theorem holder_of_deadlocked {config : Config Tid} {members : Set Tid}
    (reach : (program seat).system.Reachable config)
    (deadlocked : Deadlocked (fun philosopher => (config.threads philosopher).waitsFor
      (seat philosopher)) config.shared.forks members) {fork : Nat}
    (held : config.shared.forks fork = some philosopher) (member : philosopher ∈ members) :
    config.threads philosopher = .lock2 ∧ fork = (seat philosopher).fork1 := by
  obtain ⟨wanted, -, waits, -⟩ := deadlocked.2 philosopher member
  have holds := mayHold_of_reachable reach held
  cases position : config.threads philosopher with
  | lock2 => exact ⟨rfl, by simpa [position, Pc.MayHold] using holds⟩
  | lock1 => simp [position, Pc.MayHold] at holds
  | _ => simp [position, Pc.waitsFor] at waits

/-! ## Everyone picks up his first fork -/

/-- The philosophers of the first `count` seats hold their first forks; the others have not
begun. -/
structure Seated (sitter : Nat → Tid) (count : Nat) (config : Config Tid) : Prop where
  sitting : ∀ residue < count, config.shared.forks residue = some (sitter residue) ∧
    config.threads (sitter residue) = .lock2
  free : ∀ fork, count ≤ fork → config.shared.forks fork = none
  begun : ∀ philosopher, (∀ residue < count, philosopher ≠ sitter residue) →
    config.threads philosopher = .testCancelled
  running : ∀ philosopher, config.shared.cancelled philosopher = false

/-- One more philosopher starts and locks his first fork. -/
theorem Seated.next {sitter : Nat → Tid} {count : Nat} {config : Config Tid}
    (seated : Seated sitter count config)
    (first : ∀ residue ≤ count, (seat (sitter residue)).fork1 = residue) :
    ∃ after, (program seat).system.Run config [(sitter count, .run), (sitter count, .run)] after ∧
      Seated sitter (count + 1) after := by
  have fresh : ∀ residue < count, sitter count ≠ sitter residue := by
    intro residue small same
    have here := first count (Nat.le_refl _)
    rw [same, first residue small.le] at here
    omega
  have position := seated.begun _ fresh
  let started : Config Tid :=
    ⟨config.shared, Function.update config.threads (sitter count) .lock1⟩
  let locked : Config Tid :=
    ⟨{ config.shared with
        forks := Function.update config.shared.forks count (some (sitter count)) },
      Function.update started.threads (sitter count) .lock2⟩
  have starts : (program seat).system.Step config (sitter count, .run) started := by
    refine Program.system_step_iff.mpr ⟨_, _, ?_, rfl⟩
    simp [program, threadStep, position, seated.running]
  have locks : (program seat).system.Step started (sitter count, .run) locked := by
    refine Program.system_step_iff.mpr ⟨_, _, ?_, rfl⟩
    simp [program, threadStep, started, Table.lock, first count (Nat.le_refl _),
      seated.free count (Nat.le_refl _)]
  refine ⟨locked, .cons starts (.cons locks .nil), ?_, ?_, ?_, seated.running⟩
  · intro residue small
    rcases Nat.lt_succ_iff_lt_or_eq.mp small with less | rfl
    · obtain ⟨held, waits⟩ := seated.sitting residue less
      simp [locked, started, less.ne, (fresh residue less).symm, held, waits]
    · simp [locked]
  · intro fork large
    simp [locked, (Nat.lt_of_succ_le large).ne', seated.free fork (Nat.le_of_succ_le large)]
  · intro philosopher differs
    have other : philosopher ≠ sitter count := differs count (Nat.lt_succ_self _)
    simpa [locked, started, other] using
      seated.begun philosopher fun residue small => differs residue (Nat.lt_succ_of_lt small)

theorem exists_seated {sitter : Nat → Tid} {count : Nat}
    (first : ∀ residue < count, (seat (sitter residue)).fork1 = residue) :
    ∃ config, (program seat).system.Reachable config ∧ Seated sitter count config := by
  induction count with
  | zero =>
      exact ⟨initial, .initial ⟨rfl, rfl⟩, nofun, fun _ _ => rfl, fun _ _ => rfl, fun _ => rfl⟩
  | succ count ih =>
      obtain ⟨config, reach, seated⟩ := ih fun residue small => first residue (by omega)
      obtain ⟨after, run, seated'⟩ := seated.next fun residue small => first residue (by omega)
      exact ⟨after, run.reachable reach, seated'⟩

end Held

/-! ## The way round the table -/

/-- A set of residues closed under the next one is empty or full. -/
theorem forall_residue_of_next {count : Nat} {taken : Nat → Prop} {first : Nat}
    (start : taken first) (small : first < count)
    (next : ∀ residue, taken residue → taken ((residue + 1) % count)) :
    ∀ residue < count, taken residue := by
  have onward (distance : Nat) : taken ((first + distance) % count) := by
    induction distance with
    | zero => rwa [Nat.add_zero, Nat.mod_eq_of_lt small]
    | succ distance ih => simpa [Nat.add_assoc] using next _ ih
  intro residue inside
  have around := onward (residue + (count - first))
  rwa [show first + (residue + (count - first)) = residue + count by omega, Nat.add_mod_right,
    Nat.mod_eq_of_lt inside] at around

section Dinner

variable {width forkCount : Nat} {indexes : List Nat}

theorem getSeat_fork2 {index : Nat} (bounded : index < 2 ^ width - 1) :
    (getSeat width forkCount index).fork2 = (index % forkCount + 1) % forkCount := by
  have small : index + 1 < 2 ^ width := by omega
  simp only [getSeat, Nat.mod_eq_of_lt small, Nat.mod_add_mod]

/-- A circular wait takes every seat. -/
theorem seats_taken_of_deadlocked (positive : 0 < forkCount)
    (bounded : ∀ index ∈ indexes, index < 2 ^ width - 1)
    {config : Config (Fin indexes.length)} {members : Set (Fin indexes.length)}
    (reach : (dinner width forkCount indexes).system.Reachable config)
    (deadlocked : Deadlocked (fun philosopher => (config.threads philosopher).waitsFor
      (getSeat width forkCount (indexes.get philosopher))) config.shared.forks members) :
    ∀ residue < forkCount, ∃ index ∈ indexes, index % forkCount = residue := by
  -- the residues of the members that have their first fork
  let taken (residue : Nat) := ∃ philosopher ∈ members, config.threads philosopher = .lock2 ∧
    indexes.get philosopher % forkCount = residue
  have holder {philosopher fork} (held : config.shared.forks fork = some philosopher)
      (member : philosopher ∈ members) : taken fork := by
    obtain ⟨position, rfl⟩ := holder_of_deadlocked reach deadlocked held member
    exact ⟨philosopher, member, position, rfl⟩
  have next (residue : Nat) : taken residue → taken ((residue + 1) % forkCount) := by
    rintro ⟨philosopher, member, position, rfl⟩
    obtain ⟨wanted, other, waits, held, inside⟩ := deadlocked.2 philosopher member
    dsimp only at waits
    rw [position] at waits
    obtain rfl := Option.some.inj waits
    rw [getSeat_fork2 (bounded _ (List.get_mem _ _))] at held
    exact holder held inside
  obtain ⟨first, member⟩ := deadlocked.1
  obtain ⟨_, other, -, held, inside⟩ := deadlocked.2 first member
  have begun := holder held inside
  have all := forall_residue_of_next begun ?_ next
  · intro residue small
    obtain ⟨philosopher, -, -, same⟩ := all residue small
    exact ⟨_, List.get_mem _ _, same⟩
  · obtain ⟨philosopher, -, -, same⟩ := begun
    rw [← same]
    exact Nat.mod_lt _ positive

/-- When every seat is taken, a circular wait is reachable. -/
theorem exists_deadlock (positive : 0 < forkCount)
    (bounded : ∀ index ∈ indexes, index < 2 ^ width - 1)
    (full : ∀ residue < forkCount, ∃ index ∈ indexes, index % forkCount = residue) :
    ∃ config members, (dinner width forkCount indexes).system.Reachable config ∧
      Deadlocked (fun philosopher => (config.threads philosopher).waitsFor
        (getSeat width forkCount (indexes.get philosopher))) config.shared.forks members := by
  have exists_sitter : ∀ residue, ∃ philosopher, residue < forkCount →
      indexes.get philosopher % forkCount = residue := by
    intro residue
    obtain ⟨index, member, same⟩ := full (residue % forkCount) (Nat.mod_lt _ positive)
    obtain ⟨philosopher, rfl⟩ := List.get_of_mem member
    exact ⟨philosopher, fun small => same.trans (Nat.mod_eq_of_lt small)⟩
  choose sitter sits using exists_sitter
  obtain ⟨config, reach, seated⟩ := @exists_seated _ _
    (fun philosopher => getSeat width forkCount (indexes.get philosopher)) sitter forkCount sits
  refine ⟨config, {philosopher | ∃ residue < forkCount, philosopher = sitter residue}, reach,
    ⟨_, 0, positive, rfl⟩, ?_⟩
  rintro _ ⟨residue, small, rfl⟩
  have next := Nat.mod_lt (residue + 1) positive
  refine ⟨(residue + 1) % forkCount, sitter ((residue + 1) % forkCount), ?_,
    (seated.sitting _ next).1, _, next, rfl⟩
  simp only [(seated.sitting residue small).2, Pc.waitsFor]
  rw [getSeat_fork2 (bounded _ (List.get_mem _ _)), sits residue small]

/-- A circular wait is reachable exactly when every seat of the table is taken. -/
theorem deadlock_reachable_iff (positive : 0 < forkCount)
    (bounded : ∀ index ∈ indexes, index < 2 ^ width - 1) :
    (∃ config members, (dinner width forkCount indexes).system.Reachable config ∧
      Deadlocked (fun philosopher => (config.threads philosopher).waitsFor
        (getSeat width forkCount (indexes.get philosopher))) config.shared.forks members) ↔
      ∀ residue < forkCount, ∃ index ∈ indexes, index % forkCount = residue :=
  ⟨fun ⟨_, _, reach, deadlocked⟩ => seats_taken_of_deadlocked positive bounded reach deadlocked,
    exists_deadlock positive bounded⟩

/-- The table of the program seats three philosophers at three forks. -/
theorem deadlock_reachable_iff_three : ∃ config members,
    (dinner 64 3 [0, 1, 2]).system.Reachable config ∧
      Deadlocked (fun philosopher => (config.threads philosopher).waitsFor
        (getSeat 64 3 ([0, 1, 2].get philosopher))) config.shared.forks members :=
  (deadlock_reachable_iff (by decide) (by decide)).mpr (by decide)

end Dinner

end Philosophers
end ConcurrencyCourse
