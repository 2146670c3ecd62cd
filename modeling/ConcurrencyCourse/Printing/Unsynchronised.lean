import ConcurrencyCourse.Library.ForkJoin
import ConcurrencyCourse.Library.Merge

/-!
# Threads that print at the same time

The threads of `3_mutex.cpp` and `7_condition_variable.cpp` write to `std::cout` without a lock.
Each insertion of a character is one step.  `main` constructs the threads one after the other, and
their destructors join them in the reverse order.
-/

namespace ConcurrencyCourse
namespace Printing

open Merge ForkJoin

/-- Threads that print the texts character by character; the rest of its text is the local state of
a thread. -/
def printers {Tid : Type*} (texts : Tid → List Char) :
    Program Tid Unit (List Char) (List Char) where
  Initial output rests := output = [] ∧ rests = texts
  step _ _ output rest :=
    match rest with
    | [] => none
    | character :: rest => some (output ++ [character], rest)

/-- A `main` whose threads print the texts. -/
def printing {count : Nat} (texts : Fin count → List Char) :
    TransitionSystem (State (Fin count) (List Char) (List Char)) (Label (Fin count) Unit) :=
  system (printers texts) List.isEmpty
    (startThenJoin (List.finRange count) (List.finRange count).reverse)

/-- The two threads of `7_condition_variable.cpp`. -/
def pingPong : Fin 2 → List Char
  | 0 => (List.replicate 10 "ping\n".toList).flatten
  | 1 => (List.replicate 10 "pong\n".toList).flatten

section Threads

variable {Tid : Type*} [DecidableEq Tid] {texts : Tid → List Char}
  {config : Program.Config Tid (List Char) (List Char)} {tagged : List (Tid × Char)}

/-- What has been printed is a merge of what the threads have printed of their texts. -/
theorem exists_tagged_of_reachable (reach : (printers texts).system.Reachable config) :
    ∃ tagged : List (Tid × Char), tagged.map Prod.snd = config.shared ∧
      ∀ thread, own thread tagged ++ config.threads thread = texts thread := by
  refine reach.invariant (motive := fun config => ∃ tagged : List (Tid × Char),
    tagged.map Prod.snd = config.shared ∧
      ∀ thread, own thread tagged ++ config.threads thread = texts thread) ?_ ?_
  · rintro ⟨output, rests⟩ ⟨rfl, rfl⟩
    exact ⟨[], rfl, fun thread => rfl⟩
  · rintro before ⟨thread, action⟩ after - ⟨tagged, printed, whole⟩ step
    obtain ⟨output, rest, taken, rfl⟩ := Program.system_step_iff.mp step
    have ownText := whole thread
    cases position : before.threads thread with
    | nil => simp [printers, position] at taken
    | cons character others =>
        obtain ⟨rfl, rfl⟩ : before.shared ++ [character] = output ∧ others = rest := by
          simpa [printers, position] using taken
        refine ⟨tagged ++ [(thread, character)], by simp [printed], fun other => ?_⟩
        rw [own_snoc]
        by_cases same : other = thread
        · subst same
          rw [position] at ownText
          simpa using ownText
        · simpa [same] using whole other

/-- The threads can print their texts in any order of the tags. -/
theorem exists_run_tagged (rests : ∀ thread, config.threads thread = own thread tagged) :
    ∃ trace after, (printers texts).system.Run config trace after ∧
      (∀ thread, after.threads thread = []) ∧
        after.shared = config.shared ++ tagged.map Prod.snd := by
  induction tagged generalizing config with
  | nil => exact ⟨[], config, .nil, rests, by simp⟩
  | cons element tagged ih =>
      obtain ⟨thread, character⟩ := element
      have mine : config.threads thread = character :: own thread tagged := by simp [rests thread]
      let middle : Program.Config Tid (List Char) (List Char) :=
        ⟨config.shared ++ [character], Function.update config.threads thread (own thread tagged)⟩
      have step : (printers texts).system.Step config (thread, ()) middle :=
        Program.system_step_iff.mpr ⟨_, _, by simp [printers, mine], rfl⟩
      obtain ⟨trace, after, run, ended, printed⟩ := @ih middle fun other => by
        by_cases same : other = thread
        · subst same
          simp [middle]
        · simp [middle, same, rests other, own_cons_of_ne (Ne.symm same)]
      exact ⟨_, after, run.cons step, ended, by simp [printed, middle]⟩

end Threads

variable {count : Nat} {texts : Fin count → List Char}

theorem final_isEmpty : Final (printers texts) List.isEmpty := by
  intro thread action output rest empty
  obtain rfl := List.isEmpty_iff.mp empty
  rfl

theorem inevitable_through {state : State (Fin count) (List Char) (List Char)}
    (initial : (printing texts).Initial state) :
    (printing texts).Inevitable (fun state => state.commands = []) state := by
  have despite : ((printing texts).restrict (Permits fun _ _ _ => True)).InevitableDespite
      (noisy fun _ => false) (fun state => state.commands = []) state := by
    refine inevitable_of_threads (motive := fun _ => True) final_isEmpty List.mem_finRange
      (fun config => Program.sumThreads List.length config.threads) (fun _ => false) 0
      (fun _ => trivial) ?_ ?_ initial
    · rintro before ⟨thread, action⟩ after - step
      obtain ⟨output, rest, taken, rfl⟩ := Program.system_step_iff.mp step.1
      have change := Program.sumThreads_update List.length before.threads thread rest
      refine ⟨trivial, ?_⟩
      cases position : before.threads thread with
      | nil => simp [printers, position] at taken
      | cons character others =>
          obtain ⟨-, rfl⟩ : _ ∧ others = rest := by simpa [printers, position] using taken
          rw [position, List.length_cons] at change
          simp only [Bool.toNat_false]
          omega
    · intro config _ stuck thread _
      cases position : config.threads thread with
      | nil => rfl
      | cons character rest =>
          have step : (printers texts).system.Step config (thread, ())
              ⟨config.shared ++ [character], Function.update config.threads thread rest⟩ :=
            Program.system_step_iff.mpr ⟨_, _, by simp [printers, position], rfl⟩
          simpa using stuck _ _ ⟨step, trivial⟩
  exact (despite.of_restrict fun _ => permits_all).inevitable fun label => by cases label <;> rfl

end Printing
end ConcurrencyCourse
