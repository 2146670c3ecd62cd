import ConcurrencyCourse.SimpleQueue.Implementation
import ConcurrencyCourse.ThreadSafeQueue.Benchmark

/-!
# The benchmark of the queue with one lock

No wake-up is lost, so producers and consumers with a fixed number of calls all come to their end,
and one iteration of `bench_body<SimpleThreadSafeQueue<int>>` hands every number over in order.
-/

namespace ConcurrencyCourse
namespace SimpleQueue

open ThreadSafeQueue ThreadSafeQueue.Benchmark

variable {Tid Value : Type*}

/-- A new queue, and users that are about to make these calls. -/
def users (script : Tid → List (Call Value)) :
    Program.Config Tid (Shared Tid Value) (List (Call Value) × Pc Value) where
  shared := initial.shared
  threads thread := (script thread, .idle)

/-- The start of one iteration of `bench_body` in which `rand` returns `numbers`. -/
def iteration (numbers : List Value) :
    ForkJoin.State Thread (Shared Thread Value) (List (Call Value) × Pc Value) where
  config := users (body numbers)
  started := ∅
  commands := main

theorem eq_of_finished [DecidableEq Tid] [Fintype Tid] {local' : List (Call Value) × Pc Value}
    (ended : (implementation Tid Value).finished local' = true) : local' = ([], .idle) := by
  obtain ⟨todo, pc⟩ := local'
  simp only [Implementation.finished, Bool.and_eq_true, List.isEmpty_iff] at ended
  obtain ⟨rfl, idle⟩ := ended
  cases pc with
  | idle => rfl
  | _ => simp [implementation, Pc.idles] at idle

variable [DecidableEq Value]

/-- Any number of producers and consumers: if at least as many values are pushed as are asked for,
every call returns, whatever the interleaving. -/
theorem users_return [DecidableEq Tid] [Fintype Tid] {script : Tid → List (Call Value)}
    (separate : Implementation.Separate script)
    (enough : ∑ thread, (script thread).countP (! Call.pushes ·) ≤
      ∑ thread, (script thread).countP Call.pushes) :
    ((implementation Tid Value).clientSystem script).InevitableDespite
      (implementation Tid Value).noise (fun client => ∀ thread, client.threads thread = ([], .idle))
      (users script) := by
  have start : ((implementation Tid Value).clientSystem script).Initial (users script) :=
    ⟨⟨rfl, rfl⟩, fun _ => rfl⟩
  refine (Implementation.inevitable_of_wakesConsumers wakesConsumers separate enough start).widen
    (.initial start) fun _ ended thread => ?_
  exact eq_of_finished (ended thread)

/-- Two consumers, and two producers that push one value more than is asked for. -/
def fourUsers : Fin 4 → List (Call Nat)
  | 0 => [.waitAndPop, .tryPop]
  | 1 => [.waitAndPop]
  | 2 => [.push 1, .push 2]
  | 3 => [.push 3, .push 4]

theorem users_return_four : ((implementation (Fin 4) Nat).clientSystem fourUsers).InevitableDespite
    (implementation (Fin 4) Nat).noise (fun client => ∀ thread, client.threads thread = ([], .idle))
    (users fourUsers) :=
  users_return (by decide) (by decide)

/-- One iteration of `bench_body<SimpleThreadSafeQueue<int>>` ends, whatever the interleaving, and
the second thread has then received the numbers in the order in which the first one pushed them. -/
theorem benchBody_completes (numbers : List Value) :
    (benchBody (implementation Thread Value) numbers).InevitableDespite
      (ForkJoin.noisy (implementation Thread Value).noise)
      (fun state => state.commands = [] ∧
        receivedBy .t2 state.config.shared.history = numbers ∧
        state.config.shared.queue.contents = [] ∧
        ∀ thread, state.config.threads thread = ([], .idle)) (iteration numbers) := by
  have start : (benchBody (implementation Thread Value) numbers).Initial (iteration numbers) :=
    ⟨⟨⟨rfl, rfl⟩, fun _ => rfl⟩, rfl, rfl⟩
  refine (inevitable_of_wakesConsumers wakesConsumers start).widen (.initial start)
    fun reach through => ?_
  obtain ⟨received, empty, -⟩ := received_of_through reach through
  have order := view_order (Implementation.reachable_base (reachable_clients reach)).of_restrict
  have nothing := List.append_cancel_left
    ((List.append_nil _).trans (empty.symm.trans order))
  refine ⟨through, received, nothing.symm, fun thread => ?_⟩
  · refine eq_of_finished (ForkJoin.finished_of_join Implementation.final_finished
      reach.of_restrict through ?_)
    cases thread <;> decide

end SimpleQueue
end ConcurrencyCourse
