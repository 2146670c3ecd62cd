import ConcurrencyCourse.ThreadSafeQueue.Clients

/-!
# One iteration of bench_body

`bench_body` is a template over the queue: a first thread pushes one random number after the other,
a second thread calls `wait_and_pop` as often, and the destructors of the two `JoinableThread`
objects join the second thread before the first.  Only then is the queue destroyed.
-/

namespace ConcurrencyCourse
namespace ThreadSafeQueue
namespace Benchmark

open Program (Config)

/-- The two threads of `bench_body`. -/
inductive Thread
  | t1
  | t2
  deriving DecidableEq

instance : Fintype Thread := ⟨{.t1, .t2}, fun thread => by cases thread <;> decide⟩

variable {Value Action Shared Local : Type*}

/-- What the threads do when the calls of `rand` return `numbers`. -/
def body (numbers : List Value) : Thread → List (Call Value)
  | .t1 => numbers.map .push
  | .t2 => numbers.map fun _ => .waitAndPop

/-- The thread that runs the benchmark: `t2` is destroyed before `t1`. -/
def main : List (ForkJoin.Command Thread) := ForkJoin.startThenJoin [.t1, .t2] [.t2, .t1]

section Runs

variable [DecidableEq Value] (queue : Implementation Thread Value Action Shared Local)
  (numbers : List Value)

/-- The runs of one iteration in which nothing throws. -/
def benchBody : TransitionSystem (ForkJoin.State Thread Shared (List (Call Value) × Local))
    (ForkJoin.Label Thread Action) :=
  (ForkJoin.system (queue.clients (body numbers)) queue.finished main).restrict
    (ForkJoin.Permits fun _ label _ => queue.throws label.2 = false)

variable {queue numbers} {state : ForkJoin.State Thread Shared (List (Call Value) × Local)}

theorem reachable_clients (reach : (benchBody queue numbers).Reachable state) :
    (queue.clientSystem (body numbers)).Reachable state.config :=
  ForkJoin.reachable_config reach

omit [DecidableEq Value] in
theorem sum_threads (weight : Thread → Nat) :
    ∑ thread, weight thread = weight .t1 + weight .t2 := by
  have every : (Finset.univ : Finset Thread) = {.t1, .t2} := rfl
  have distinct : Thread.t1 ≠ Thread.t2 := by decide
  rw [every, Finset.sum_pair distinct]

omit [DecidableEq Value] in
theorem countP_pushes :
    ∑ thread, (body numbers thread).countP Call.pushes = numbers.length := by
  rw [sum_threads, body, body, List.countP_map, List.countP_map]
  simp [Call.pushes, Call.pushedValue, Function.comp_def]

omit [DecidableEq Value] in
theorem countP_removals :
    ∑ thread, (body numbers thread).countP (! Call.pushes ·) = numbers.length := by
  rw [sum_threads, body, body, List.countP_map, List.countP_map]
  simp [Call.pushes, Call.pushedValue, Function.comp_def]

omit [DecidableEq Value] in
theorem separate_body : Implementation.Separate (body numbers) := by
  intro thread
  cases thread with
  | t1 => exact Or.inl (by simp [body])
  | t2 => exact Or.inr (by simp [body, Call.pushes, Call.pushedValue])

/-- When the first thread has finished, exactly the numbers have been pushed, in order. -/
theorem pushed_of_finished {client : Config Thread Shared (List (Call Value) × Local)}
    (reach : (queue.clientSystem (body numbers)).Reachable client)
    (ended : queue.finished (client.threads .t1) = true) :
    (queue.view client.base).pushed = numbers := by
  have ledger := Implementation.ledger_of_reachable reach
  have first := Implementation.callsLeft_of_finished ended
  have second : ((queue.view client.base).callsLeft (client.todo .t2) .t2).countP Call.pushes =
      0 := by
    rw [List.countP_eq_zero]
    intro call left
    obtain ⟨number, -, rfl⟩ := List.mem_map.mp (Implementation.mem_script_of_left reach left)
    simp [Call.pushes, Call.pushedValue]
  have pushes := ledger.pushes
  rw [countP_pushes, sum_threads, first, second] at pushes
  obtain ⟨made, split, sub⟩ := ledger.made .t1
  rw [first, List.append_nil] at split
  rw [← split, body] at sub
  refine (List.Sublist.eq_of_length ?_ pushes.symm).symm
  simpa [List.filterMap_map, Function.comp_def, Call.pushedValue] using sub

/-- Nothing has been removed while all calls of the second thread have still to take effect. -/
theorem removed_of_left {client : Config Thread Shared (List (Call Value) × Local)}
    (reach : (queue.clientSystem (body numbers)).Reachable client)
    (left : (queue.view client.base).callsLeft (client.todo .t2) .t2 = body numbers .t2) :
    (queue.view client.base).removed = [] := by
  have removals := (Implementation.ledger_of_reachable reach).removals
  have all : (body numbers .t2).countP (! Call.pushes ·) = numbers.length := by
    rw [body, List.countP_map]
    simp [Call.pushes, Call.pushedValue, Function.comp_def]
  rw [countP_removals, sum_threads, left, all] at removals
  exact List.eq_nil_of_length_eq_zero (by omega)

/-- When the iteration is through, the second thread has received the numbers in the order in which
the first thread pushed them, the queue is empty and nobody uses it any more. -/
theorem received_of_through (reach : (benchBody queue numbers).Reachable state)
    (through : state.commands = []) :
    receivedBy .t2 (queue.view state.config.base).history = numbers ∧
      (queue.view state.config.base).pushed = (queue.view state.config.base).removed ∧
      ∀ thread, (queue.view state.config.base).status thread = .idle := by
  have clients := reachable_clients reach
  have ended (thread : Thread) : queue.finished (state.config.threads thread) = true := by
    refine ForkJoin.finished_of_join Implementation.final_finished reach.of_restrict through ?_
    cases thread <;> decide
  have idle (thread : Thread) := (Implementation.finished_iff.mp (ended thread)).2
  have left (thread : Thread) := Implementation.callsLeft_of_finished (ended thread)
  have ledger := Implementation.ledger_of_reachable clients
  obtain ⟨stored, order⟩ := queue.order (Implementation.reachable_base clients)
  have pushed := pushed_of_finished clients (ended .t1)
  have obtained : (queue.view state.config.base).obtained .t2 =
      receivedBy .t2 (queue.view state.config.base).history := by
    rw [View.obtained, idle]
    exact List.append_nil _
  have received := ledger.waits .t2 (by simp [body])
  have sub := ledger.order .t2
  rw [left, obtained, body, List.length_map, List.length_nil] at received
  rw [obtained] at sub
  have lengths := congrArg List.length order
  rw [List.length_append, pushed] at lengths
  have stored' : stored = [] := by
    have shorter := sub.length_le
    apply List.eq_nil_of_length_eq_zero
    omega
  rw [stored', List.append_nil] at order
  refine ⟨?_, order, idle⟩
  rw [sub.eq_of_length (by rw [← order, pushed]; omega), ← order, pushed]

theorem status_t1_ne_waiting {client : Config Thread Shared (List (Call Value) × Local)}
    (reach : (queue.clientSystem (body numbers)).Reachable client) :
    (queue.view client.base).status .t1 ≠ .pending .waitAndPop := by
  intro waiting
  have member : Call.waitAndPop ∈ body numbers .t1 := by
    refine Implementation.mem_script_of_left reach ?_
    rw [Implementation.callsLeft_of_waiting waiting]
    exact List.mem_cons_self
  simp [body] at member

/-- With any queue the iteration ends, or the first thread has finished and the second one waits for
a value. -/
theorem inevitable_through_or_waiting (initial : (benchBody queue numbers).Initial state) :
    (benchBody queue numbers).InevitableDespite (ForkJoin.noisy queue.noise)
      (fun state => state.commands = [] ∨ (∃ rest, state.commands = .join .t2 :: rest) ∧
        queue.Stuck (body numbers) state.config ∧
        queue.finished (state.config.threads .t1) = true ∧
        (queue.view state.config.base).status .t2 = .pending .waitAndPop) state := by
  refine (ForkJoin.inevitable_through_or_waiting
    (motive := (queue.clientSystem (body numbers)).Reachable) Implementation.final_finished
    (by intro thread; cases thread <;> decide) queue.clientRank queue.noise queue.cost
    (fun start => .initial start)
    (fun reach step => ⟨reach.step step, Implementation.clientRank_lowers reach step⟩)
    initial).widen (.initial initial) ?_
  rintro after - ⟨reach, stuck, through | ⟨thread, rest, next, -, running⟩⟩
  · exact Or.inl through
  · have ends := Implementation.finished_or_waiting reach stuck
    have first := (ends .t1).resolve_right (status_t1_ne_waiting reach)
    cases thread with
    | t1 => simp [first] at running
    | t2 => exact Or.inr ⟨⟨rest, next⟩, stuck, first, (ends .t2).resolve_left (by simp [running])⟩

/-- If nobody is left waiting next to a value, the iteration ends, whatever the interleaving. -/
theorem inevitable_of_wakesConsumers (wakes : queue.WakesConsumers)
    (initial : (benchBody queue numbers).Initial state) :
    (benchBody queue numbers).InevitableDespite (ForkJoin.noisy queue.noise)
      (fun state => state.commands = []) state := by
  refine ForkJoin.inevitable_of_threads
    (motive := (queue.clientSystem (body numbers)).Reachable) Implementation.final_finished
    (by intro thread; cases thread <;> decide) queue.clientRank queue.noise queue.cost
    (fun start => .initial start) ?_ ?_ initial
  · exact fun reach step => ⟨reach.step step, Implementation.clientRank_lowers reach step⟩
  · intro config reach stuck thread _
    exact Implementation.finished_of_stuck wakes separate_body
      (countP_removals.trans countP_pushes.symm).le reach stuck thread

end Runs

end Benchmark
end ThreadSafeQueue
end ConcurrencyCourse
