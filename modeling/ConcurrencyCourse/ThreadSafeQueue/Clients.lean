import ConcurrencyCourse.ThreadSafeQueue.Implementation
import ConcurrencyCourse.Library.ForkJoin

/-!
# Threads with a fixed list of calls

Each user of the queue makes a fixed list of calls, as the threads of `bench_body` do.  What the
users have put in and got out is compared with the calls they have still to make: the values of a
thread enter the queue in the order of its calls, and what a thread obtains leaves the queue in the
order in which it obtains it.
-/

namespace ConcurrencyCourse
namespace ThreadSafeQueue

open AtomicObject (Event Status)
open Program (Config)

variable {Tid Value Action Shared Local : Type*}

/-- A call that has begun and not taken effect. -/
def pendingCall : Status (Call Value) (Result Value) → Option (Call Value)
  | .pending call => some call
  | _ => none

/-- The values that the removals of one thread have returned. -/
def receivedBy [DecidableEq Tid] (thread : Tid)
    (history : List (Event Tid (Call Value) (Result Value))) : List Value :=
  history.filterMap fun event =>
    match event with
    | .ret caller (.popped value) => if caller = thread then value else none
    | _ => none

/-- A call that pushes a value. -/
def Call.pushes (call : Call Value) : Bool := call.pushedValue.isSome

/-- What a step of a thread does: the calls of `effects` take effect, and the thread obtains
`values`. -/
structure Turn (effects : List (Call Value)) (values : List Value)
    (calls calls' : List (Call Value)) (obtained obtained' : List Value)
    (view view' : View Tid Value) : Prop where
  calls : calls = effects ++ calls'
  obtained : obtained' = obtained ++ values
  pushed : view'.pushed = view.pushed ++ effects.filterMap Call.pushedValue
  removed : view'.removed = view.removed ++ values
  bounded : values.length ≤ effects.countP (! Call.pushes ·)
  waits : (∀ call ∈ effects, call = .waitAndPop) → values.length = effects.length

/-- The calls of a thread that have still to take effect, when `todo` have not begun. -/
def View.callsLeft (view : View Tid Value) (todo : List (Call Value)) (thread : Tid) :
    List (Call Value) :=
  (pendingCall (view.status thread)).toList ++ todo

variable [DecidableEq Tid]

/-- The values that a thread has received, or is about to receive. -/
def View.obtained (view : View Tid Value) (thread : Tid) : List Value :=
  receivedBy thread view.history ++ (taken (view.status thread)).toList

theorem receivedBy_call (history : List (Event Tid (Call Value) (Result Value)))
    (thread other : Tid) (call : Call Value) :
    receivedBy thread (history ++ [.call other call]) = receivedBy thread history := by
  simp [receivedBy]

theorem receivedBy_ret (history : List (Event Tid (Call Value) (Result Value)))
    (thread : Tid) (result : Result Value) :
    receivedBy thread (history ++ [.ret thread result]) =
      receivedBy thread history ++ (taken (.finished result)).toList := by
  cases result with
  | pushed | threw => simp [receivedBy, taken]
  | popped value => cases value <;> simp [receivedBy, taken, List.filterMap_append]

theorem receivedBy_ret_of_ne (history : List (Event Tid (Call Value) (Result Value)))
    {thread other : Tid} (foreign : other ≠ thread) (result : Result Value) :
    receivedBy other (history ++ [.ret thread result]) = receivedBy other history := by
  cases result with
  | pushed | threw => simp [receivedBy]
  | popped value => simp [receivedBy, foreign.symm]

variable {thread : Tid} {view view' : View Tid Value} {todo todo' : List (Call Value)}
  {called : Option (Call Value)}

theorem Regular.turn (step : Regular thread view view') (split : todo = called.toList ++ todo')
    (begins : ∀ call, called = some call → view'.history = view.history ++ [.call thread call])
    (inside : called = none → ∀ call, view'.history ≠ view.history ++ [.call thread call]) :
    ∃ effects values, Turn effects values (view.callsLeft todo thread)
      (view'.callsLeft todo' thread) (view.obtained thread) (view'.obtained thread) view view' := by
  -- only the begin of a call takes a call from the list
  have none_of (other : ∀ call, view'.history ≠ view.history ++ [.call thread call]) :
      todo = todo' := by
    cases called with
    | none => exact split
    | some call => exact absurd (begins call rfl) (other call)
  -- a step by which no call takes effect
  have same (calls : view'.callsLeft todo' thread = view.callsLeft todo thread)
      (obtained : view'.obtained thread = view.obtained thread)
      (pushed : view'.pushed = view.pushed) (removed : view'.removed = view.removed) :
      Turn [] [] (view.callsLeft todo thread) (view'.callsLeft todo' thread)
        (view.obtained thread) (view'.obtained thread) view view' :=
    ⟨calls.symm, by simp [obtained], by simp [pushed], by simp [removed], by simp, by simp⟩
  cases step with
  | stutter pushed removed history status =>
      obtain rfl := none_of fun call same => by simp [history] at same
      exact ⟨_, _, same (by rw [View.callsLeft, View.callsLeft, status])
        (by rw [View.obtained, View.obtained, status, history]) pushed removed⟩
  | call call pushed removed history idle pending =>
      refine ⟨_, _, same ?_ ?_ pushed removed⟩
      · cases called with
        | none => exact absurd history (inside rfl call)
        | some next =>
            have same := begins next rfl
            rw [history, List.append_cancel_left_eq, List.cons.injEq, Event.call.injEq] at same
            obtain ⟨⟨-, rfl⟩, -⟩ := same
            rw [View.callsLeft, View.callsLeft, idle, pending, split]
            rfl
      · rw [View.obtained, View.obtained, idle, pending, history, receivedBy_call]
        rfl
  | push value pushed removed history pending finished =>
      obtain rfl := none_of fun call same => by simp [history] at same
      refine ⟨[.push value], [], ?_, ?_, pushed, by simp [removed], by simp, by simp⟩
      · rw [View.callsLeft, View.callsLeft, pending, finished]
        rfl
      · rw [View.obtained, View.obtained, pending, finished, history, List.append_nil]
        rfl
  | pop call value kind pushed removed history pending finished =>
      obtain rfl := none_of fun call same => by simp [history] at same
      refine ⟨[call], [value], ?_, ?_, by simp [pushed, kind], removed, ?_, fun _ => rfl⟩
      · rw [View.callsLeft, View.callsLeft, pending, finished]
        rfl
      · rw [View.obtained, View.obtained, pending, finished, history]
        simp [taken]
      · simp [Call.pushes, kind]
  | empty pushed removed history _ pending finished =>
      obtain rfl := none_of fun call same => by simp [history] at same
      refine ⟨[.tryPop], [], ?_, ?_, by simp [pushed, Call.pushedValue], by simp [removed],
        by simp, by simp⟩
      · rw [View.callsLeft, View.callsLeft, pending, finished]
        rfl
      · rw [View.obtained, View.obtained, pending, finished, history, List.append_nil]
        rfl
  | ret result pushed removed history finished idle =>
      obtain rfl := none_of fun call same => by simp [history] at same
      refine ⟨_, _, same ?_ ?_ pushed removed⟩
      · rw [View.callsLeft, View.callsLeft, finished, idle]
        rfl
      · rw [View.obtained, View.obtained, finished, idle, history, receivedBy_ret]
        exact List.append_nil _

theorem Regular.obtained_of_ne {other : Tid} (step : Regular thread view view')
    (foreign : other ≠ thread) (status : view'.status other = view.status other) :
    view'.obtained other = view.obtained other := by
  rw [View.obtained, View.obtained, status]
  cases step with
  | call call _ _ history => rw [history, receivedBy_call]
  | ret result _ _ history => rw [history, receivedBy_ret_of_ne _ foreign]
  | stutter _ _ history | push _ _ _ history | pop _ _ _ _ _ history | empty _ _ history =>
      rw [history]

/-! ## The ledger of all threads -/

section Ledger

variable [Fintype Tid]

/-- What the users have put in and got out, against the calls they have still to make. -/
structure Ledger (script left : Tid → List (Call Value)) (obtained : Tid → List Value)
    (view : View Tid Value) : Prop where
  /-- The pushes of a thread that have taken effect are in the queue in the order of its calls. -/
  made : ∀ thread, ∃ made, script thread = made ++ left thread ∧
    (made.filterMap Call.pushedValue).Sublist view.pushed
  /-- A thread obtains values in the order in which they leave the queue. -/
  order : ∀ thread, (obtained thread).Sublist view.removed
  pushes : view.pushed.length + ∑ thread, (left thread).countP Call.pushes =
    ∑ thread, (script thread).countP Call.pushes
  removals : view.removed.length + ∑ thread, (left thread).countP (! Call.pushes ·) ≤
    ∑ thread, (script thread).countP (! Call.pushes ·)
  /-- Every `wait_and_pop` that has taken effect has obtained one value. -/
  waits : ∀ thread, (∀ call ∈ script thread, call = .waitAndPop) →
    (obtained thread).length + (left thread).length = (script thread).length

variable {script left left' : Tid → List (Call Value)} {obtained obtained' : Tid → List Value}
  {effects : List (Call Value)} {values : List Value}

theorem Ledger.step (ledger : Ledger script left obtained view)
    (turn : Turn effects values (left thread) (left' thread) (obtained thread) (obtained' thread)
      view view')
    (others : ∀ other, other ≠ thread →
      left' other = left other ∧ obtained' other = obtained other) :
    Ledger script left' obtained' view' := by
  have pushes := Program.sum_change (fun other => (left other).countP Call.pushes)
    (fun other => (left' other).countP Call.pushes) thread
    fun other foreign => by rw [(others other foreign).1]
  have removals := Program.sum_change (fun other => (left other).countP (! Call.pushes ·))
    (fun other => (left' other).countP (! Call.pushes ·)) thread
    fun other foreign => by rw [(others other foreign).1]
  have earlier := ledger.pushes
  have earlier' := ledger.removals
  have bounded := turn.bounded
  have added : (effects.filterMap Call.pushedValue).length = effects.countP Call.pushes :=
    List.length_filterMap_eq_countP
  rw [turn.calls, List.countP_append] at pushes removals
  constructor
  · intro other
    obtain ⟨made, split, sub⟩ := ledger.made other
    rw [turn.pushed]
    by_cases same : other = thread
    · subst same
      refine ⟨made ++ effects, by rw [split, turn.calls, List.append_assoc], ?_⟩
      rw [List.filterMap_append]
      exact sub.append_right _
    · refine ⟨made, by rw [split, (others other same).1], ?_⟩
      exact sub.trans (List.sublist_append_left _ _)
  · intro other
    rw [turn.removed]
    by_cases same : other = thread
    · subst same
      rw [turn.obtained]
      exact (ledger.order other).append_right _
    · rw [(others other same).2]
      exact (ledger.order other).trans (List.sublist_append_left _ _)
  · rw [turn.pushed, List.length_append]
    omega
  · rw [turn.removed, List.length_append]
    omega
  · intro other only
    have before := ledger.waits other only
    by_cases same : other = thread
    · subst same
      obtain ⟨made, split, -⟩ := ledger.made other
      have lengths := turn.waits fun call member => only call (by
        rw [split, turn.calls]
        exact List.mem_append_right _ (List.mem_append_left _ member))
      rw [turn.calls, List.length_append] at before
      rw [turn.obtained, List.length_append]
      omega
    · rw [(others other same).1, (others other same).2]
      exact before

end Ledger

/-! ## Runs of the users -/

namespace Implementation

variable [DecidableEq Value] (queue : Implementation Tid Value Action Shared Local)
  (script : Tid → List (Call Value))

/-- Threads that make these calls. -/
def clients : Program Tid Action Shared (List (Call Value) × Local) :=
  queue.program.scripted queue.called script

/-- The runs of the users in which nothing throws. -/
def clientSystem :
    TransitionSystem (Config Tid Shared (List (Call Value) × Local)) (Tid × Action) :=
  (queue.clients script).system.restrict fun _ label _ => queue.throws label.2 = false

/-- All calls have been made and have returned. -/
def finished (local' : List (Call Value) × Local) : Bool :=
  local'.1.isEmpty && queue.idle local'.2

variable {queue script} {client : Config Tid Shared (List (Call Value) × Local)}

omit [DecidableEq Value] in
theorem finished_iff : queue.finished (client.threads thread) = true ↔
    client.todo thread = [] ∧ (queue.view client.base).status thread = .idle := by
  have idle := queue.idle_iff client.base thread
  simp only [finished, Bool.and_eq_true, List.isEmpty_iff]
  exact and_congr Iff.rfl idle

theorem final_finished : ForkJoin.Final (queue.clients script) queue.finished := by
  intro thread action shared local' ended
  obtain ⟨todo, pc⟩ := local'
  simp only [finished, Bool.and_eq_true, List.isEmpty_iff] at ended
  obtain ⟨rfl, idle⟩ := ended
  simp only [clients, Program.scripted]
  cases called : queue.called action with
  | none => simp [queue.rests idle called]
  | some call => simp [Program.advance]

theorem reachable_base (reach : (queue.clientSystem script).Reachable client) :
    queue.system.Reachable client.base :=
  Program.reachable_base (fun _ label _ => queue.throws label.2 = false) reach

variable [Fintype Tid]

/-- The ledger of the calls of a script. -/
theorem ledger_of_reachable (reach : (queue.clientSystem script).Reachable client) :
    Ledger script (fun thread => (queue.view client.base).callsLeft (client.todo thread) thread)
      (fun thread => (queue.view client.base).obtained thread) (queue.view client.base) := by
  refine reach.invariant (motive := fun client => Ledger script
    (fun thread => (queue.view client.base).callsLeft (client.todo thread) thread)
    (fun thread => (queue.view client.base).obtained thread) (queue.view client.base)) ?_ ?_
  · intro start initial
    have todo (thread : Tid) : start.todo thread = script thread := initial.2 thread
    have new : queue.view start.base = ⟨[], [], [], fun _ => .idle⟩ := queue.new initial.1
    rw [new]
    constructor <;> simp [View.callsLeft, View.obtained, pendingCall, receivedBy, taken, todo]
  · rintro before ⟨thread, action⟩ after earlier ledger step
    obtain ⟨taken, split, others⟩ := Program.scripted_step_iff.mp step.1
    obtain ⟨own, foreign⟩ := queue.regular (reachable_base earlier) step.2 taken
    obtain ⟨effects, values, turn⟩ := own.turn split
      (fun call called => queue.begins called taken)
      fun called => queue.inside (reachable_base earlier) called taken
    refine ledger.step turn fun other different => ⟨?_, ?_⟩
    · simp only [View.callsLeft, foreign other different, others other different]
    · exact own.obtained_of_ne different (foreign other different)

/-! ## Termination -/

variable (queue) in
/-- A spurious wake-up. -/
def noise (label : Tid × Action) : Bool := queue.spurious label.2

variable (queue) in
/-- The rank of the queue, with a price for every call that has not begun. -/
def clientRank (client : Config Tid Shared (List (Call Value) × Local)) : Nat :=
  (queue.price + 1) * Program.sumThreads (fun local' => local'.1.length) client.threads +
    queue.rank client.base

/-- Every step of the users but a spurious wake-up lowers the rank. -/
theorem clientRank_lowers {before after : Config Tid Shared (List (Call Value) × Local)}
    {label : Tid × Action} (reach : (queue.clientSystem script).Reachable before)
    (step : (queue.clientSystem script).Step before label after) :
    queue.clientRank after + 1 ≤
      queue.clientRank before + queue.cost * (queue.noise label).toNat := by
  obtain ⟨thread, action⟩ := label
  obtain ⟨taken, split, others⟩ := Program.scripted_step_iff.mp step.1
  have noThrow : queue.throws action = false := step.2
  have lower := queue.lowers (reachable_base reach) noThrow taken
  have change := Program.sum_change (fun other => (before.threads other).1.length)
    (fun other => (after.threads other).1.length) thread
    fun other foreign => congrArg List.length (others other foreign)
  have length : (before.threads thread).1.length =
      (queue.called action).isSome.toNat + (after.threads thread).1.length := by
    have lengths := congrArg List.length split
    rw [List.length_append] at lengths
    refine lengths.trans ?_
    congr 1
    cases queue.called action <;> rfl
  have total : Program.sumThreads (fun local' => local'.1.length) before.threads =
      (queue.called action).isSome.toNat +
        Program.sumThreads (fun local' => local'.1.length) after.threads := by
    simp only [Program.sumThreads]
    omega
  have begun := Nat.succ_mul queue.price (queue.called action).isSome.toNat
  rw [clientRank, clientRank, total, Nat.mul_add]
  simp only [noise, Nat.succ_eq_add_one] at begun ⊢
  omega

/-- The users can make no step but spurious wake-ups. -/
def Stuck (queue : Implementation Tid Value Action Shared Local) (script : Tid → List (Call Value))
    (client : Config Tid Shared (List (Call Value) × Local)) : Prop :=
  ∀ label after, (queue.clientSystem script).Step client label after → queue.noise label = true

omit [Fintype Tid] in
theorem spurious_of_stuck (stuck : queue.Stuck script client) {action : Action}
    {next : Config Tid Shared Local} (noThrow : queue.throws action = false)
    (called : queue.called action = none)
    (step : queue.program.system.Step client.base (thread, action) next) :
    queue.spurious action = true := by
  obtain ⟨after, taken, -⟩ := Program.exists_scripted_step queue.called script
    (client.todo thread) step (by rw [called]; rfl)
  exact stuck _ _ ⟨taken, noThrow⟩

omit [Fintype Tid] in
/-- Users that can go no further have finished, or wait for a value. -/
theorem finished_or_waiting (reach : (queue.clientSystem script).Reachable client)
    (stuck : queue.Stuck script client) (thread : Tid) :
    queue.finished (client.threads thread) = true ∨
      (queue.view client.base).status thread = .pending .waitAndPop := by
  have waits := queue.progress (reachable_base reach)
    (fun _ _ _ noThrow called step => spurious_of_stuck stuck noThrow called step) thread
  refine waits.imp (fun idle => finished_iff.mpr ⟨?_, idle⟩) id
  cases todo : client.todo thread with
  | nil => rfl
  | cons call rest =>
      obtain ⟨action, next, called, noThrow, step⟩ := queue.ready call idle
      obtain ⟨after, taken, -⟩ := Program.exists_scripted_step queue.called script rest step
        (by rw [called, todo]; rfl)
      have silent := queue.quiet (stuck _ _ ⟨taken, noThrow⟩)
      rw [called] at silent
      simp at silent

/-- No consumer is left waiting next to a value. -/
def WakesConsumers (queue : Implementation Tid Value Action Shared Local) : Prop :=
  ∀ {config}, queue.system.Reachable config →
    (∀ thread, (queue.view config).status thread = .idle ∨
      (queue.view config).status thread = .pending .waitAndPop) →
    (∀ thread action after, queue.throws action = false → queue.called action = none →
      queue.program.system.Step config (thread, action) after → queue.spurious action = true) →
    (∃ thread, (queue.view config).status thread ≠ .idle) →
    (queue.view config).pushed = (queue.view config).removed

theorem mem_script_of_left (reach : (queue.clientSystem script).Reachable client)
    {call : Call Value}
    (left : call ∈ (queue.view client.base).callsLeft (client.todo thread) thread) :
    call ∈ script thread := by
  obtain ⟨made, split, -⟩ := (ledger_of_reachable reach).made thread
  rw [split]
  exact List.mem_append_right _ left

/-- Producers never wait, and consumers never push. -/
def Separate (script : Tid → List (Call Value)) : Prop :=
  ∀ thread, (∀ call ∈ script thread, call ≠ .waitAndPop) ∨
    ∀ call ∈ script thread, Call.pushes call = false

instance (script : Tid → List (Call Value)) : Decidable (Separate script) :=
  inferInstanceAs (Decidable (∀ thread, (∀ call ∈ script thread, call ≠ .waitAndPop) ∨
    ∀ call ∈ script thread, Call.pushes call = false))

omit [DecidableEq Tid] [Fintype Tid] [DecidableEq Value] in
theorem callsLeft_of_waiting {todo : List (Call Value)}
    (waiting : view.status thread = .pending .waitAndPop) :
    view.callsLeft todo thread = .waitAndPop :: todo := by
  rw [View.callsLeft, waiting]
  rfl

omit [DecidableEq Value] [Fintype Tid] in
theorem callsLeft_of_finished (ended : queue.finished (client.threads thread) = true) :
    (queue.view client.base).callsLeft (client.todo thread) thread = [] := by
  obtain ⟨todo, idle⟩ := finished_iff.mp ended
  rw [View.callsLeft, idle, todo]
  rfl

/-- If nobody is left waiting next to a value and enough values are pushed, users that can go no
further have finished. -/
theorem finished_of_stuck (wakes : queue.WakesConsumers) (separate : Separate script)
    (enough : ∑ thread, (script thread).countP (! Call.pushes ·) ≤
      ∑ thread, (script thread).countP Call.pushes)
    (reach : (queue.clientSystem script).Reachable client) (stuck : queue.Stuck script client)
    (thread : Tid) : queue.finished (client.threads thread) = true := by
  have ends := finished_or_waiting reach stuck
  have ledger := ledger_of_reachable reach
  refine (ends thread).resolve_right fun waiting => ?_
  have quiet := fun thread => (ends thread).imp (fun ended => (finished_iff.mp ended).2) id
  have empty := wakes (reachable_base reach) quiet
    (fun _ _ _ noThrow called step => spurious_of_stuck stuck noThrow called step)
    ⟨thread, by rw [waiting]; nofun⟩
  have pushes : ∑ thread, ((queue.view client.base).callsLeft (client.todo thread)
      thread).countP Call.pushes = 0 := by
    refine Finset.sum_eq_zero fun other _ => ?_
    rcases ends other with ended | waits
    · rw [callsLeft_of_finished ended]
      rfl
    · -- whoever waits is a consumer
      rw [List.countP_eq_zero]
      intro call left
      rcases separate other with producer | consumer
      · refine absurd rfl (producer .waitAndPop (mem_script_of_left reach ?_))
        rw [callsLeft_of_waiting waits]
        exact List.mem_cons_self
      · simp [consumer call (mem_script_of_left reach left)]
  have removals := Finset.single_le_sum
    (f := fun thread => ((queue.view client.base).callsLeft (client.todo thread)
      thread).countP (! Call.pushes ·)) (fun _ _ => Nat.zero_le _) (Finset.mem_univ thread)
  have own : 1 ≤ ((queue.view client.base).callsLeft (client.todo thread)
      thread).countP (! Call.pushes ·) := by
    rw [callsLeft_of_waiting waiting, List.countP_cons]
    simp [Call.pushes, Call.pushedValue]
  have pushed := ledger.pushes
  have removed := ledger.removals
  rw [empty] at pushed
  omega

/-- Whatever the interleaving, all calls of producers and consumers return, if nobody is left
waiting next to a value and enough values are pushed. -/
theorem inevitable_of_wakesConsumers (wakes : queue.WakesConsumers) (separate : Separate script)
    (enough : ∑ thread, (script thread).countP (! Call.pushes ·) ≤
      ∑ thread, (script thread).countP Call.pushes)
    {start : Config Tid Shared (List (Call Value) × Local)}
    (initial : (queue.clientSystem script).Initial start) :
    (queue.clientSystem script).InevitableDespite queue.noise
      (fun client => ∀ thread, queue.finished (client.threads thread) = true) start := by
  refine TransitionSystem.inevitableDespite_of_decreasing
    (motive := (queue.clientSystem script).Reachable) queue.clientRank queue.noise queue.cost
    (.initial initial) ?_ ?_
  · exact fun reach step => ⟨reach.step step, clientRank_lowers reach step⟩
  · exact fun reach stuck => finished_of_stuck wakes separate enough reach stuck

end Implementation

end ThreadSafeQueue
end ConcurrencyCourse
