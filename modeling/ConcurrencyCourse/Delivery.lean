import ConcurrencyCourse.ThreadSafeQueue
import ConcurrencyCourse.Library.Interleaving
import Mathlib.Data.List.Perm.Basic

/-!
# What callers put into a queue and get out of it

A queue takes the values of the pushes that return, and hands out the values that the removals
return.  A call that ends by an exception should leave no trace; a removal that fails after it has
taken its value loses that value.  The account below is kept for any queue whose steps are of the
listed kinds, whatever its representation.
-/

namespace ConcurrencyCourse
namespace ThreadSafeQueue

open AtomicObject (Event Status)

variable {Tid Value : Type*}

/-- The value that a call pushes. -/
def Call.pushedValue : Call Value → Option Value
  | .push value => some value
  | _ => none

/-- The value that a call has taken and not yet returned. -/
def taken : Status (Call Value) (Result Value) → Option Value
  | .finished (.popped value) => value
  | _ => none

/-- The values that the removals have returned. -/
def received (history : List (Event Tid (Call Value) (Result Value))) : List Value :=
  history.filterMap fun event =>
    match event with
    | .ret _ (.popped value) => value
    | _ => none

section Accepted

variable [DecidableEq Tid]

/-- The last call of a thread in a history whose latest event comes first. -/
def latestCall (thread : Tid) :
    List (Event Tid (Call Value) (Result Value)) → Option (Call Value)
  | [] => none
  | .call caller call :: earlier =>
      if caller = thread then some call else latestCall thread earlier
  | .ret _ _ :: earlier => latestCall thread earlier

/-- Values of the pushes that have returned, in a history whose latest event comes first. -/
def acceptedLatest : List (Event Tid (Call Value) (Result Value)) → List Value
  | [] => []
  | .ret thread .pushed :: earlier =>
      ((latestCall thread earlier).bind Call.pushedValue).toList ++ acceptedLatest earlier
  | _ :: earlier => acceptedLatest earlier

/-- The values of the pushes that have returned without an exception. -/
def accepted (history : List (Event Tid (Call Value) (Result Value))) : List Value :=
  acceptedLatest history.reverse

end Accepted

/-- A queue as its callers could observe it, with the values that have entered and left it. -/
structure View (Tid Value : Type*) where
  pushed : List Value
  removed : List Value
  history : List (Event Tid (Call Value) (Result Value))
  status : Tid → Status (Call Value) (Result Value)

/-- What a step of `thread` that meets no exception does to the view. -/
inductive Regular (thread : Tid) (view view' : View Tid Value) : Prop
  | stutter : view'.pushed = view.pushed → view'.removed = view.removed →
      view'.history = view.history → view'.status thread = view.status thread →
      Regular thread view view'
  | call (call : Call Value) : view'.pushed = view.pushed → view'.removed = view.removed →
      view'.history = view.history ++ [.call thread call] → view.status thread = .idle →
      view'.status thread = .pending call → Regular thread view view'
  | push (value : Value) : view'.pushed = view.pushed ++ [value] →
      view'.removed = view.removed → view'.history = view.history →
      view.status thread = .pending (.push value) → view'.status thread = .finished .pushed →
      Regular thread view view'
  | pop (call : Call Value) (value : Value) : call.pushedValue = none →
      view'.pushed = view.pushed → view'.removed = view.removed ++ [value] →
      view'.history = view.history → view.status thread = .pending call →
      view'.status thread = .finished (.popped (some value)) → Regular thread view view'
  | empty : view'.pushed = view.pushed → view'.removed = view.removed →
      view'.history = view.history → view.pushed = view.removed →
      view.status thread = .pending .tryPop → view'.status thread = .finished (.popped none) →
      Regular thread view view'
  | ret (result : Result Value) : view'.pushed = view.pushed → view'.removed = view.removed →
      view'.history = view.history ++ [.ret thread result] →
      view.status thread = .finished result → view'.status thread = .idle →
      Regular thread view view'

/-- What a step of `thread` does to the view; the flag tells whether it loses a value. -/
inductive Exchange (thread : Tid) (view view' : View Tid Value) : Bool → Prop
  | regular : Regular thread view view' → Exchange thread view view' false
  | fail (call : Call Value) : view'.pushed = view.pushed → view'.removed = view.removed →
      view'.history = view.history → view.status thread = .pending call →
      view'.status thread = .finished .threw → Exchange thread view view' false
  | lose (value : Value) : view'.pushed = view.pushed → view'.removed = view.removed →
      view'.history = view.history → view.status thread = .finished (.popped (some value)) →
      view'.status thread = .finished .threw → Exchange thread view view' true

/-! ## One call without interference -/

/-- What has become of the values since a call began that no other thread has interrupted. -/
def Undone (before : View Tid Value) (lost : Nat) (thread : Tid) (view : View Tid Value) : Prop :=
  match view.status thread with
  | .pending _ => lost = 0 ∧ view.pushed = before.pushed ∧ view.removed = before.removed
  | .finished (.popped (some value)) =>
      lost = 0 ∧ view.pushed = before.pushed ∧ view.removed = before.removed ++ [value]
  | .finished .threw => view.pushed = before.pushed ∧
      (lost = 0 ∧ view.removed = before.removed ∨
        lost ≠ 0 ∧ ∃ value, view.removed = before.removed ++ [value])
  | _ => True

theorem Undone.step {before view view' : View Tid Value} {lost : Nat} {thread : Tid}
    {loses : Bool} (undone : Undone before lost thread view) (inside : view.status thread ≠ .idle)
    (step : Exchange thread view view' loses) :
    Undone before (lost + loses.toNat) thread view' := by
  unfold Undone at undone ⊢
  cases step with
  | regular step =>
      cases step with
      | stutter pushed removed _ status =>
          rw [status, pushed, removed]
          exact undone
      | call _ _ _ _ idle _ => exact absurd idle inside
      | pop call value _ pushed removed _ status status' =>
          rw [status] at undone
          rw [status', pushed, removed, undone.2.1, undone.2.2]
          exact ⟨undone.1, rfl, rfl⟩
      | push _ _ _ _ _ status' | empty _ _ _ _ _ status' | ret _ _ _ _ _ status' =>
          rw [status']
          trivial
  | fail call pushed removed _ status status' =>
      rw [status] at undone
      rw [status', pushed, removed]
      exact ⟨undone.2.1, Or.inl ⟨undone.1, undone.2.2⟩⟩
  | lose value pushed removed _ status status' =>
      rw [status] at undone
      rw [status', pushed, removed]
      exact ⟨undone.2.1, Or.inr ⟨Nat.succ_ne_zero _, value, undone.2.2⟩⟩

/-- A call that has ended by an exception has left the stored values alone exactly when no step of
it lost a value. -/
theorem Undone.stored_iff {before view : View Tid Value} {lost : Nat} {thread : Tid}
    (undone : Undone before lost thread view) (threw : view.status thread = .finished .threw)
    {stored stored' : List Value} (order : before.pushed = before.removed ++ stored)
    (order' : view.pushed = view.removed ++ stored') : stored' = stored ↔ lost = 0 := by
  unfold Undone at undone
  rw [threw] at undone
  obtain ⟨pushed, ⟨none, removed⟩ | ⟨some, value, removed⟩⟩ := undone
  · have same : stored' = stored := by
      rw [pushed, order, removed] at order'
      exact (List.append_cancel_left order').symm
    exact iff_of_true same none
  · refine iff_of_false (fun same => ?_) some
    rw [pushed, order, removed, same, List.append_assoc] at order'
    have lengths := congrArg List.length (List.append_cancel_left order')
    simp at lengths

/-! ## The account over a whole run -/

section Account

variable [DecidableEq Tid]

theorem accepted_call (history : List (Event Tid (Call Value) (Result Value))) (thread : Tid)
    (call : Call Value) : accepted (history ++ [.call thread call]) = accepted history := by
  simp [accepted, acceptedLatest]

theorem accepted_ret {result : Result Value}
    (history : List (Event Tid (Call Value) (Result Value))) (thread : Tid)
    (other : result ≠ .pushed) :
    accepted (history ++ [.ret thread result]) = accepted history := by
  cases result with
  | pushed => exact absurd rfl other
  | popped | threw => simp [accepted, acceptedLatest]

theorem accepted_pushed (history : List (Event Tid (Call Value) (Result Value))) (thread : Tid) :
    accepted (history ++ [.ret thread .pushed]) =
      ((latestCall thread history.reverse).bind Call.pushedValue).toList ++ accepted history := by
  simp [accepted, acceptedLatest]

/-- The value of a push that has taken effect and not returned. -/
def View.unreturned (view : View Tid Value) (thread : Tid) : Option Value :=
  match view.status thread with
  | .finished .pushed => (latestCall thread view.history.reverse).bind Call.pushedValue
  | _ => none

/-- The calls recorded are those in progress. -/
def View.Recorded (view : View Tid Value) (thread : Tid) : Prop :=
  match view.status thread with
  | .pending call => latestCall thread view.history.reverse = some call
  | .finished .pushed =>
      ∃ value, latestCall thread view.history.reverse = some (.push value)
  | _ => True

variable {view view' : View Tid Value} {thread : Tid}

theorem latestCall_of_ne {history history' : List (Event Tid (Call Value) (Result Value))}
    {other : Tid} (foreign : other ≠ thread)
    (recorded : history' = history ∨ (∃ call, history' = history ++ [.call thread call]) ∨
      ∃ result, history' = history ++ [.ret thread result]) :
    latestCall other history'.reverse = latestCall other history.reverse := by
  rcases recorded with rfl | ⟨call, rfl⟩ | ⟨result, rfl⟩
  · rfl
  · simp [latestCall, foreign.symm]
  · simp [latestCall]

omit [DecidableEq Tid] in
theorem Exchange.recorded {loses : Bool} (step : Exchange thread view view' loses) :
    view'.history = view.history ∨ (∃ call, view'.history = view.history ++ [.call thread call]) ∨
      ∃ result, view'.history = view.history ++ [.ret thread result] := by
  cases step with
  | regular step =>
      cases step with
      | call call _ _ history => exact Or.inr (Or.inl ⟨call, history⟩)
      | ret result _ _ history => exact Or.inr (Or.inr ⟨result, history⟩)
      | stutter _ _ history | push _ _ _ history | pop _ _ _ _ _ history | empty _ _ history =>
          exact Or.inl history
  | fail _ _ _ history | lose _ _ _ history => exact Or.inl history

variable [DecidableEq Value]

/-- What a step of `thread` does to its own part of the account. -/
structure Entry (thread : Tid) (view view' : View Tid Value) (lost : List Value) : Prop where
  recorded : view.Recorded thread → view'.Recorded thread
  pushed : view.Recorded thread → ∀ value, view'.pushed.count value +
      (accepted view.history).count value + (view.unreturned thread).toList.count value =
    view.pushed.count value + (accepted view'.history).count value +
      (view'.unreturned thread).toList.count value
  removed : ∀ value, view'.removed.count value + (received view.history).count value +
      (taken (view.status thread)).toList.count value =
    view.removed.count value + (received view'.history).count value +
      (taken (view'.status thread)).toList.count value + lost.count value

/-- A step without an exception loses nothing. -/
theorem Regular.entry (step : Regular thread view view') : Entry thread view view' [] := by
  cases step with
  | stutter pushed removed history status =>
      constructor
      · simp [View.Recorded, status, history]
      · simp [View.unreturned, status, history, pushed]
      · simp [status, history, removed]
  | call call pushed removed history status status' =>
      constructor
      · simp [View.Recorded, status', history, latestCall]
      · simp [View.unreturned, status, status', history, pushed, accepted_call]
      · simp [status, status', history, removed, received, taken]
  | push value pushed removed history status status' =>
      constructor
      · intro recorded
        simp only [View.Recorded, status] at recorded
        simp [View.Recorded, status', history, recorded]
      · intro recorded
        simp only [View.Recorded, status] at recorded
        simp [View.unreturned, status, status', history, pushed, recorded, Call.pushedValue,
          List.count_append, Nat.add_right_comm]
      · simp [status, status', history, removed, taken]
  | pop call value _ pushed removed history status status' =>
      constructor
      · simp [View.Recorded, status']
      · simp [View.unreturned, status, status', history, pushed]
      · simp [status, status', history, removed, taken, List.count_append, Nat.add_right_comm]
  | empty pushed removed history _ status status' =>
      constructor
      · simp [View.Recorded, status']
      · simp [View.unreturned, status, status', history, pushed]
      · simp [status, status', history, removed, taken]
  | ret result pushed removed history status status' =>
      constructor
      · simp [View.Recorded, status']
      · intro recorded
        cases result with
        | pushed =>
            simp only [View.Recorded, status] at recorded
            obtain ⟨value, recorded⟩ := recorded
            simp only [View.unreturned, status, status', history, pushed, accepted_pushed, recorded,
              Option.bind_some, Call.pushedValue, List.count_append, Option.toList_none,
              List.count_nil]
            omega
        | popped | threw =>
            simp [View.unreturned, status, status', history, pushed, accepted_ret]
      · cases result with
        | popped value =>
            cases value <;>
              simp [status, status', history, removed, received, taken, List.filterMap_append,
                List.count_append, Nat.add_assoc]
        | pushed | threw => simp [status, status', history, removed, received, taken]

theorem Exchange.entry {loses : Bool} (step : Exchange thread view view' loses) :
    ∃ lost : List Value, lost.length = loses.toNat ∧ Entry thread view view' lost := by
  cases step with
  | regular step => exact ⟨[], rfl, step.entry⟩
  | fail call pushed removed history status status' =>
      refine ⟨[], rfl, ?_, ?_, ?_⟩
      · simp [View.Recorded, status']
      · simp [View.unreturned, status, status', history, pushed]
      · simp [status, status', history, removed, taken]
  | lose value pushed removed history status status' =>
      refine ⟨[value], rfl, ?_, ?_, ?_⟩
      · simp [View.Recorded, status']
      · simp [View.unreturned, status, status', history, pushed]
      · simp [status, status', history, removed, taken]

variable [Fintype Tid] {lost : List Value}

/-- Where each value is accounted for. -/
structure Account (view : View Tid Value) (lost : List Value) : Prop where
  recorded : ∀ thread, view.Recorded thread
  pushed : ∀ value, view.pushed.count value =
    (accepted view.history).count value + ∑ thread, (view.unreturned thread).toList.count value
  removed : ∀ value, view.removed.count value =
    (received view.history).count value +
      ∑ thread, (taken (view.status thread)).toList.count value + lost.count value

/-- The account is kept, and a losing step adds one value to the losses. -/
theorem Account.step {loses : Bool} (account : Account view lost)
    (step : Exchange thread view view' loses)
    (others : ∀ other, other ≠ thread → view'.status other = view.status other) :
    ∃ lost', lost'.length = lost.length + loses.toNat ∧ Account view' lost' := by
  obtain ⟨new, length, entry⟩ := step.entry
  have calls (other : Tid) (foreign : other ≠ thread) :=
    latestCall_of_ne foreign step.recorded
  refine ⟨lost ++ new, by rw [List.length_append, length], ?_, ?_, ?_⟩
  · intro other
    by_cases same : other = thread
    · subst same
      exact entry.recorded (account.recorded other)
    · have recorded := account.recorded other
      unfold View.Recorded at recorded ⊢
      rw [others other same, calls other same]
      exact recorded
  · intro value
    have change := Program.sum_change
      (fun other => (view.unreturned other).toList.count value)
      (fun other => (view'.unreturned other).toList.count value) thread
      fun other foreign => by
        simp only [View.unreturned, others other foreign, calls other foreign]
    have balance := entry.pushed (account.recorded thread) value
    have before := account.pushed value
    omega
  · intro value
    have change := Program.sum_change
      (fun other => (taken (view.status other)).toList.count value)
      (fun other => (taken (view'.status other)).toList.count value) thread
      fun other foreign => by simp only [others other foreign]
    have balance := entry.removed value
    have before := account.removed value
    rw [List.count_append]
    omega

/-- When no call is in progress, the values accepted are those received and those still stored
exactly when none has been lost. -/
theorem Account.perm_iff (account : Account view lost)
    (quiet : ∀ thread, view.status thread = .idle) {stored : List Value}
    (order : view.pushed = view.removed ++ stored) :
    (accepted view.history).Perm (received view.history ++ stored) ↔ lost = [] := by
  have counts (value : Value) : (accepted view.history).count value =
      (received view.history ++ stored).count value + lost.count value := by
    have pushed := account.pushed value
    have removed := account.removed value
    rw [order, List.count_append] at pushed
    simp only [View.unreturned, quiet, taken, Option.toList_none, List.count_nil,
      Finset.sum_const_zero] at pushed removed
    rw [List.count_append]
    omega
  constructor
  · intro perm
    rw [List.eq_nil_iff_forall_not_mem]
    intro value member
    have positive := List.count_pos_iff.mpr member
    have same := perm.count_eq value
    have different := counts value
    omega
  · rintro rfl
    exact List.perm_iff_count.mpr fun value => by rw [counts, List.count_nil, Nat.add_zero]

end Account

/-! ## Runs of a queue -/

section Runs

variable {State Label : Type*} {system : TransitionSystem State Label}
  {marked : State → Label → State → Prop} {view : State → View Tid Value} {start last : State}
  {count : Nat}

/-- The account of a whole run, if the marked steps are those that lose a value. -/
theorem exists_account_of_run [DecidableEq Tid] [DecidableEq Value] [Fintype Tid]
    (run : system.CountedRun marked start count last) (reach : system.Reachable start)
    (base : Account (view start) [])
    (exchange : ∀ {before label after}, system.Reachable before → system.Step before label after →
      ∃ thread loses, Exchange thread (view before) (view after) loses ∧
        (loses = true ↔ marked before label after) ∧
        ∀ other, other ≠ thread → (view after).status other = (view before).status other) :
    ∃ lost : List Value, lost.length = count ∧ Account (view last) lost := by
  refine run.preserves (motive := fun count state =>
    ∃ lost : List Value, lost.length = count ∧ Account (view state) lost) reach
    ⟨[], rfl, base⟩ ?_ ?_
  · rintro count before label next earlier ⟨lost, length, account⟩ step unmarked
    obtain ⟨thread, loses, change, loss, others⟩ := exchange earlier step
    obtain ⟨lost', length', account'⟩ := account.step change others
    obtain rfl : loses = false := Bool.eq_false_of_not_eq_true (mt loss.mp unmarked)
    exact ⟨lost', length'.trans length, account'⟩
  · rintro count before label next earlier ⟨lost, length, account⟩ step marked
    obtain ⟨thread, loses, change, loss, others⟩ := exchange earlier step
    obtain ⟨lost', length', account'⟩ := account.step change others
    obtain rfl := loss.mpr marked
    exact ⟨lost', by rw [length', length, Bool.toNat_true], account'⟩

theorem undone_of_run {thread : Tid} {allowed : State → Label → State → Prop}
    (run : (system.restrict allowed).CountedRun marked start count last)
    (reach : system.Reachable start) {before : View Tid Value}
    (base : Undone before 0 thread (view start))
    (exchange : ∀ {earlier label after}, system.Reachable earlier →
      system.Step earlier label after → allowed earlier label after → ∃ loses,
        Exchange thread (view earlier) (view after) loses ∧
        (loses = true ↔ marked earlier label after) ∧ (view earlier).status thread ≠ .idle) :
    Undone before count thread (view last) := by
  refine run.preserves_of_restrict
    (motive := fun count state => Undone before count thread (view state)) reach base ?_ ?_
  · intro count earlier label next reach undone step permitted unmarked
    obtain ⟨loses, change, loss, inside⟩ := exchange reach step permitted
    obtain rfl : loses = false := Bool.eq_false_of_not_eq_true (mt loss.mp unmarked)
    exact undone.step inside change
  · intro count earlier label next reach undone step permitted marked
    obtain ⟨loses, change, loss, inside⟩ := exchange reach step permitted
    obtain rfl := loss.mpr marked
    exact undone.step inside change

end Runs

end ThreadSafeQueue
end ConcurrencyCourse
