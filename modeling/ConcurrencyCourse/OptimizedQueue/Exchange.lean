import ConcurrencyCourse.OptimizedQueue.WellFormed
import ConcurrencyCourse.Delivery

/-!
# What the callers of the queue observe

A call of `push` takes effect when it moves `tail`, a removal when it empties `head`, and a
`try_pop()` that finds nothing when it reads `tail`; no other step without an exception changes what
callers could observe.
-/

namespace ConcurrencyCourse
namespace OptimizedQueue

open ThreadSafeQueue

variable {Tid Value : Type*}

/-- The call behind a removal. -/
def PopKind.call : PopKind → Call Value
  | .tryPop => .tryPop
  | .waitAndPop => .waitAndPop

/-- The progress of a call as its caller could observe it. -/
def Pc.status (queue : Queue Tid Value) :
    Pc Value → AtomicObject.Status (Call Value) (Result Value)
  | .idle => .idle
  | .pushAllocate value | .pushLock value _ | .pushReadTail value _ | .pushData value _ _
  | .pushReadTailAgain value _ | .pushNext value _ _ | .pushTail value _ => .pending (.push value)
  | .pushUnlock | .pushNotify => .finished .pushed
  | .pushUnwind _ | .pushDiscard _ => .finished .threw
  | .popLock kind | .popReadHead kind | .getTailLock kind _ | .getTailRead kind _
  | .takeHead kind | .clearHead kind _ => .pending kind.call
  | .getTailUnlock .tryPop head tail | .popCompare .tryPop head tail =>
      if head = some tail then .finished (.popped none) else .pending .tryPop
  | .getTailUnlock .waitAndPop _ _ | .popCompare .waitAndPop _ _ | .waitBlock | .waiting =>
      .pending .waitAndPop
  | .emptyUnlock => .finished (.popped none)
  | .readNext _ oldHead | .clearNext _ oldHead _ | .setHead _ oldHead _ | .popUnlock _ oldHead
  | .takeData _ oldHead => .finished (.popped (oldHead.bind queue.data))
  | .freeNode _ result | .returning result => .finished result

/-- The queue as its callers could observe it. -/
def view (config : Config Tid Value) : View Tid Value where
  pushed := config.shared.pushed
  removed := config.shared.removed
  history := config.shared.history
  status thread := (config.threads thread).status config.shared

variable {layout layout' : Layout Tid Value} {thread : Tid} {queue queue' : Queue Tid Value}
  {threads : Tid → Pc Value} {pc pc' : Pc Value}

/-- The observable progress of a thread survives every step of another thread. -/
theorem Assertion.status_of_rely (assertion : Assertion layout thread queue pc)
    (rely : Rely thread layout queue layout' queue') : pc.status queue' = pc.status queue := by
  have data {address : Address} {node : Node Value}
      (own : Owned layout thread queue address node) :
      queue'.data address = queue.data address := by
    simp [Queue.data, own.2, (rely.owned _ _ own).2]
  have fact := assertion.ownFact
  cases pc with
  | readNext | clearNext | setHead | popUnlock =>
      obtain ⟨address, value, rfl, own⟩ := fact
      simp [Pc.status, data own]
  | takeData =>
      rcases fact with ⟨-, rfl⟩ | ⟨address, value, rfl, own⟩
      · rfl
      · simp [Pc.status, data own]
  | getTailUnlock kind | popCompare kind =>
      cases kind with
      | tryPop | waitAndPop => rfl
  | _ => rfl

theorem Shape.eq_values (shape : Shape layout queue) {values : List Value}
    (order : queue.pushed = queue.removed ++ values) : values = layout.values :=
  List.append_cancel_left (order.symm.trans shape.order)

theorem Shape.values_eq_nil (shape : Shape layout queue) (empty : layout.front = queue.tail) :
    layout.values = [] := by
  have nodes : layout.nodes = [] := by
    by_contra nonempty
    exact shape.front_ne_tail nonempty empty
  simpa [nodes] using shape.values.symm

/-! ## The kinds of steps -/

variable [DecidableEq Tid]

omit [DecidableEq Tid] in
theorem view_status (queue : Queue Tid Value) (position : threads thread = pc) :
    (view ⟨queue, threads⟩).status thread = pc.status queue := by
  rw [← position]
  rfl

theorem view_status_update :
    (view ⟨queue', Function.update threads thread pc'⟩).status thread = pc'.status queue' := by
  simp [view]

theorem regular_of_same (position : threads thread = pc) (pushed : queue'.pushed = queue.pushed)
    (removed : queue'.removed = queue.removed) (history : queue'.history = queue.history)
    (status : pc'.status queue' = pc.status queue) :
    Regular thread (view ⟨queue, threads⟩) (view ⟨queue', Function.update threads thread pc'⟩) :=
  .stutter pushed removed history
    (view_status_update.trans (status.trans (view_status queue position).symm))

theorem PushCase.regular (position : threads thread = pc)
    (step : PushCase thread queue pc queue' pc') :
    Regular thread (view ⟨queue, threads⟩)
      (view ⟨queue', Function.update threads thread pc'⟩) := by
  cases step with
  | moveTail value p =>
      exact .push value rfl rfl rfl (view_status queue position) view_status_update
  | lock | readTail | writeData | readTailAgain | writeNext | unlock | unwind | discard =>
      exact regular_of_same position rfl rfl rfl rfl

theorem Assertion.regular_compareCase (shape : Shape layout queue)
    (assertion : Assertion layout thread queue pc) (position : threads thread = pc)
    (step : CompareCase thread queue pc queue' pc') :
    Regular thread (view ⟨queue, threads⟩)
      (view ⟨queue', Function.update threads thread pc'⟩) := by
  cases step with
  | readTail kind head =>
      obtain ⟨-, rfl⟩ := assertion.headFact
      cases kind with
      | waitAndPop => exact regular_of_same position rfl rfl rfl rfl
      | tryPop =>
          by_cases empty : layout.front = queue.tail
          · refine .empty rfl rfl rfl ?_ (view_status queue position)
              (view_status_update.trans (by simp [Pc.status, empty]))
            have order := shape.order
            rwa [shape.values_eq_nil empty, List.append_nil] at order
          · exact regular_of_same position rfl rfl rfl (by simp [Pc.status, empty, PopKind.call])
  | unlockTail kind head tail =>
      cases kind with
      | tryPop | waitAndPop => exact regular_of_same position rfl rfl rfl rfl
  | equalTry tail => exact regular_of_same position rfl rfl rfl (by simp [Pc.status])
  | different kind head tail differs =>
      refine regular_of_same position rfl rfl rfl ?_
      cases kind with
      | tryPop => simp [Pc.status, differs, PopKind.call]
      | waitAndPop => rfl
  | lock | readHead | lockTail | equalWait | unlock =>
      exact regular_of_same position rfl rfl rfl rfl

theorem PopCase.regular (position : threads thread = pc) (step : PopCase queue pc queue' pc') :
    Regular thread (view ⟨queue, threads⟩)
      (view ⟨queue', Function.update threads thread pc'⟩) := by
  cases step with
  | clearHead kind node =>
      refine .pop kind.call _ ?_ rfl rfl rfl (view_status queue position)
        (view_status_update.trans (by simp [Pc.status, Queue.data, node]))
      cases kind with
      | tryPop | waitAndPop => rfl
  | clearNext kind node =>
      exact regular_of_same position rfl rfl rfl
        (by simp [Pc.status, Queue.data, Queue.store, node])
  | takeData kind node =>
      exact regular_of_same position rfl rfl rfl (by simp [Pc.status, Queue.data, node])
  | takeHead | readNext | setHead | unlock | takeNothing | free | freed =>
      exact regular_of_same position rfl rfl rfl rfl

/-- Every step without an exception is of one of the kinds that the account of values knows. -/
theorem Assertion.regular {action : Action Tid Value} (shape : Shape layout queue)
    (assertion : Assertion layout thread queue pc) (position : threads thread = pc)
    (step : StepCase thread queue action pc queue' pc') (noThrow : action ≠ .throw) :
    Regular thread (view ⟨queue, threads⟩)
      (view ⟨queue', Function.update threads thread pc'⟩) := by
  cases step with
  | call call =>
      refine .call call rfl rfl rfl (view_status queue position) (view_status_update.trans ?_)
      cases call with
      | push | tryPop | waitAndPop => rfl
  | ret result => exact .ret result rfl rfl rfl (view_status queue position) view_status_update
  | throwAllocate | throwData | throwTake => exact absurd rfl noThrow
  | push taken => exact taken.regular position
  | compare taken => exact assertion.regular_compareCase shape position taken
  | pop taken => exact taken.regular position
  | allocate | notifyNobody | notify | block | wake | relock =>
      exact regular_of_same position rfl rfl rfl rfl

end OptimizedQueue
end ConcurrencyCourse
