import ConcurrencyCourse.OptimizedQueue.Invariant

/-!
# What one step does

Under the list invariant every pointer that a step follows leads to a known node, so each step has
one known effect.  The relations below list these effects for the three parts of the calls and for
the actions around them.
-/

namespace ConcurrencyCourse
namespace OptimizedQueue

open ThreadSafeQueue

variable {Tid Value : Type*}

/-- Effects of the steps of `push` under `tail_mutex`. -/
inductive PushCase (thread : Tid) (queue : Queue Tid Value) :
    Pc Value → Queue Tid Value → Pc Value → Prop
  | lock (value : Value) (p : Address) : queue.tailMutex = none →
      PushCase thread queue (.pushLock value p) { queue with tailMutex := some thread }
        (.pushReadTail value p)
  | readTail (value : Value) (p : Address) :
      PushCase thread queue (.pushReadTail value p) queue (.pushData value p queue.tail)
  | writeData (value : Value) (p : Address) :
      PushCase thread queue (.pushData value p queue.tail)
        (queue.store queue.tail (some ⟨some value, none⟩)) (.pushReadTailAgain value p)
  | readTailAgain (value : Value) (p : Address) :
      PushCase thread queue (.pushReadTailAgain value p) queue (.pushNext value p queue.tail)
  | writeNext (value : Value) (p : Address) :
      PushCase thread queue (.pushNext value p queue.tail)
        (queue.store queue.tail (some ⟨some value, some p⟩)) (.pushTail value p)
  | moveTail (value : Value) (p : Address) :
      PushCase thread queue (.pushTail value p)
        { queue with tail := p, pushed := queue.pushed ++ [value] } .pushUnlock
  | unlock : PushCase thread queue .pushUnlock { queue with tailMutex := none } .pushNotify
  | unwind (p : Address) :
      PushCase thread queue (.pushUnwind p) { queue with tailMutex := none } (.pushDiscard p)
  | discard (p : Address) :
      PushCase thread queue (.pushDiscard p) (queue.store p none) (.returning .threw)

/-- Effects of the steps of the comparison. -/
inductive CompareCase (thread : Tid) (queue : Queue Tid Value) :
    Pc Value → Queue Tid Value → Pc Value → Prop
  | lock (kind : PopKind) : queue.headMutex = none →
      CompareCase thread queue (.popLock kind) { queue with headMutex := some thread }
        (.popReadHead kind)
  | readHead (kind : PopKind) :
      CompareCase thread queue (.popReadHead kind) queue (.getTailLock kind queue.head)
  | lockTail (kind : PopKind) (head : Option Address) : queue.tailMutex = none →
      CompareCase thread queue (.getTailLock kind head) { queue with tailMutex := some thread }
        (.getTailRead kind head)
  | readTail (kind : PopKind) (head : Option Address) :
      CompareCase thread queue (.getTailRead kind head) queue
        (.getTailUnlock kind head queue.tail)
  | unlockTail (kind : PopKind) (head : Option Address) (tail : Address) :
      CompareCase thread queue (.getTailUnlock kind head tail) { queue with tailMutex := none }
        (.popCompare kind head tail)
  | equalTry (tail : Address) :
      CompareCase thread queue (.popCompare .tryPop (some tail) tail) queue .emptyUnlock
  | equalWait (tail : Address) :
      CompareCase thread queue (.popCompare .waitAndPop (some tail) tail) queue .waitBlock
  | different (kind : PopKind) (head : Option Address) (tail : Address) : head ≠ some tail →
      CompareCase thread queue (.popCompare kind head tail) queue (.takeHead kind)
  | unlock : CompareCase thread queue .emptyUnlock { queue with headMutex := none }
      (.takeData .tryPop none)

/-- Effects of the steps of `pop_head` and of what follows it. -/
inductive PopCase (queue : Queue Tid Value) : Pc Value → Queue Tid Value → Pc Value → Prop
  | takeHead (kind : PopKind) :
      PopCase queue (.takeHead kind) queue (.clearHead kind queue.head)
  | clearHead (kind : PopKind) {front second : Address} {value : Value} :
      queue.heap front = some ⟨some value, some second⟩ →
      PopCase queue (.clearHead kind (some front))
        { queue with head := none, removed := queue.removed ++ [value] }
        (.readNext kind (some front))
  | readNext (kind : PopKind) {address second : Address} {value : Value} :
      queue.heap address = some ⟨some value, some second⟩ →
      PopCase queue (.readNext kind (some address)) queue
        (.clearNext kind (some address) (some second))
  | clearNext (kind : PopKind) {address : Address} {value : Value}
      {successor next : Option Address} : queue.heap address = some ⟨some value, successor⟩ →
      PopCase queue (.clearNext kind (some address) next)
        (queue.store address (some ⟨some value, none⟩)) (.setHead kind (some address) next)
  | setHead (kind : PopKind) (oldHead next : Option Address) :
      PopCase queue (.setHead kind oldHead next) { queue with head := next }
        (.popUnlock kind oldHead)
  | unlock (kind : PopKind) (oldHead : Option Address) :
      PopCase queue (.popUnlock kind oldHead) { queue with headMutex := none }
        (.takeData kind oldHead)
  | takeNothing : PopCase queue (.takeData .tryPop none) queue (.returning (.popped none))
  | takeData (kind : PopKind) {address : Address} {value : Value} :
      queue.heap address = some ⟨some value, none⟩ →
      PopCase queue (.takeData kind (some address)) queue
        (.freeNode (some address) (.popped (some value)))
  | free {address : Address} {value : Value} (result : Result Value) :
      queue.heap address = some ⟨some value, none⟩ →
      PopCase queue (.freeNode (some address) result) (queue.store address none)
        (.freeNode none result)
  | freed (result : Result Value) :
      PopCase queue (.freeNode none result) queue (.returning result)

/-- Effects of every action of a thread. -/
inductive StepCase [DecidableEq Tid] (thread : Tid) (queue : Queue Tid Value) :
    Action Tid Value → Pc Value → Queue Tid Value → Pc Value → Prop
  | call (call : Call Value) : StepCase thread queue (.call call) .idle
      { queue with history := queue.history ++ [.call thread call] } (entry call)
  | allocate (value : Value) {address : Address} : queue.heap address = none →
      StepCase thread queue (.allocate address) (.pushAllocate value)
        (queue.store address (some .empty)) (.pushLock value address)
  | notifyNobody : queue.dataCond = ∅ →
      StepCase thread queue (.notifyOne none) .pushNotify queue (.returning .pushed)
  | notify {waiter : Tid} : waiter ∈ queue.dataCond →
      StepCase thread queue (.notifyOne (some waiter)) .pushNotify
        { queue with dataCond := queue.dataCond.erase waiter } (.returning .pushed)
  | block : StepCase thread queue .run .waitBlock
      { queue with headMutex := none, dataCond := insert thread queue.dataCond } .waiting
  | wake : thread ∈ queue.dataCond → StepCase thread queue .wakeSpuriously .waiting
      { queue with dataCond := queue.dataCond.erase thread } .waiting
  | relock : thread ∉ queue.dataCond → queue.headMutex = none →
      StepCase thread queue .run .waiting
        { queue with headMutex := some thread } (.popReadHead .waitAndPop)
  | ret (result : Result Value) : StepCase thread queue .run (.returning result)
      { queue with history := queue.history ++ [.ret thread result] } .idle
  | throwAllocate (value : Value) :
      StepCase thread queue .throw (.pushAllocate value) queue (.returning .threw)
  | throwData (value : Value) (p tail : Address) :
      StepCase thread queue .throw (.pushData value p tail) queue (.pushUnwind p)
  | throwTake (kind : PopKind) (address : Address) : StepCase thread queue .throw
      (.takeData kind (some address)) queue (.freeNode (some address) .threw)
  | push {pc pc' : Pc Value} {queue' : Queue Tid Value} : PushCase thread queue pc queue' pc' →
      StepCase thread queue .run pc queue' pc'
  | compare {pc pc' : Pc Value} {queue' : Queue Tid Value} :
      CompareCase thread queue pc queue' pc' → StepCase thread queue .run pc queue' pc'
  | pop {pc pc' : Pc Value} {queue' : Queue Tid Value} : PopCase queue pc queue' pc' →
      StepCase thread queue .run pc queue' pc'

variable {layout : Layout Tid Value} {thread : Tid} {queue queue' : Queue Tid Value}
  {pc pc' : Pc Value}

theorem Queue.deref_some {address : Address} {node : Node Value}
    (stored : queue.heap address = some node) :
    queue.deref (some address) = some (address, node) := by
  simp [Queue.deref, stored]

/-- The first node of a nonempty list holds the first value and links to the rest of the list. -/
theorem Shape.exists_front (shape : Shape layout queue) (nonempty : layout.nodes ≠ []) :
    ∃ second rest value later, layout.nodes = layout.front :: rest ∧
      layout.values = value :: later ∧ queue.heap layout.front = some ⟨some value, some second⟩ ∧
      LinkedPath.Path queue.next second rest queue.tail ∧
      rest.map queue.data = later.map some := by
  obtain ⟨second, rest, nodes, link, path⟩ := shape.path.exists_cons nonempty
  have values := shape.values
  rw [nodes] at values
  cases stored : layout.values with
  | nil => simp [stored] at values
  | cons value later =>
      rw [stored, List.map_cons, List.map_cons, List.cons.injEq] at values
      refine ⟨second, rest, value, later, nodes, rfl, ?_, path, values.2⟩
      cases node : queue.heap layout.front with
      | none => simp [Queue.next, node] at link
      | some node' =>
          obtain ⟨data, next⟩ := node'
          simp_all [Queue.next, Queue.data]

theorem Assertion.pushStep_cases (assertion : Assertion layout thread queue pc)
    (step : pushStep thread queue pc = some (queue', pc')) :
    PushCase thread queue pc queue' pc' := by
  cases pc with
  | pushLock value p =>
      cases free : queue.tailMutex with
      | some holder => simp [pushStep, free] at step
      | none =>
          obtain ⟨rfl, rfl⟩ : _ ∧ _ := by simpa [pushStep, free] using step
          exact .lock value p free
  | pushReadTail value p =>
      obtain ⟨rfl, rfl⟩ : _ ∧ _ := by simpa [pushStep] using step
      exact .readTail value p
  | pushData value p tail =>
      obtain ⟨rfl, clean⟩ := assertion.tailFact
      obtain ⟨rfl, rfl⟩ : _ ∧ _ := by simpa [pushStep, Queue.deref_some clean] using step
      exact .writeData value p
  | pushReadTailAgain value p =>
      obtain ⟨rfl, rfl⟩ : _ ∧ _ := by simpa [pushStep] using step
      exact .readTailAgain value p
  | pushNext value p tail =>
      obtain ⟨rfl, filled⟩ := assertion.tailFact
      obtain ⟨rfl, rfl⟩ : _ ∧ _ := by simpa [pushStep, Queue.deref_some filled] using step
      exact .writeNext value p
  | pushTail value p =>
      obtain ⟨rfl, rfl⟩ : _ ∧ _ := by simpa [pushStep] using step
      exact .moveTail value p
  | pushUnlock =>
      obtain ⟨rfl, rfl⟩ : _ ∧ _ := by simpa [pushStep] using step
      exact .unlock
  | pushUnwind p =>
      obtain ⟨rfl, rfl⟩ : _ ∧ _ := by simpa [pushStep] using step
      exact .unwind p
  | pushDiscard p =>
      obtain ⟨rfl, rfl⟩ : _ ∧ _ := by simpa [pushStep] using step
      exact .discard p
  | _ => simp [pushStep] at step

theorem compareStep_cases (step : compareStep thread queue pc = some (queue', pc')) :
    CompareCase thread queue pc queue' pc' := by
  cases pc with
  | popLock kind =>
      cases free : queue.headMutex with
      | some holder => simp [compareStep, free] at step
      | none =>
          obtain ⟨rfl, rfl⟩ : _ ∧ _ := by simpa [compareStep, free] using step
          exact .lock kind free
  | popReadHead kind =>
      obtain ⟨rfl, rfl⟩ : _ ∧ _ := by simpa [compareStep] using step
      exact .readHead kind
  | getTailLock kind head =>
      cases free : queue.tailMutex with
      | some holder => simp [compareStep, free] at step
      | none =>
          obtain ⟨rfl, rfl⟩ : _ ∧ _ := by simpa [compareStep, free] using step
          exact .lockTail kind head free
  | getTailRead kind head =>
      obtain ⟨rfl, rfl⟩ : _ ∧ _ := by simpa [compareStep] using step
      exact .readTail kind head
  | getTailUnlock kind head tail =>
      obtain ⟨rfl, rfl⟩ : _ ∧ _ := by simpa [compareStep] using step
      exact .unlockTail kind head tail
  | popCompare kind head tail =>
      by_cases equal : head = some tail
      · subst equal
        cases kind with
        | tryPop =>
            obtain ⟨rfl, rfl⟩ : _ ∧ _ := by simpa [compareStep] using step
            exact .equalTry tail
        | waitAndPop =>
            obtain ⟨rfl, rfl⟩ : _ ∧ _ := by simpa [compareStep] using step
            exact .equalWait tail
      · obtain ⟨rfl, rfl⟩ : _ ∧ _ := by simpa [compareStep, equal] using step
        exact .different kind head tail equal
  | emptyUnlock =>
      obtain ⟨rfl, rfl⟩ : _ ∧ _ := by simpa [compareStep] using step
      exact .unlock
  | _ => simp [compareStep] at step

theorem Assertion.popStep_cases (shape : Shape layout queue)
    (assertion : Assertion layout thread queue pc)
    (step : popStep queue pc = some (queue', pc')) : PopCase queue pc queue' pc' := by
  cases pc with
  | takeHead kind =>
      obtain ⟨rfl, rfl⟩ : _ ∧ _ := by simpa [popStep] using step
      exact .takeHead kind
  | clearHead kind oldHead =>
      obtain ⟨-, rfl, nonempty⟩ := assertion.headFact
      obtain ⟨second, rest, value, later, -, -, node, -, -⟩ := shape.exists_front nonempty
      obtain ⟨rfl, rfl⟩ : _ ∧ _ := by simpa [popStep, Queue.deref_some node] using step
      exact .clearHead kind node
  | readNext kind oldHead =>
      obtain ⟨address, value, rfl, own⟩ := assertion.ownFact
      obtain ⟨rfl, rfl⟩ : _ ∧ _ := by simpa [popStep, Queue.deref_some own.2] using step
      exact .readNext kind own.2
  | clearNext kind oldHead next =>
      obtain ⟨address, value, rfl, own⟩ := assertion.ownFact
      obtain ⟨rfl, rfl⟩ : _ ∧ _ := by simpa [popStep, Queue.deref_some own.2] using step
      exact .clearNext kind own.2
  | setHead kind oldHead next =>
      obtain ⟨rfl, rfl⟩ : _ ∧ _ := by simpa [popStep] using step
      exact .setHead kind oldHead next
  | popUnlock kind oldHead =>
      obtain ⟨rfl, rfl⟩ : _ ∧ _ := by simpa [popStep] using step
      exact .unlock kind oldHead
  | takeData kind oldHead =>
      rcases assertion.ownFact with ⟨rfl, rfl⟩ | ⟨address, value, rfl, own⟩
      · obtain ⟨rfl, rfl⟩ : _ ∧ _ := by simpa [popStep] using step
        exact .takeNothing
      · obtain ⟨rfl, rfl⟩ : _ ∧ _ := by simpa [popStep, Queue.deref_some own.2] using step
        exact .takeData kind own.2
  | freeNode oldHead result =>
      rcases assertion.ownFact with rfl | ⟨address, value, rfl, own⟩
      · obtain ⟨rfl, rfl⟩ : _ ∧ _ := by simpa [popStep] using step
        exact .freed result
      · obtain ⟨rfl, rfl⟩ : _ ∧ _ := by simpa [popStep, own.2] using step
        exact .free result own.2
  | _ => simp [popStep] at step

section Actions

variable [DecidableEq Tid]

theorem throwStep_cases (step : throwStep pc = some pc') :
    StepCase thread queue .throw pc queue pc' := by
  cases pc with
  | pushAllocate value =>
      obtain rfl : _ = _ := by simpa [throwStep] using step
      exact .throwAllocate value
  | pushData value p tail =>
      obtain rfl : _ = _ := by simpa [throwStep] using step
      exact .throwData value p tail
  | takeData kind oldHead =>
      cases oldHead with
      | none => simp [throwStep] at step
      | some address =>
          obtain rfl : _ = _ := by simpa [throwStep] using step
          exact .throwTake kind address
  | _ => simp [throwStep] at step

theorem Assertion.run_cases (shape : Shape layout queue)
    (assertion : Assertion layout thread queue pc)
    (step : (pushStep thread queue pc).or ((compareStep thread queue pc).or (popStep queue pc)) =
      some (queue', pc')) : StepCase thread queue .run pc queue' pc' := by
  rcases Option.or_eq_some_iff.mp step with pushes | ⟨-, later⟩
  · exact .push (assertion.pushStep_cases pushes)
  rcases Option.or_eq_some_iff.mp later with compares | ⟨-, pops⟩
  · exact .compare (compareStep_cases compares)
  · exact .pop (assertion.popStep_cases shape pops)

theorem Assertion.threadStep_cases {action : Action Tid Value} (shape : Shape layout queue)
    (assertion : Assertion layout thread queue pc)
    (step : threadStep thread action queue pc = some (queue', pc')) :
    StepCase thread queue action pc queue' pc' := by
  cases action with
  | call call =>
      cases pc with
      | idle =>
          obtain ⟨rfl, rfl⟩ : _ ∧ _ := by simpa [threadStep] using step
          exact .call call
      | _ => simp [threadStep] at step
  | allocate address =>
      cases pc with
      | pushAllocate value =>
          cases free : queue.heap address with
          | some node => simp [threadStep, free] at step
          | none =>
              obtain ⟨rfl, rfl⟩ : _ ∧ _ := by simpa [threadStep, free] using step
              exact .allocate value free
      | _ => simp [threadStep] at step
  | notifyOne waiter =>
      cases pc with
      | pushNotify =>
          cases waiter with
          | none =>
              obtain ⟨nobody, rfl, rfl⟩ : _ ∧ _ ∧ _ := by simpa [threadStep] using step
              exact .notifyNobody nobody
          | some waiter =>
              obtain ⟨member, rfl, rfl⟩ : _ ∧ _ ∧ _ := by simpa [threadStep] using step
              exact .notify member
      | _ => cases waiter <;> simp [threadStep] at step
  | wakeSpuriously =>
      cases pc with
      | waiting =>
          obtain ⟨member, rfl, rfl⟩ : _ ∧ _ ∧ _ := by simpa [threadStep] using step
          exact .wake member
      | _ => simp [threadStep] at step
  | throw =>
      simp only [threadStep, Option.map_eq_some_iff, Prod.mk.injEq] at step
      obtain ⟨pc', thrown, rfl, rfl⟩ := step
      exact throwStep_cases thrown
  | run =>
      cases pc with
      | waitBlock =>
          obtain ⟨rfl, rfl⟩ : _ ∧ _ := by simpa [threadStep] using step
          exact .block
      | waiting =>
          by_cases member : thread ∈ queue.dataCond
          · simp [threadStep, member] at step
          · cases free : queue.headMutex with
            | some holder => simp [threadStep, member, free] at step
            | none =>
                obtain ⟨rfl, rfl⟩ : _ ∧ _ := by simpa [threadStep, member, free] using step
                exact .relock member free
      | returning result =>
          obtain ⟨rfl, rfl⟩ : _ ∧ _ := by simpa [threadStep] using step
          exact .ret result
      | _ => exact assertion.run_cases shape step

end Actions

end OptimizedQueue
end ConcurrencyCourse
