import ConcurrencyCourse.SimpleQueue.StepCases

/-!
# Every step keeps the deque in shape

The mutex makes each change of the deque invisible to the other threads until it is complete.
-/

namespace ConcurrencyCourse
namespace SimpleQueue

variable {Tid Value : Type*} {thread : Tid} {queue queue' : Queue Tid Value} {pc pc' : Pc Value}

/-- After the step of `thread` the deque is in shape and the other threads can rely on it. -/
def Preserved (thread : Tid) (queue queue' : Queue Tid Value) (pc' : Pc Value) : Prop :=
  Shape queue' ∧ Assertion thread queue' pc' ∧
    ∀ other, other ≠ thread → Rely other queue queue'

theorem Assertion.not_blocked (assertion : Assertion thread queue pc)
    (awake : pc ≠ .waiting) : thread ∉ queue.condVariable :=
  fun member => awake (assertion.blocked member)

theorem Assertion.outside (assertion : Assertion thread queue pc) (free : pc.holds = false)
    (awake : pc ≠ .waiting) (free' : pc'.holds = false) : Assertion thread queue pc' :=
  ⟨by rw [free', ← free]; exact assertion.held,
    fun member => absurd member (assertion.not_blocked awake), .of_not_holds free'⟩

theorem Rely.refl {other : Tid} : Rely other queue queue := ⟨Iff.rfl, id, fun _ => rfl⟩

theorem Assertion.preserved_of_local (assertion : Assertion thread queue pc)
    (shape : Shape queue) {condVariable : Finset Tid} (fewer : condVariable ⊆ queue.condVariable)
    (blocked : thread ∈ condVariable → pc' = .waiting) (holds : pc'.holds = pc.holds)
    (front : FrontFact queue pc') :
    Preserved thread queue { queue with condVariable := condVariable } pc' :=
  ⟨⟨shape.defined, shape.free, shape.order⟩, ⟨by rw [holds]; exact assertion.held, blocked,
    front.congr rfl⟩, fun _ _ => ⟨Iff.rfl, fun member => fewer member, fun _ => rfl⟩⟩

theorem Shape.preserved_of_lock (shape : Shape queue) (awake : thread ∉ queue.condVariable)
    (free : queue.mutex = none) (holds : pc'.holds = true) (front : FrontFact queue pc') :
    Preserved thread queue { queue with mutex := some thread } pc' := by
  refine ⟨⟨shape.defined, nofun, shape.order⟩, ⟨by simp [holds],
    fun member => absurd member awake, front.congr rfl⟩,
    fun other foreign => ⟨?_, id, fun _ => rfl⟩⟩
  simp [free, foreign.symm]

theorem Shape.preserved_of_unlock (shape : Shape queue) {condVariable : Finset Tid}
    (assertion : Assertion thread queue pc) (held : pc.holds = true) (intact : queue.Intact)
    (holds : pc'.holds = false) (blocked : thread ∈ condVariable → pc' = .waiting)
    (waiters : ∀ other, other ≠ thread → other ∈ condVariable → other ∈ queue.condVariable) :
    Preserved thread queue { queue with mutex := none, condVariable := condVariable } pc' := by
  refine ⟨⟨shape.defined, fun _ => intact, shape.order⟩, ⟨by simp [holds], blocked,
    .of_not_holds holds⟩, fun other foreign => ⟨?_, waiters other foreign, fun _ => rfl⟩⟩
  simp [assertion.held.mpr held, foreign.symm]

/-- The holder of the mutex may change the deque. -/
theorem Assertion.preserved_of_change (assertion : Assertion thread queue pc)
    (shape : Shape queue) (held : pc.holds = true) (awake : pc ≠ .waiting)
    {elements : List (Option Value)} {pushed : List Value} {removed : List (Tid × Value)}
    (order : pushed = removed.map Prod.snd ++ elements.reduceOption) (holds : pc'.holds = true)
    (front : ∀ queue' : Queue Tid Value, queue'.queue = elements → FrontFact queue' pc') :
    Preserved thread queue
      { queue with queue := elements, pushed := pushed, removed := removed } pc' := by
  have owned := assertion.held.mpr held
  refine ⟨⟨shape.defined, ?_, order⟩, ⟨by simp [owned, holds],
    fun member => absurd member (assertion.not_blocked awake), front _ rfl⟩,
    fun other foreign => ⟨Iff.rfl, id, fun held' => ?_⟩⟩
  · simp [owned]
  · exact absurd (Option.some.inj (held'.symm.trans owned)) foreign

theorem Shape.order_move (shape : Shape queue) {value : Value} {values : List Value}
    (front : queue.queue = some value :: values.map some) :
    queue.pushed = (queue.removed ++ [(thread, value)]).map Prod.snd ++
      (none :: values.map some).reduceOption := by
  rw [shape.order, Queue.contents, front]
  simp

section Cases

variable [DecidableEq Tid] {action : Action Tid}

theorem Assertion.preserved_pushCase (shape : Shape queue) (assertion : Assertion thread queue pc)
    (step : PushCase thread queue action pc queue' pc') : Preserved thread queue queue' pc' := by
  have fact := assertion.front
  cases step with
  | lock newValue free =>
      exact shape.preserved_of_lock (assertion.not_blocked nofun) free rfl
        fun _ => shape.free free
  | emplace newValue =>
      obtain ⟨values, stored⟩ := fact rfl
      refine assertion.preserved_of_change shape rfl nofun ?_ rfl fun queue' elements _ => ?_
      · rw [shape.order, Queue.contents, List.reduceOption_append]
        simp
      · exact ⟨values ++ [newValue], by simp [elements, stored]⟩
  | throwEmplace newValue | notifyNobody _ =>
      exact assertion.preserved_of_local shape subset_rfl
        (fun member => absurd member (assertion.not_blocked nofun)) rfl fact
  | notify _ =>
      refine assertion.preserved_of_local shape (Finset.erase_subset _ _) (fun member => ?_) rfl
        fact
      exact absurd (Finset.mem_of_mem_erase member) (assertion.not_blocked nofun)
  | unlock =>
      exact shape.preserved_of_unlock assertion rfl (fact rfl) rfl
        (fun member => absurd member (assertion.not_blocked nofun)) fun _ _ => id
  | unwind =>
      exact shape.preserved_of_unlock assertion rfl (fact rfl) rfl
        (fun member => absurd member (assertion.not_blocked nofun)) fun _ _ => id

omit [DecidableEq Tid] in
theorem Assertion.preserved_tryCase (shape : Shape queue) (assertion : Assertion thread queue pc)
    (step : TryCase thread queue action pc queue' pc') : Preserved thread queue queue' pc' := by
  have fact := assertion.front
  cases step with
  | lock free =>
      exact shape.preserved_of_lock (assertion.not_blocked nofun) free rfl
        fun _ => shape.free free
  | empty _ =>
      exact assertion.preserved_of_local shape subset_rfl
        (fun member => absurd member (assertion.not_blocked nofun)) rfl fact
  | nonempty front =>
      exact assertion.preserved_of_local shape subset_rfl
        (fun member => absurd member (assertion.not_blocked nofun)) rfl ⟨_, _, front⟩
  | move front =>
      exact assertion.preserved_of_change shape rfl nofun (shape.order_move front) rfl
        fun queue' elements => ⟨_, elements⟩
  | throwMove =>
      obtain ⟨value, values, front⟩ := fact
      exact assertion.preserved_of_local shape subset_rfl
        (fun member => absurd member (assertion.not_blocked nofun)) rfl
        fun _ => ⟨value :: values, front⟩
  | popFront val front =>
      refine assertion.preserved_of_change shape rfl nofun ?_ rfl fun queue' elements _ =>
        ⟨_, elements⟩
      rw [shape.order, Queue.contents, front, List.reduceOption_cons_of_none]
  | unlock val =>
      exact shape.preserved_of_unlock assertion rfl (fact rfl) rfl
        (fun member => absurd member (assertion.not_blocked nofun)) fun _ _ => id

theorem Assertion.preserved_waitCase (shape : Shape queue)
    (assertion : Assertion thread queue pc) (step : WaitCase thread queue action pc queue' pc') :
    Preserved thread queue queue' pc' := by
  have fact := assertion.front
  cases step with
  | lock free =>
      exact shape.preserved_of_lock (assertion.not_blocked nofun) free rfl
        fun _ => shape.free free
  | empty _ | testEmpty _ =>
      exact assertion.preserved_of_local shape subset_rfl
        (fun member => absurd member (assertion.not_blocked nofun)) rfl fact
  | nonempty front | testNonempty front =>
      exact assertion.preserved_of_local shape subset_rfl
        (fun member => absurd member (assertion.not_blocked nofun)) rfl ⟨_, _, front⟩
  | move front =>
      exact assertion.preserved_of_change shape rfl nofun (shape.order_move front) rfl
        fun queue' elements => ⟨_, elements⟩
  | throwMove =>
      obtain ⟨value, values, front⟩ := fact
      exact assertion.preserved_of_local shape subset_rfl
        (fun member => absurd member (assertion.not_blocked nofun)) rfl
        fun _ => ⟨value :: values, front⟩
  | popFront value front =>
      refine assertion.preserved_of_change shape rfl nofun ?_ rfl fun queue' elements _ =>
        ⟨_, elements⟩
      rw [shape.order, Queue.contents, front, List.reduceOption_cons_of_none]
  | block =>
      exact shape.preserved_of_unlock assertion rfl (fact rfl) rfl (fun _ => rfl)
        fun other foreign member => Finset.mem_of_mem_insert_of_ne member foreign
  | wake _ =>
      exact assertion.preserved_of_local shape (Finset.erase_subset _ _) (fun _ => rfl) rfl fact
  | relock awake free =>
      exact shape.preserved_of_lock awake free rfl fun _ => shape.free free
  | finish value | throwReturn value =>
      exact assertion.preserved_of_local shape subset_rfl
        (fun member => absurd member (assertion.not_blocked nofun)) rfl fact
  | unlock value =>
      exact shape.preserved_of_unlock assertion rfl (fact rfl) rfl
        (fun member => absurd member (assertion.not_blocked nofun)) fun _ _ => id

theorem Assertion.preserved_callCase (shape : Shape queue) (assertion : Assertion thread queue pc)
    (step : CallCase thread queue action pc queue' pc') : Preserved thread queue queue' pc' := by
  cases step with
  | push taken => exact assertion.preserved_pushCase shape taken
  | tryPop taken => exact assertion.preserved_tryCase shape taken
  | waitAndPop taken => exact assertion.preserved_waitCase shape taken

end Cases

end SimpleQueue
end ConcurrencyCourse
