import ConcurrencyCourse.OptimizedQueue.StepCases

/-!
# Every step keeps the shape of the list

Each step is one of a few changes of the shared state: of a mutex or the set of waiters alone, of a
node that the thread owns, of the tail node, of `tail`, or of `head`.  For each change the layout
afterwards is named, the shape of the list is shown, and so is what the other threads rely on.
-/

namespace ConcurrencyCourse
namespace OptimizedQueue

open LinkedPath ThreadSafeQueue

variable {Tid Value : Type*} {layout layout' : Layout Tid Value} {thread other : Tid}
  {queue queue' : Queue Tid Value} {pc pc' : Pc Value}

/-- After the step of `thread` there is a layout for the list that the other threads can rely on. -/
def Preserved (layout : Layout Tid Value) (thread : Tid) (queue queue' : Queue Tid Value)
    (pc' : Pc Value) : Prop :=
  ∃ layout', Shape layout' queue' ∧ Assertion layout' thread queue' pc' ∧
    ∀ other, other ≠ thread → Rely other layout queue layout' queue'

theorem Assertion.not_blocked (assertion : Assertion layout thread queue pc)
    (awake : pc ≠ .waiting) : thread ∉ queue.dataCond :=
  fun member => awake (assertion.blocked member)

/-! ## Steps that leave the list alone -/

theorem Rely.refl : Rely other layout queue layout queue :=
  ⟨Iff.rfl, Iff.rfl, id, fun _ _ => id, fun _ => ⟨rfl, rfl, id⟩, fun _ => ⟨rfl, rfl⟩⟩

theorem Assertion.preserved_of_local (assertion : Assertion layout thread queue pc)
    (shape : Shape layout queue) (awake : pc ≠ .waiting)
    (head : pc'.holdsHead = pc.holdsHead) (tail : pc'.holdsTail = pc.holdsTail)
    (tailFact : TailFact queue pc') (headFact : HeadFact layout queue pc')
    (ownFact : OwnFact layout thread queue pc') : Preserved layout thread queue queue pc' :=
  ⟨layout, shape, ⟨by rw [head]; exact assertion.headHeld, by rw [tail]; exact assertion.tailHeld,
    fun member => absurd member (assertion.not_blocked awake), tailFact, headFact, ownFact⟩,
    fun _ _ => .refl⟩

/-- A step that changes neither the list nor its ends. -/
theorem Shape.preserved_of_list (shape : Shape layout queue)
    (assertion : Assertion layout thread queue' pc')
    (heap : queue'.heap = queue.heap) (head : queue'.head = queue.head)
    (tail : queue'.tail = queue.tail) (pushed : queue'.pushed = queue.pushed)
    (removed : queue'.removed = queue.removed) (undefined : queue'.undefined = queue.undefined)
    (tailFree : queue'.tailMutex = none → queue.heap queue.tail = some .empty)
    (headFree : queue'.headMutex = none → queue.head = some layout.front)
    (headMutex : ∀ other, other ≠ thread →
      (queue'.headMutex = some other ↔ queue.headMutex = some other))
    (tailMutex : ∀ other, other ≠ thread →
      (queue'.tailMutex = some other ↔ queue.tailMutex = some other))
    (dataCond : ∀ other, other ≠ thread → other ∈ queue'.dataCond → other ∈ queue.dataCond) :
    Preserved layout thread queue queue' pc' := by
  have next : queue'.next = queue.next := by
    funext address
    simp [Queue.next, heap]
  have data : queue'.data = queue.data := by
    funext address
    simp [Queue.data, heap]
  refine ⟨layout, ⟨?_, ?_, ?_, shape.nodup, ?_, ?_, ?_, ?_, ?_⟩, assertion, fun other foreign => ?_⟩
  · rw [undefined, shape.defined]
  · rw [next, tail]
    exact shape.path
  · rw [tail]
    exact shape.fresh
  · rw [data, shape.values]
  · rw [pushed, removed, shape.order]
  · rw [tail, heap]
    exact shape.listed
  · rw [heap, tail]
    exact tailFree
  · rw [head]
    exact headFree
  · refine ⟨headMutex other foreign, tailMutex other foreign, dataCond other foreign, ?_,
      fun _ => ⟨head, rfl, id⟩, fun _ => ⟨tail, by rw [heap]⟩⟩
    intro address node own
    exact ⟨own.1, by rw [heap]; exact own.2⟩

/-! ## Steps on a node outside the list -/

/-- A node outside the list may be created, changed or destroyed by its owner. -/
theorem Shape.preserved_of_store (shape : Shape layout queue) {address : Address}
    {node : Option (Node Value)} (owner : Option Tid)
    (outside : address ∉ layout.nodes ∧ address ≠ queue.tail)
    (unowned : ∀ other, other ≠ thread → ∀ node,
      ¬ Owned layout other queue address node)
    (assertion : Assertion { layout with owner := Function.update layout.owner address owner }
      thread (queue.store address node) pc') :
    Preserved layout thread queue (queue.store address node) pc' := by
  have heap : ∀ other, other ≠ address → (queue.store address node).heap other =
      queue.heap other := fun other different => by simp [Queue.store, different]
  have inside : ∀ other ∈ layout.nodes, other ≠ address := by
    rintro other member rfl
    exact outside.1 member
  have tailKept : (queue.store address node).heap queue.tail = queue.heap queue.tail :=
    heap _ outside.2.symm
  refine ⟨{ layout with owner := Function.update layout.owner address owner },
    ⟨shape.defined, ?_, shape.fresh, shape.nodup, ?_, shape.order, ?_, ?_, shape.headFree⟩,
    assertion, fun other foreign => ?_⟩
  · refine shape.path.congr fun other member => ?_
    simp [Queue.next, heap other (inside other member)]
  · rw [← shape.values]
    refine List.map_congr_left fun other member => ?_
    simp [Queue.data, heap other (inside other member)]
  · intro other member
    have different : other ≠ address := by
      rcases member with member | rfl
      · exact inside other member
      · exact outside.2.symm
    simpa [heap other different, different] using shape.listed other member
  · intro free
    exact tailKept.trans (shape.tailFree free)
  · refine ⟨Iff.rfl, Iff.rfl, id, fun target stored own => ?_, fun _ => ⟨rfl, rfl, id⟩,
      fun _ => ⟨rfl, tailKept⟩⟩
    have different : target ≠ address := by
      rintro rfl
      exact unowned other foreign stored own
    exact ⟨by simpa [different] using own.1, by rw [heap target different]; exact own.2⟩

theorem Shape.outside_of_owned (shape : Shape layout queue) {address : Address}
    {node : Node Value} (own : Owned layout thread queue address node) :
    address ∉ layout.nodes ∧ address ≠ queue.tail := by
  constructor
  · intro member
    simpa [own.1] using (shape.listed address (Or.inl member)).1
  · intro same
    simpa [own.1] using (shape.listed address (Or.inr same)).1

theorem Owned.unowned {address : Address} {node : Node Value}
    (own : Owned layout thread queue address node) (foreign : other ≠ thread)
    (node' : Node Value) : ¬ Owned layout other queue address node' :=
  fun own' => foreign (Option.some.inj (own'.1.symm.trans own.1))

theorem Owned.store_ne {address changed : Address} {node : Node Value}
    {stored : Option (Node Value)} (own : Owned layout thread queue address node)
    (different : address ≠ changed) :
    Owned layout thread (queue.store changed stored) address node :=
  ⟨own.1, by simpa [Queue.store, different] using own.2⟩

/-! ## Steps at the tail -/

/-- The holder of `tail_mutex` may write to the tail node. -/
theorem Shape.preserved_of_storeTail (shape : Shape layout queue) {node : Node Value}
    (held : queue.tailMutex = some thread)
    (assertion : Assertion layout thread (queue.store queue.tail (some node)) pc') :
    Preserved layout thread queue (queue.store queue.tail (some node)) pc' := by
  have heap : ∀ address ∈ layout.nodes, (queue.store queue.tail (some node)).heap address =
      queue.heap address := by
    intro address member
    have different : address ≠ queue.tail := by
      rintro rfl
      exact shape.fresh member
    simp [Queue.store, different]
  refine ⟨layout, ⟨shape.defined, ?_, shape.fresh, shape.nodup, ?_, shape.order, ?_, ?_,
    shape.headFree⟩, assertion, fun other foreign => ?_⟩
  · refine shape.path.congr fun address member => ?_
    simp [Queue.next, heap address member]
  · rw [← shape.values]
    refine List.map_congr_left fun address member => ?_
    simp [Queue.data, heap address member]
  · rintro address (member | rfl)
    · rw [heap address member]
      exact shape.listed address (Or.inl member)
    · exact ⟨(shape.listed _ (Or.inr rfl)).1, by simp [Queue.store]⟩
  · intro free
    simp [Queue.store, held] at free
  · refine ⟨Iff.rfl, Iff.rfl, id, fun address stored own => ⟨own.1, ?_⟩,
      fun _ => ⟨rfl, rfl, id⟩, fun held' => ?_⟩
    · have different := (shape.outside_of_owned own).2
      simpa [Queue.store, different] using own.2
    · exact absurd (Option.some.inj (held'.symm.trans held)) foreign

/-- Moving `tail` to the prepared node appends the value just written. -/
theorem Shape.preserved_of_moveTail [DecidableEq Tid] (shape : Shape layout queue)
    {value : Value} {p : Address} (held : queue.tailMutex = some thread)
    (assertion : Assertion layout thread queue (.pushTail value p)) :
    Preserved layout thread queue
      { queue with tail := p, pushed := queue.pushed ++ [value] } .pushUnlock := by
  have linked : queue.heap queue.tail = some ⟨some value, some p⟩ := assertion.tailFact
  have own : Owned layout thread queue p .empty := assertion.ownFact
  have outside := shape.outside_of_owned own
  refine ⟨{ front := layout.front, nodes := layout.nodes ++ [queue.tail]
            values := layout.values ++ [value], owner := Function.update layout.owner p none },
    ⟨shape.defined, ?_, ?_, ?_, ?_, ?_, ?_, ?_, shape.headFree⟩, ⟨assertion.headHeld,
    assertion.tailHeld, fun member => absurd member (assertion.not_blocked nofun), own.2,
    trivial, trivial⟩, fun other foreign => ?_⟩
  · exact shape.path.snoc (by simp [Queue.next, linked])
  · simpa using ⟨outside.1, outside.2⟩
  · exact List.nodup_append'.mpr ⟨shape.nodup, List.nodup_singleton _, by
      simpa using shape.fresh⟩
  · rw [List.map_append, List.map_append]
    exact congrArg₂ (· ++ ·) shape.values (by simp [Queue.data, linked])
  · simp [shape.order]
  · rintro address member
    by_cases same : address = p
    · subst same
      exact ⟨by simp, by simp [own.2]⟩
    · have member' : address ∈ layout.nodes ∨ address = queue.tail := by
        simpa [same] using member
      simpa [same] using shape.listed address member'
  · intro free
    simp [held] at free
  · refine ⟨Iff.rfl, Iff.rfl, id, fun address stored own' => ⟨?_, own'.2⟩,
      fun _ => ⟨rfl, rfl, fun _ => by simp⟩, fun held' => ?_⟩
    · have different : address ≠ p := by
        rintro rfl
        exact own.unowned foreign _ own'
      simpa [different] using own'.1
    · exact absurd (Option.some.inj (held'.symm.trans held)) foreign

/-! ## Steps at the head -/

/-- Taking the head node out of the list removes the first value and gives the node to the
thread. -/
theorem Shape.preserved_of_clearHead [DecidableEq Tid] (shape : Shape layout queue)
    {kind : PopKind} {front : Address} {value : Value} {next : Option Address}
    (held : queue.headMutex = some thread)
    (assertion : Assertion layout thread queue (.clearHead kind (some front)))
    (stored : queue.heap front = some ⟨some value, next⟩) :
    Preserved layout thread queue
      { queue with head := none, removed := queue.removed ++ [value] }
      (.readNext kind (some front)) := by
  obtain ⟨-, same, nonempty⟩ := assertion.headFact
  obtain rfl := Option.some.inj same
  obtain ⟨second, rest, value', later, nodes, values, node, path, restValues⟩ :=
    shape.exists_front nonempty
  obtain ⟨rfl, -⟩ : value = value' ∧ _ := by simpa [node] using stored.symm.trans node
  have nodup := shape.nodup
  have fresh := shape.fresh
  rw [nodes, List.nodup_cons] at nodup
  rw [nodes] at fresh
  have frontListed := shape.listed layout.front (Or.inl (by simp [nodes]))
  refine ⟨{ front := second, nodes := rest, values := later
            owner := Function.update layout.owner layout.front (some thread) },
    ⟨shape.defined, path, List.not_mem_of_not_mem_cons fresh, nodup.2, restValues, ?_, ?_,
      shape.tailFree, ?_⟩, ⟨assertion.headHeld, assertion.tailHeld,
      fun member => absurd member (assertion.not_blocked nofun), trivial, rfl, ?_⟩,
    fun other foreign => ?_⟩
  · simp [shape.order, values]
  · rintro address member
    have different : address ≠ layout.front := by
      rcases member with member | rfl
      · rintro rfl
        exact nodup.1 member
      · exact fun same : queue.tail = layout.front => fresh (by simp [same])
    have member' : address ∈ layout.nodes ∨ address = queue.tail := by
      rcases member with member | same
      · exact Or.inl (by simp [nodes, member])
      · exact Or.inr same
    simpa [different] using shape.listed address member'
  · intro free
    simp [held] at free
  · exact ⟨layout.front, value, rfl, by simp, node⟩
  · refine ⟨Iff.rfl, Iff.rfl, id, fun address stored own => ⟨?_, own.2⟩, fun held' => ?_,
      fun _ => ⟨rfl, rfl⟩⟩
    · have different : address ≠ layout.front := by
        rintro rfl
        simpa [frontListed.1] using own.1
      simpa [different] using own.1
    · exact absurd (Option.some.inj (held'.symm.trans held)) foreign

theorem Shape.preserved_of_setHead (shape : Shape layout queue) {kind : PopKind}
    {oldHead next : Option Address} (held : queue.headMutex = some thread)
    (assertion : Assertion layout thread queue (.setHead kind oldHead next)) :
    Preserved layout thread queue { queue with head := next } (.popUnlock kind oldHead) := by
  obtain ⟨-, rfl⟩ := assertion.headFact
  refine ⟨layout, ⟨shape.defined, shape.path, shape.fresh, shape.nodup, shape.values, shape.order,
    shape.listed, shape.tailFree, fun _ => rfl⟩, ⟨assertion.headHeld, assertion.tailHeld,
    fun member => absurd member (assertion.not_blocked nofun), trivial, rfl, assertion.ownFact⟩,
    fun other foreign => ?_⟩
  refine ⟨Iff.rfl, Iff.rfl, id, fun _ _ own => own, fun held' => ?_, fun _ => ⟨rfl, rfl⟩⟩
  exact absurd (Option.some.inj (held'.symm.trans held)) foreign

end OptimizedQueue
end ConcurrencyCourse
