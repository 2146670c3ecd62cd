import ConcurrencyCourse.OptimizedQueue.Model
import ConcurrencyCourse.Library.LinkedPath
import Mathlib.Data.List.Basic

/-!
# The shape of the list under both locks

The stored nodes form a path from the logical head to `tail`.  A node outside that path belongs to
the one thread that allocated or unlinked it.  What a thread knows splits into three parts: facts
about the tail node, which only the holder of `tail_mutex` may change; facts about the head, which
only the holder of `head_mutex` may change; and facts about the thread's own nodes.
-/

namespace ConcurrencyCourse
namespace OptimizedQueue

open LinkedPath ThreadSafeQueue

variable {Tid Value : Type*}

/-- The `next` pointer of the node at an address. -/
def Queue.next (queue : Queue Tid Value) (address : Address) : Option Address :=
  (queue.heap address).bind Node.next

/-- The value of the node at an address. -/
def Queue.data (queue : Queue Tid Value) (address : Address) : Option Value :=
  (queue.heap address).bind Node.data

/-- Positions at which `head_mutex` is held. -/
def Pc.holdsHead : Pc Value → Bool
  | .popReadHead _ | .getTailLock _ _ | .getTailRead _ _ | .getTailUnlock _ _ _
  | .popCompare _ _ _ | .emptyUnlock | .waitBlock | .takeHead _ | .clearHead _ _ | .readNext _ _
  | .clearNext _ _ _ | .setHead _ _ _ | .popUnlock _ _ => true
  | _ => false

/-- Positions at which `tail_mutex` is held. -/
def Pc.holdsTail : Pc Value → Bool
  | .pushReadTail _ _ | .pushData _ _ _ | .pushReadTailAgain _ _ | .pushNext _ _ _
  | .pushTail _ _ | .pushUnlock | .pushUnwind _ | .getTailRead _ _ | .getTailUnlock _ _ _ => true
  | _ => false

/-- Where the stored nodes are, what they hold, and who owns every other node. -/
structure Layout (Tid Value : Type*) where
  front : Address
  nodes : List Address
  values : List Value
  owner : Address → Option Tid

/-- The list as a whole. -/
structure Shape (layout : Layout Tid Value) (queue : Queue Tid Value) : Prop where
  defined : queue.undefined = false
  path : Path queue.next layout.front layout.nodes queue.tail
  fresh : queue.tail ∉ layout.nodes
  nodup : layout.nodes.Nodup
  values : layout.nodes.map queue.data = layout.values.map some
  order : queue.pushed = queue.removed ++ layout.values
  listed : ∀ address, address ∈ layout.nodes ∨ address = queue.tail →
    layout.owner address = none ∧ (queue.heap address).isSome
  tailFree : queue.tailMutex = none → queue.heap queue.tail = some .empty
  headFree : queue.headMutex = none → queue.head = some layout.front

/-- A node that belongs to one thread. -/
def Owned (layout : Layout Tid Value) (thread : Tid) (queue : Queue Tid Value)
    (address : Address) (node : Node Value) : Prop :=
  layout.owner address = some thread ∧ queue.heap address = some node

/-- What the holder of `tail_mutex` knows of the tail node. -/
def TailFact (queue : Queue Tid Value) : Pc Value → Prop
  | .pushReadTail _ _ | .pushUnlock | .pushUnwind _ | .getTailRead _ _ | .getTailUnlock _ _ _ =>
      queue.heap queue.tail = some .empty
  | .pushData _ _ tail => tail = queue.tail ∧ queue.heap queue.tail = some .empty
  | .pushReadTailAgain value _ => queue.heap queue.tail = some ⟨some value, none⟩
  | .pushNext value _ tail =>
      tail = queue.tail ∧ queue.heap queue.tail = some ⟨some value, none⟩
  | .pushTail value p => queue.heap queue.tail = some ⟨some value, some p⟩
  | _ => True

/-- What the holder of `head_mutex` knows of the head.  A tail read earlier may be stale, but if
it differed from the head then the list was not empty, and only the holder can empty it. -/
def HeadFact (layout : Layout Tid Value) (queue : Queue Tid Value) : Pc Value → Prop
  | .popReadHead _ | .emptyUnlock | .waitBlock | .popUnlock _ _ => queue.head = some layout.front
  | .getTailLock _ head | .getTailRead _ head =>
      queue.head = some layout.front ∧ head = some layout.front
  | .getTailUnlock _ head tail | .popCompare _ head tail =>
      queue.head = some layout.front ∧ head = some layout.front ∧
        (tail ≠ layout.front → layout.nodes ≠ [])
  | .takeHead _ => queue.head = some layout.front ∧ layout.nodes ≠ []
  | .clearHead _ oldHead =>
      queue.head = some layout.front ∧ oldHead = some layout.front ∧ layout.nodes ≠ []
  | .readNext _ _ => queue.head = none
  | .clearNext _ _ next | .setHead _ _ next => queue.head = none ∧ next = some layout.front
  | _ => True

/-- What a thread knows of the node that it has allocated or unlinked. -/
def OwnFact (layout : Layout Tid Value) (thread : Tid) (queue : Queue Tid Value) :
    Pc Value → Prop
  | .pushLock _ p | .pushReadTail _ p | .pushData _ p _ | .pushReadTailAgain _ p
  | .pushNext _ p _ | .pushTail _ p | .pushUnwind p | .pushDiscard p =>
      Owned layout thread queue p .empty
  | .readNext _ oldHead | .clearNext _ oldHead _ => ∃ address value, oldHead = some address ∧
      Owned layout thread queue address ⟨some value, some layout.front⟩
  | .setHead _ oldHead _ | .popUnlock _ oldHead => ∃ address value, oldHead = some address ∧
      Owned layout thread queue address ⟨some value, none⟩
  | .takeData kind oldHead => (kind = .tryPop ∧ oldHead = none) ∨
      ∃ address value, oldHead = some address ∧
        Owned layout thread queue address ⟨some value, none⟩
  | .freeNode oldHead _ => oldHead = none ∨ ∃ address value, oldHead = some address ∧
      Owned layout thread queue address ⟨some value, none⟩
  | _ => True

/-- The assertion of one thread. -/
structure Assertion (layout : Layout Tid Value) (thread : Tid) (queue : Queue Tid Value)
    (pc : Pc Value) : Prop where
  headHeld : queue.headMutex = some thread ↔ pc.holdsHead = true
  tailHeld : queue.tailMutex = some thread ↔ pc.holdsTail = true
  blocked : thread ∈ queue.dataCond → pc = .waiting
  tailFact : TailFact queue pc
  headFact : HeadFact layout queue pc
  ownFact : OwnFact layout thread queue pc

/-! ## Interference -/

/-- What a step of another thread leaves in place for `other`. -/
structure Rely (other : Tid) (layout : Layout Tid Value) (queue : Queue Tid Value)
    (layout' : Layout Tid Value) (queue' : Queue Tid Value) : Prop where
  headMutex : queue'.headMutex = some other ↔ queue.headMutex = some other
  tailMutex : queue'.tailMutex = some other ↔ queue.tailMutex = some other
  dataCond : other ∈ queue'.dataCond → other ∈ queue.dataCond
  owned : ∀ address node, Owned layout other queue address node →
    Owned layout' other queue' address node
  headSide : queue.headMutex = some other → queue'.head = queue.head ∧
    layout'.front = layout.front ∧ (layout.nodes ≠ [] → layout'.nodes ≠ [])
  tailSide : queue.tailMutex = some other → queue'.tail = queue.tail ∧
    queue'.heap queue.tail = queue.heap queue.tail

theorem TailFact.of_not_holds {queue : Queue Tid Value} {pc : Pc Value}
    (free : pc.holdsTail = false) : TailFact queue pc := by
  cases pc <;> simp_all [Pc.holdsTail, TailFact]

theorem HeadFact.of_not_holds {layout : Layout Tid Value} {queue : Queue Tid Value}
    {pc : Pc Value} (free : pc.holdsHead = false) : HeadFact layout queue pc := by
  cases pc <;> simp_all [Pc.holdsHead, HeadFact]

theorem TailFact.congr {queue queue' : Queue Tid Value} {pc : Pc Value}
    (fact : TailFact queue pc) (tail : queue'.tail = queue.tail)
    (heap : queue'.heap queue.tail = queue.heap queue.tail) : TailFact queue' pc := by
  cases pc with
  | pushReadTail | pushData | pushReadTailAgain | pushNext | pushTail | pushUnlock | pushUnwind
  | getTailRead | getTailUnlock => simpa only [TailFact, tail, heap] using fact
  | _ => trivial

theorem HeadFact.mono {layout layout' : Layout Tid Value} {queue queue' : Queue Tid Value}
    {pc : Pc Value} (fact : HeadFact layout queue pc) (head : queue'.head = queue.head)
    (front : layout'.front = layout.front) (nodes : layout.nodes ≠ [] → layout'.nodes ≠ []) :
    HeadFact layout' queue' pc := by
  cases pc with
  | getTailUnlock | popCompare =>
      simp only [HeadFact, head, front] at fact ⊢
      exact ⟨fact.1, fact.2.1, fun stale => nodes (fact.2.2 stale)⟩
  | takeHead =>
      simp only [HeadFact, head, front] at fact ⊢
      exact ⟨fact.1, nodes fact.2⟩
  | clearHead =>
      simp only [HeadFact, head, front] at fact ⊢
      exact ⟨fact.1, fact.2.1, nodes fact.2.2⟩
  | popReadHead | emptyUnlock | waitBlock | popUnlock | getTailLock | getTailRead | readNext
  | clearNext | setHead => simpa only [HeadFact, head, front] using fact
  | _ => trivial

theorem OwnFact.mono {layout layout' : Layout Tid Value} {thread : Tid}
    {queue queue' : Queue Tid Value} {pc : Pc Value} (fact : OwnFact layout thread queue pc)
    (owned : ∀ address node, Owned layout thread queue address node →
      Owned layout' thread queue' address node)
    (front : pc.holdsHead = true → layout'.front = layout.front) :
    OwnFact layout' thread queue' pc := by
  cases pc with
  | pushLock | pushReadTail | pushData | pushReadTailAgain | pushNext | pushTail | pushUnwind
  | pushDiscard => exact owned _ _ fact
  | readNext | clearNext =>
      obtain ⟨address, value, rfl, own⟩ := fact
      refine ⟨address, value, rfl, ?_⟩
      rw [front rfl]
      exact owned _ _ own
  | setHead | popUnlock =>
      obtain ⟨address, value, rfl, own⟩ := fact
      exact ⟨address, value, rfl, owned _ _ own⟩
  | takeData =>
      rcases fact with empty | ⟨address, value, rfl, own⟩
      · exact Or.inl empty
      · exact Or.inr ⟨address, value, rfl, owned _ _ own⟩
  | freeNode =>
      rcases fact with empty | ⟨address, value, rfl, own⟩
      · exact Or.inl empty
      · exact Or.inr ⟨address, value, rfl, owned _ _ own⟩
  | _ => trivial

/-- An assertion survives every step of another thread. -/
theorem Assertion.of_rely {layout layout' : Layout Tid Value} {other : Tid}
    {queue queue' : Queue Tid Value} {pc : Pc Value}
    (assertion : Assertion layout other queue pc)
    (rely : Rely other layout queue layout' queue') : Assertion layout' other queue' pc := by
  refine ⟨rely.headMutex.trans assertion.headHeld, rely.tailMutex.trans assertion.tailHeld,
    fun member => assertion.blocked (rely.dataCond member), ?_, ?_, ?_⟩
  · cases holds : pc.holdsTail with
    | false => exact .of_not_holds holds
    | true =>
        obtain ⟨tail, heap⟩ := rely.tailSide (assertion.tailHeld.mpr holds)
        exact assertion.tailFact.congr tail heap
  · cases holds : pc.holdsHead with
    | false => exact .of_not_holds holds
    | true =>
        obtain ⟨head, front, nodes⟩ := rely.headSide (assertion.headHeld.mpr holds)
        exact assertion.headFact.mono head front nodes
  · exact assertion.ownFact.mono rely.owned fun holds =>
      (rely.headSide (assertion.headHeld.mpr holds)).2.1

end OptimizedQueue
end ConcurrencyCourse
