import ConcurrencyCourse.Library.Interleaving
import ConcurrencyCourse.ThreadSafeQueue

/-!
# The queue with two locks

`optimized_thread_safe_queue` keeps its values in a singly linked list that ends in a node without
a value.  `push` works at `tail` under `tail_mutex`; `try_pop()` and `wait_and_pop()` work at
`head` under `head_mutex` and read `tail` through `get_tail`.  Every lock and unlock, every read or
write of `head`, `tail`, `data` and `next`, the release-and-block of `data_cond.wait` and
`notify_one` are separate steps.  Allocation returns any free address, so addresses are reused.
An allocation or a move of a value may throw, leaving its source and target unchanged.
-/

namespace ConcurrencyCourse
namespace OptimizedQueue

open ThreadSafeQueue

/-- Address of a node. -/
abbrev Address := Nat

/-- A node of the list. -/
structure Node (Value : Type*) where
  /-- `std::optional<T> data`. -/
  data : Option Value
  /-- `std::unique_ptr<node> next`. -/
  next : Option Address
  deriving DecidableEq

/-- A node as `new node` builds it. -/
def Node.empty {Value : Type*} : Node Value := ⟨none, none⟩

/-- The two removing calls. -/
inductive PopKind
  | tryPop
  | waitAndPop
  deriving DecidableEq

/-- Members of the queue, the heap of nodes, and history variables. -/
structure Queue (Tid Value : Type*) where
  headMutex : Option Tid
  head : Option Address
  tailMutex : Option Tid
  tail : Address
  /-- Threads blocked in `data_cond.wait` and not notified. -/
  dataCond : Finset Tid
  /-- The live nodes. -/
  heap : Address → Option (Node Value)
  /-- A null pointer or a destroyed node has been accessed. -/
  undefined : Bool
  /-- History variable: values pushed, in the order their pushes moved `tail`. -/
  pushed : List Value
  /-- History variable: values removed, in the order of their `pop_head` steps. -/
  removed : List Value
  /-- History variable: calls and returns. -/
  history : List (AtomicObject.Event Tid (Call Value) (Result Value))

/-- Position of a thread, with the values of its local variables. -/
inductive Pc (Value : Type*)
  | idle
  -- push
  | pushAllocate (value : Value)
  | pushLock (value : Value) (p : Address)
  | pushReadTail (value : Value) (p : Address)
  | pushData (value : Value) (p tail : Address)
  | pushReadTailAgain (value : Value) (p : Address)
  | pushNext (value : Value) (p tail : Address)
  | pushTail (value : Value) (p : Address)
  | pushUnlock
  | pushNotify
  | pushUnwind (p : Address)
  | pushDiscard (p : Address)
  -- the comparison of head with get_tail()
  | popLock (kind : PopKind)
  | popReadHead (kind : PopKind)
  | getTailLock (kind : PopKind) (head : Option Address)
  | getTailRead (kind : PopKind) (head : Option Address)
  | getTailUnlock (kind : PopKind) (head : Option Address) (tail : Address)
  | popCompare (kind : PopKind) (head : Option Address) (tail : Address)
  | emptyUnlock
  | waitBlock
  | waiting
  -- pop_head
  | takeHead (kind : PopKind)
  | clearHead (kind : PopKind) (oldHead : Option Address)
  | readNext (kind : PopKind) (oldHead : Option Address)
  | clearNext (kind : PopKind) (oldHead next : Option Address)
  | setHead (kind : PopKind) (oldHead next : Option Address)
  | popUnlock (kind : PopKind) (oldHead : Option Address)
  -- after both mutexes are released
  | takeData (kind : PopKind) (oldHead : Option Address)
  | freeNode (oldHead : Option Address) (result : Result Value)
  | returning (result : Result Value)
  deriving DecidableEq

/-- Actions of a thread.  `notifyOne` names the waiter that is woken, if there is one. -/
inductive Action (Tid Value : Type*)
  | call (call : Call Value)
  | run
  | allocate (address : Address)
  | notifyOne (waiter : Option Tid)
  | wakeSpuriously
  | throw
  deriving DecidableEq

section Steps

variable {Tid Value : Type*}

namespace Queue

/-- The node behind a pointer, if the pointer is not null and the node is alive. -/
def deref (queue : Queue Tid Value) (pointer : Option Address) : Option (Address × Node Value) :=
  pointer.bind fun address => (queue.heap address).map fun node => (address, node)

/-- Replace the node at an address. -/
def store (queue : Queue Tid Value) (address : Address) (node : Option (Node Value)) :
    Queue Tid Value :=
  { queue with heap := Function.update queue.heap address node }

/-- Record an access through a null or dangling pointer. -/
def fault (queue : Queue Tid Value) : Queue Tid Value := { queue with undefined := true }

end Queue

/-- First position of a call. -/
def entry : Call Value → Pc Value
  | .push value => .pushAllocate value
  | .tryPop => .popLock .tryPop
  | .waitAndPop => .popLock .waitAndPop

/-- Steps of `push`. -/
def pushStep (thread : Tid) (queue : Queue Tid Value) (pc : Pc Value) :
    Option (Queue Tid Value × Pc Value) :=
  match pc with
  | .pushLock value p =>
      match queue.tailMutex with
      | none => some ({ queue with tailMutex := some thread }, .pushReadTail value p)
      | some _ => none
  | .pushReadTail value p => some (queue, .pushData value p queue.tail)
  | .pushData value p tail =>
      match queue.deref (some tail) with
      | some (address, node) =>
          some (queue.store address (some { node with data := some value }),
            .pushReadTailAgain value p)
      | none => some (queue.fault, pc)
  | .pushReadTailAgain value p => some (queue, .pushNext value p queue.tail)
  | .pushNext value p tail =>
      match queue.deref (some tail) with
      | some (address, node) =>
          some (queue.store address (some { node with next := some p }), .pushTail value p)
      | none => some (queue.fault, pc)
  | .pushTail value p =>
      some ({ queue with tail := p, pushed := queue.pushed ++ [value] }, .pushUnlock)
  | .pushUnlock => some ({ queue with tailMutex := none }, .pushNotify)
  | .pushUnwind p => some ({ queue with tailMutex := none }, .pushDiscard p)
  | .pushDiscard p => some (queue.store p none, .returning .threw)
  | _ => none

/-- Steps of `try_pop_head` and `wait_for_data` up to the decision. -/
def compareStep (thread : Tid) (queue : Queue Tid Value) (pc : Pc Value) :
    Option (Queue Tid Value × Pc Value) :=
  match pc with
  | .popLock kind =>
      match queue.headMutex with
      | none => some ({ queue with headMutex := some thread }, .popReadHead kind)
      | some _ => none
  | .popReadHead kind => some (queue, .getTailLock kind queue.head)
  | .getTailLock kind head =>
      match queue.tailMutex with
      | none => some ({ queue with tailMutex := some thread }, .getTailRead kind head)
      | some _ => none
  | .getTailRead kind head => some (queue, .getTailUnlock kind head queue.tail)
  | .getTailUnlock kind head tail =>
      some ({ queue with tailMutex := none }, .popCompare kind head tail)
  | .popCompare kind head tail =>
      if head = some tail then
        match kind with
        | .tryPop => some (queue, .emptyUnlock)
        | .waitAndPop => some (queue, .waitBlock)
      else some (queue, .takeHead kind)
  | .emptyUnlock => some ({ queue with headMutex := none }, .takeData .tryPop none)
  | _ => none

/-- Steps of `pop_head` and of the rest of the call. -/
def popStep (queue : Queue Tid Value) (pc : Pc Value) : Option (Queue Tid Value × Pc Value) :=
  match pc with
  | .takeHead kind => some (queue, .clearHead kind queue.head)
  | .clearHead kind oldHead =>
      some ({ queue with
          head := none
          removed := queue.removed ++ ((queue.deref oldHead).bind (·.2.data)).toList },
        .readNext kind oldHead)
  | .readNext kind oldHead =>
      match queue.deref oldHead with
      | some (_, node) => some (queue, .clearNext kind oldHead node.next)
      | none => some (queue.fault, pc)
  | .clearNext kind oldHead next =>
      match queue.deref oldHead with
      | some (address, node) =>
          some (queue.store address (some { node with next := none }), .setHead kind oldHead next)
      | none => some (queue.fault, pc)
  | .setHead kind oldHead next => some ({ queue with head := next }, .popUnlock kind oldHead)
  | .popUnlock kind oldHead => some ({ queue with headMutex := none }, .takeData kind oldHead)
  | .takeData .tryPop none => some (queue, .returning (.popped none))
  | .takeData _ oldHead =>
      match queue.deref oldHead with
      | some (_, node) => some (queue, .freeNode oldHead (.popped node.data))
      | none => some (queue.fault, pc)
  | .freeNode none result => some (queue, .returning result)
  | .freeNode (some address) result =>
      -- destroying a node destroys the node its `next` owns
      match queue.heap address with
      | some node => some (queue.store address none, .freeNode node.next result)
      | none => some (queue.fault, pc)
  | _ => none

/-- A throwing allocation or move; `none` where nothing can throw. -/
def throwStep (pc : Pc Value) : Option (Pc Value) :=
  match pc with
  | .pushAllocate _ => some (.returning .threw)
  | .pushData _ p _ => some (.pushUnwind p)
  | .takeData _ (some oldHead) => some (.freeNode (some oldHead) .threw)
  | _ => none

variable [DecidableEq Tid]

/-- One step of a thread. -/
def threadStep (thread : Tid) (action : Action Tid Value) (queue : Queue Tid Value)
    (pc : Pc Value) : Option (Queue Tid Value × Pc Value) :=
  match action, pc with
  | .call call, .idle =>
      some ({ queue with history := queue.history ++ [.call thread call] }, entry call)
  | .allocate address, .pushAllocate value =>
      match queue.heap address with
      | none => some (queue.store address (some .empty), .pushLock value address)
      | some _ => none
  | .notifyOne none, .pushNotify =>
      if queue.dataCond = ∅ then some (queue, .returning .pushed) else none
  | .notifyOne (some waiter), .pushNotify =>
      if waiter ∈ queue.dataCond then
        some ({ queue with dataCond := queue.dataCond.erase waiter }, .returning .pushed)
      else none
  | .run, .waitBlock =>
      some ({ queue with headMutex := none, dataCond := insert thread queue.dataCond }, .waiting)
  | .wakeSpuriously, .waiting =>
      if thread ∈ queue.dataCond then
        some ({ queue with dataCond := queue.dataCond.erase thread }, .waiting)
      else none
  | .run, .waiting =>
      if thread ∈ queue.dataCond then none else
        match queue.headMutex with
        | none => some ({ queue with headMutex := some thread }, .popReadHead .waitAndPop)
        | some _ => none
  | .run, .returning result =>
      some ({ queue with history := queue.history ++ [.ret thread result] }, .idle)
  | .throw, _ => (throwStep pc).map fun pc => (queue, pc)
  | .run, _ => (pushStep thread queue pc).or ((compareStep thread queue pc).or (popStep queue pc))
  | _, _ => none

/-- States of the queue together with the threads that use it. -/
abbrev Config (Tid Value : Type*) := Program.Config Tid (Queue Tid Value) (Pc Value)

/-- A new queue: one node without a value, at address 0. -/
def initial : Config Tid Value where
  shared :=
    { headMutex := none, head := some 0, tailMutex := none, tail := 0, dataCond := ∅
      heap := Function.update (fun _ => none) 0 (some .empty)
      undefined := false, pushed := [], removed := [], history := [] }
  threads _ := .idle

/-- Any number of threads that use one queue. -/
def program : Program Tid (Action Tid Value) (Queue Tid Value) (Pc Value) where
  Initial queue threads := queue = initial.shared ∧ threads = initial.threads
  step := threadStep

theorem initial_reachable
    {allowed : Config Tid Value → Tid × Action Tid Value → Config Tid Value → Prop} :
    (program.system.restrict allowed).Reachable (initial : Config Tid Value) :=
  .initial ⟨rfl, rfl⟩

end Steps

end OptimizedQueue
end ConcurrencyCourse
