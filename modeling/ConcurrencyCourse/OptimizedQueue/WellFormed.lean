import ConcurrencyCourse.OptimizedQueue.Steps

/-!
# The list is well formed and the critical sections are apart

The properties of the list that the two locks are there to keep, stated without the layout.  The
logical head is `head`, or the successor of the unlinked node while a `pop_head` is between
emptying `head` and storing into it.
-/

namespace ConcurrencyCourse
namespace OptimizedQueue

open LinkedPath ThreadSafeQueue

variable {Tid Value : Type*}

/-- In the middle of `pop_head`, the successor of `old_head`. -/
def Pc.successor (queue : Queue Tid Value) : Pc Value → Option (Option Address)
  | .readNext _ oldHead => some (oldHead.bind queue.next)
  | .clearNext _ _ next | .setHead _ _ next => some next
  | _ => none

/-- The head, seen through a `pop_head` that is in mid-step. -/
def logicalHead (config : Config Tid Value) : Option Address :=
  match config.shared.headMutex with
  | none => config.shared.head
  | some holder =>
      ((config.threads holder).successor config.shared).getD config.shared.head

/-- The node that a critical section of `push` writes. -/
def Pc.pushNode (queue : Queue Tid Value) : Pc Value → Option Address
  | .pushReadTail _ _ | .pushReadTailAgain _ _ | .pushTail _ _ | .pushUnwind _ => some queue.tail
  | .pushData _ _ tail | .pushNext _ _ tail => some tail
  | _ => none

/-- The node that a thread has unlinked and not yet freed. -/
def Pc.unlinked : Pc Value → Option Address
  | .readNext _ oldHead | .clearNext _ oldHead _ | .setHead _ oldHead _ | .popUnlock _ oldHead
  | .takeData _ oldHead | .freeNode oldHead _ => oldHead
  | _ => none

/-- The node that a thread works on once it has seen `head != get_tail()`. -/
def Pc.popNode (queue : Queue Tid Value) : Pc Value → Option Address
  | .takeHead _ => queue.head
  | .clearHead _ oldHead => oldHead
  | pc => pc.unlinked

/-- What the two locks keep. -/
structure WellFormed (config : Config Tid Value) : Prop where
  /-- The list leads from the logical head through nodes with values to `tail`. -/
  linked : ∃ first nodes, logicalHead config = some first ∧
    Path config.shared.next first nodes config.shared.tail ∧ nodes.Nodup ∧
    config.shared.tail ∉ nodes ∧ ∀ node ∈ nodes, (config.shared.data node).isSome
  /-- Outside the critical sections of `tail_mutex` the tail node is empty. -/
  tailEmpty : config.shared.tailMutex = none →
    config.shared.heap config.shared.tail = some ⟨none, none⟩
  /-- `tail` points to a live node that is not unlinked. -/
  tailAlive : (config.shared.heap config.shared.tail).isSome ∧
    ∀ thread, (config.threads thread).unlinked ≠ some config.shared.tail
  /-- A removal never touches the node that a push is writing. -/
  apart : ∀ popper pusher node, (config.threads popper).popNode config.shared = some node →
    (config.threads pusher).pushNode config.shared ≠ some node
  /-- `pop_head` stores no null pointer into `head`. -/
  headStored : ∀ thread kind oldHead next,
    config.threads thread = .setHead kind oldHead next → next ≠ none
  /-- No null pointer and no destroyed node has been accessed. -/
  defined : config.shared.undefined = false

variable {layout : Layout Tid Value} {thread : Tid} {queue : Queue Tid Value} {pc : Pc Value}

theorem Assertion.pushNode_eq (assertion : Assertion layout thread queue pc) {node : Address}
    (writes : pc.pushNode queue = some node) : node = queue.tail := by
  have fact := assertion.tailFact
  cases pc with
  | pushData | pushNext =>
      obtain rfl := Option.some.inj writes
      exact fact.1
  | pushReadTail | pushReadTailAgain | pushTail | pushUnwind =>
      exact (Option.some.inj writes).symm
  | _ => simp [Pc.pushNode] at writes

/-- An unlinked node belongs to its thread. -/
theorem Assertion.exists_owned_of_unlinked (assertion : Assertion layout thread queue pc)
    {address : Address} (unlinked : pc.unlinked = some address) :
    ∃ node, Owned layout thread queue address node := by
  have fact := assertion.ownFact
  cases pc with
  | readNext | clearNext | setHead | popUnlock =>
      obtain ⟨address', value, rfl, own⟩ := fact
      obtain rfl := Option.some.inj unlinked
      exact ⟨_, own⟩
  | takeData =>
      rcases fact with ⟨-, rfl⟩ | ⟨address', value, rfl, own⟩
      · simp [Pc.unlinked] at unlinked
      · obtain rfl := Option.some.inj unlinked
        exact ⟨_, own⟩
  | freeNode =>
      rcases fact with rfl | ⟨address', value, rfl, own⟩
      · simp [Pc.unlinked] at unlinked
      · obtain rfl := Option.some.inj unlinked
        exact ⟨_, own⟩
  | _ => simp [Pc.unlinked] at unlinked

theorem Shape.front_ne_tail (shape : Shape layout queue) (nonempty : layout.nodes ≠ []) :
    layout.front ≠ queue.tail := by
  obtain ⟨second, rest, nodes, -, -⟩ := shape.path.exists_cons nonempty
  intro same
  apply shape.fresh
  rw [nodes, ← same]
  exact List.mem_cons_self

theorem Assertion.popNode_ne (assertion : Assertion layout thread queue pc)
    (shape : Shape layout queue) {node : Address} (works : pc.popNode queue = some node) :
    node ≠ queue.tail := by
  have fact := assertion.headFact
  cases pc with
  | takeHead kind =>
      obtain rfl := Option.some.inj (works.symm.trans fact.1)
      exact shape.front_ne_tail fact.2
  | clearHead kind oldHead =>
      obtain rfl := Option.some.inj (works.symm.trans fact.2.1)
      exact shape.front_ne_tail fact.2.2
  | _ =>
      obtain ⟨stored, own⟩ := assertion.exists_owned_of_unlinked works
      exact (shape.outside_of_owned own).2

/-- While `head_mutex` is held, either `head` is the front of the list or its holder keeps the
front as the successor of the unlinked node. -/
theorem Assertion.front_of_holdsHead (assertion : Assertion layout thread queue pc)
    (holds : pc.holdsHead = true) :
    (pc.successor queue).getD queue.head = some layout.front := by
  have fact := assertion.headFact
  have own := assertion.ownFact
  cases pc with
  | popReadHead | emptyUnlock | waitBlock | popUnlock => exact fact
  | getTailLock | getTailRead | getTailUnlock | popCompare | takeHead | clearHead => exact fact.1
  | clearNext | setHead => exact fact.2
  | readNext =>
      obtain ⟨address, value, rfl, own⟩ := own
      simp [Pc.successor, Queue.next, own.2]
  | _ => simp [Pc.holdsHead] at holds

theorem logicalHead_eq {config : Config Tid Value} (shape : Shape layout config.shared)
    (asserted : ∀ thread, Assertion layout thread config.shared (config.threads thread)) :
    logicalHead config = some layout.front := by
  unfold logicalHead
  cases held : config.shared.headMutex with
  | none => exact shape.headFree held
  | some holder =>
      exact (asserted holder).front_of_holdsHead ((asserted holder).headHeld.mp held)

theorem Shape.data_isSome (shape : Shape layout queue) {node : Address}
    (member : node ∈ layout.nodes) : (queue.data node).isSome := by
  have stored : queue.data node ∈ layout.values.map some := by
    rw [← shape.values]
    exact List.mem_map_of_mem member
  obtain ⟨value, -, same⟩ := List.mem_map.mp stored
  rw [← same]
  rfl

/-- The list is well formed in every reachable state. -/
theorem wellFormed_of_reachable [DecidableEq Tid] {config : Config Tid Value}
    (reach : program.system.Reachable config) : WellFormed config := by
  obtain ⟨layout, shape, asserted⟩ := exists_layout reach
  constructor
  · exact ⟨layout.front, layout.nodes, logicalHead_eq shape asserted, shape.path, shape.nodup,
      shape.fresh, fun node => shape.data_isSome⟩
  · exact shape.tailFree
  · refine ⟨(shape.listed _ (Or.inr rfl)).2, fun thread unlinked => ?_⟩
    obtain ⟨node, own⟩ := (asserted thread).exists_owned_of_unlinked unlinked
    exact (shape.outside_of_owned own).2 rfl
  · intro popper pusher node works writes
    exact (asserted popper).popNode_ne shape works ((asserted pusher).pushNode_eq writes)
  · intro thread kind oldHead next position
    have fact := (asserted thread).headFact
    rw [position] at fact
    rw [fact.2]
    exact Option.some_ne_none _
  · exact shape.defined

/-- One thread is between emptying `head` and reading the successor while another one is about to
write to the tail node. -/
theorem wellFormed_of_reachable_overlapping :
    ∃ config : Config (Fin 2) Nat,
      (config.threads 0 = .readNext .tryPop (some 0) ∧ config.threads 1 = .pushData 6 2 1) ∧
        WellFormed config := by
  have overlapping : ∃ config : Config (Fin 2) Nat,
      (program.system.restrict fun _ _ _ => True).Run initial
        ([(1, .call (.push 5)), (1, .allocate 1)] ++ List.replicate 7 (1, .run) ++
          [(1, .notifyOne none), (1, .run), (0, .call .tryPop)] ++ List.replicate 8 (0, .run) ++
          [(1, .call (.push 6)), (1, .allocate 2), (1, .run), (1, .run)]) config ∧
        config.threads 0 = .readNext .tryPop (some 0) ∧ config.threads 1 = .pushData 6 2 1 :=
    Program.exists_run_of_execute (by decide)
  obtain ⟨config, run, positions⟩ := overlapping
  exact ⟨config, positions,
    wellFormed_of_reachable (run.reachable initial_reachable).of_restrict⟩

end OptimizedQueue
end ConcurrencyCourse
