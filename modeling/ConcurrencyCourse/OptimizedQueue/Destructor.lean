import ConcurrencyCourse.OptimizedQueue.Steps

/-!
# The destructor

`~optimized_thread_safe_queue` collects the addresses of the nodes from `head` on and then resets
their `next` pointers from the last node to the first; the destruction of the member `head` follows.
Resetting or destroying a pointer destroys the node that it owns, whose destructor destroys its own
`next` in turn.  The destructors of nodes that are running stand in a stack.
-/

namespace ConcurrencyCourse
namespace OptimizedQueue

open LinkedPath

variable {Tid Value : Type*}

/-- Position in the destructor of the queue. -/
inductive DestructorPc
  /-- The first loop, with `nodes` and `current_node`. -/
  | collect (nodes : List Address) (current : Option Address)
  /-- The second loop, with the nodes from `it` to `nodes.rend()`. -/
  | reset (rest : List Address)
  | destroyMembers
  | ended
  deriving DecidableEq

/-- A running destructor of a node: about to destroy `next`, or about to free the node. -/
inductive NodeDestructor
  | enter (node : Address)
  | free (node : Address)
  deriving DecidableEq

/-- The queue while it is being destroyed. -/
structure Destruction (Tid Value : Type*) where
  queue : Queue Tid Value
  pc : DestructorPc
  /-- The running destructors of nodes, the innermost first. -/
  running : List NodeDestructor
  /-- History variable: the nodes whose destructor has begun, with their `next` at that moment. -/
  destroyed : List (Address × Option Address)

namespace Destruction

/-- One step of the innermost destructor of a node. -/
def nodeStep (destruction : Destruction Tid Value) (frame : NodeDestructor)
    (outer : List NodeDestructor) : Destruction Tid Value :=
  match frame with
  | .enter node =>
      match destruction.queue.deref (some node) with
      | some (address, stored) =>
          { destruction with
            running := (stored.next.map .enter).toList ++ .free address :: outer
            destroyed := destruction.destroyed ++ [(address, stored.next)] }
      | none => { destruction with queue := destruction.queue.fault }
  | .free node =>
      match destruction.queue.deref (some node) with
      | some (address, _) =>
          { destruction with queue := destruction.queue.store address none, running := outer }
      | none => { destruction with queue := destruction.queue.fault }

/-- One step of the destructor of the queue. -/
def queueStep (destruction : Destruction Tid Value) : Option (Destruction Tid Value) :=
  match destruction.pc with
  | .collect nodes none => some { destruction with pc := .reset nodes.reverse }
  | .collect nodes (some current) =>
      match destruction.queue.deref (some current) with
      | some (address, stored) =>
          some { destruction with pc := .collect (nodes ++ [address]) stored.next }
      | none => some { destruction with queue := destruction.queue.fault }
  | .reset [] => some { destruction with pc := .destroyMembers }
  | .reset (it :: rest) =>
      match destruction.queue.deref (some it) with
      | some (address, stored) =>
          some { destruction with
            queue := destruction.queue.store address (some { stored with next := none })
            pc := .reset rest
            running := (stored.next.map .enter).toList }
      | none => some { destruction with queue := destruction.queue.fault }
  | .destroyMembers =>
      some { destruction with
        queue := { destruction.queue with head := none }
        pc := .ended
        running := (destruction.queue.head.map .enter).toList }
  | .ended => none

/-- One step. -/
def next (destruction : Destruction Tid Value) : Option (Destruction Tid Value) :=
  match destruction.running with
  | [] => destruction.queueStep
  | frame :: outer => some (destruction.nodeStep frame outer)

/-- The begin of the destructor of a queue. -/
def start (queue : Queue Tid Value) : Destruction Tid Value :=
  ⟨queue, .collect [] queue.head, [], []⟩

end Destruction

/-- The destructor of a queue. -/
def destructor (queue : Queue Tid Value) : TransitionSystem (Destruction Tid Value) Unit where
  Initial destruction := destruction = .start queue
  Step before _ after := before.next = some after

variable {original queue : Queue Tid Value} {first last node : Address} {nodes : List Address}
  {destroyed : List (Address × Option Address)} {before after : Destruction Tid Value}
  {trace : List Unit}

theorem Queue.deref_of_heap {stored : Node Value} (alive : queue.heap node = some stored) :
    queue.deref (some node) = some (node, stored) := by
  simp [Queue.deref, alive]

/-! ## The first loop -/

/-- The first loop collects the nodes of the list in order. -/
theorem exists_run_collect (path : Path queue.next first nodes last)
    (alive : queue.heap last = some .empty) (collected : List Address) :
    ∃ trace, (destructor original).Run ⟨queue, .collect collected (some first), [], []⟩ trace
      ⟨queue, .reset (collected ++ nodes ++ [last]).reverse, [], []⟩ := by
  induction nodes generalizing first collected with
  | nil =>
      obtain rfl := path
      have visit : (destructor original).Step ⟨queue, .collect collected (some first), [], []⟩ ()
          ⟨queue, .collect (collected ++ [first]) none, [], []⟩ := by
        simp [destructor, Destruction.next, Destruction.queueStep, Queue.deref_of_heap alive,
          Node.empty]
      have leave : (destructor original).Step ⟨queue, .collect (collected ++ [first]) none, [], []⟩
          () ⟨queue, .reset (collected ++ [first]).reverse, [], []⟩ := rfl
      exact ⟨_, .cons visit (.cons leave (by simpa using .nil))⟩
  | cons node nodes ih =>
      obtain ⟨rfl, second, link, rest⟩ := path
      obtain ⟨stored, alive', link⟩ := Option.bind_eq_some_iff.mp link
      have visit : (destructor original).Step ⟨queue, .collect collected (some first), [], []⟩ ()
          ⟨queue, .collect (collected ++ [first]) (some second), [], []⟩ := by
        simp [destructor, Destruction.next, Destruction.queueStep, Queue.deref_of_heap alive', link]
      obtain ⟨trace, run⟩ := ih rest (collected ++ [first])
      exact ⟨_, .cons visit (by simpa using run)⟩

/-! ## The second loop -/

/-- The heap after a node's `next` has been reset, and the node that it owned destroyed. -/
def Queue.afterReset (queue : Queue Tid Value) (node owned : Address) (stored : Node Value) :
    Queue Tid Value :=
  (queue.store node (some { stored with next := none })).store owned none

/-- One round of the second loop destroys the next node, whose own `next` is already empty. -/
theorem exists_run_round {owned : Address} {stored ownedStored : Node Value}
    (original : Queue Tid Value) (rest : List Address) (destroyed : List (Address × Option Address))
    (alive : queue.heap node = some stored) (link : stored.next = some owned)
    (ownedAlive : queue.heap owned = some ownedStored) (ended : ownedStored.next = none)
    (distinct : owned ≠ node) :
    ∃ trace, (destructor original).Run ⟨queue, .reset (node :: rest), [], destroyed⟩ trace
      ⟨queue.afterReset node owned stored, .reset rest, [], destroyed ++ [(owned, none)]⟩ := by
  have kept : (queue.store node (some { stored with next := none })).heap owned =
      some ownedStored := by
    simpa [Queue.store, distinct] using ownedAlive
  have reset : (destructor original).Step ⟨queue, .reset (node :: rest), [], destroyed⟩ ()
      ⟨queue.store node (some { stored with next := none }), .reset rest, [.enter owned],
        destroyed⟩ := by
    simp [destructor, Destruction.next, Destruction.queueStep, Queue.deref_of_heap alive, link]
  have enter : (destructor original).Step
      ⟨queue.store node (some { stored with next := none }), .reset rest, [.enter owned],
        destroyed⟩ ()
      ⟨queue.store node (some { stored with next := none }), .reset rest, [.free owned],
        destroyed ++ [(owned, none)]⟩ := by
    simp [destructor, Destruction.next, Destruction.nodeStep, Queue.deref_of_heap kept, ended]
  have free : (destructor original).Step
      ⟨queue.store node (some { stored with next := none }), .reset rest, [.free owned],
        destroyed ++ [(owned, none)]⟩ ()
      ⟨queue.afterReset node owned stored, .reset rest, [], destroyed ++ [(owned, none)]⟩ := by
    simp [destructor, Destruction.next, Destruction.nodeStep, Queue.deref_of_heap kept,
      Queue.afterReset]
  exact ⟨_, .cons reset (.cons enter (.cons free .nil))⟩

/-- What the second loop leaves of the nodes: the first one alone, with an empty `next`. -/
structure FirstLeft (queue : Queue Tid Value) (nodes : List Address) (first : Address)
    (after : Queue Tid Value) : Prop where
  first : ∃ stored, after.heap first = some stored ∧ stored.next = none
  freed : ∀ address ∈ nodes.tail, after.heap address = none
  others : ∀ address, address ∉ nodes → after.heap address = queue.heap address
  head : after.head = queue.head
  undefined : after.undefined = queue.undefined

theorem FirstLeft.of_afterReset {stored : Node Value} {after : Queue Tid Value}
    (left : FirstLeft (queue.afterReset node last stored) (nodes ++ [node]) first after)
    (fresh : last ∉ nodes ++ [node]) : FirstLeft queue (nodes ++ [node] ++ [last]) first after := by
  have gone : after.heap last = none := by
    rw [left.others last fresh]
    simp [Queue.afterReset, Queue.store]
  refine ⟨left.first, fun address member => ?_, fun address absent => ?_, left.head, left.undefined⟩
  · rw [List.tail_append_of_ne_nil (by simp)] at member
    rcases List.mem_append.mp member with earlier | last
    · exact left.freed address earlier
    · obtain rfl := List.mem_singleton.mp last
      exact gone
  · simp only [List.mem_append, List.mem_singleton, not_or] at absent
    rw [left.others address (by simp [absent])]
    simp [Queue.afterReset, Queue.store, absent]

/-- The second loop destroys every node but the first, from the last node on. -/
theorem exists_run_reset (original : Queue Tid Value)
    (destroyed : List (Address × Option Address)) (path : Path queue.next first nodes last)
    (distinct : (nodes ++ [last]).Nodup)
    (ended : ∃ stored, queue.heap last = some stored ∧ stored.next = none) :
    ∃ trace after, (destructor original).Run ⟨queue, .reset nodes.reverse, [], destroyed⟩ trace
        ⟨after, .reset [], [], destroyed ++ (nodes ++ [last]).tail.reverse.map (·, none)⟩ ∧
      FirstLeft queue (nodes ++ [last]) first after := by
  -- by induction on the nodes from the last one: `last` is the node whose `next` was reset before
  induction nodes using List.reverseRecOn generalizing queue last destroyed with
  | nil =>
      obtain rfl := path
      exact ⟨[], queue, by simpa using .nil, ended, by simp, fun _ _ => rfl, rfl, rfl⟩
  | append_singleton nodes node ih =>
      obtain ⟨path, link⟩ := path.of_snoc
      obtain ⟨stored, alive, link⟩ := Option.bind_eq_some_iff.mp link
      obtain ⟨lastStored, lastAlive, ended⟩ := ended
      obtain ⟨nodesDistinct, -, fresh⟩ := List.nodup_append.mp distinct
      have fresh : last ∉ nodes ++ [node] := fun member => fresh _ member _ (by simp) rfl
      have apart : last ≠ node := fun same => fresh (by simp [same])
      have outside : node ∉ nodes := by
        rw [List.nodup_append] at nodesDistinct
        exact fun member => nodesDistinct.2.2 _ member _ (by simp) rfl
      obtain ⟨begin, round⟩ := exists_run_round original nodes.reverse destroyed alive link
        lastAlive ended apart
      have path' : Path (queue.afterReset node last stored).next first nodes node := by
        refine path.congr fun address member => ?_
        have notNode : address ≠ node := fun same => outside (same ▸ member)
        have notLast : address ≠ last := fun same => fresh (by simp [← same, member])
        simp [Queue.next, Queue.afterReset, Queue.store, notNode, notLast]
      have ended' : ∃ stored', (queue.afterReset node last stored).heap node = some stored' ∧
          stored'.next = none := by
        simp [Queue.afterReset, Queue.store, apart.symm]
      obtain ⟨trace, after, run, left⟩ := ih (destroyed ++ [(last, none)]) path' nodesDistinct
        ended'
      refine ⟨begin ++ trace, after, ?_, left.of_afterReset fresh⟩
      have order : (nodes ++ [node] ++ [last]).tail.reverse =
          last :: (nodes ++ [node]).tail.reverse := by
        rw [List.tail_append_of_ne_nil (by simp)]
        simp
      rw [order]
      simpa using round.append run

/-! ## The whole destructor -/

theorem exists_run_members (original : Queue Tid Value) {stored : Node Value}
    (destroyed : List (Address × Option Address)) (head : queue.head = some node)
    (alive : queue.heap node = some stored) (ended : stored.next = none) :
    ∃ trace, (destructor original).Run ⟨queue, .reset [], [], destroyed⟩ trace
      ⟨{ queue with head := none }.store node none, .ended, [], destroyed ++ [(node, none)]⟩ := by
  have leave : (destructor original).Step ⟨queue, .reset [], [], destroyed⟩ ()
      ⟨queue, .destroyMembers, [], destroyed⟩ := rfl
  have destroy : (destructor original).Step ⟨queue, .destroyMembers, [], destroyed⟩ ()
      ⟨{ queue with head := none }, .ended, [.enter node], destroyed⟩ := by
    simp [destructor, Destruction.next, Destruction.queueStep, head]
  have alive' : { queue with head := none }.heap node = some stored := alive
  have enter : (destructor original).Step
      ⟨{ queue with head := none }, .ended, [.enter node], destroyed⟩ ()
      ⟨{ queue with head := none }, .ended, [.free node], destroyed ++ [(node, none)]⟩ := by
    simp [destructor, Destruction.next, Destruction.nodeStep, Queue.deref_of_heap alive', ended]
  have free : (destructor original).Step
      ⟨{ queue with head := none }, .ended, [.free node], destroyed ++ [(node, none)]⟩ ()
      ⟨{ queue with head := none }.store node none, .ended, [], destroyed ++ [(node, none)]⟩ := by
    simp [destructor, Destruction.next, Destruction.nodeStep, Queue.deref_of_heap alive']
  exact ⟨_, .cons leave (.cons destroy (.cons enter (.cons free .nil)))⟩

theorem path_nodes_eq {link : Address → Option Address} (path : Path link first nodes last) :
    nodes ++ [last] = first :: (nodes ++ [last]).tail := by
  cases nodes with
  | nil =>
      obtain rfl := path
      rfl
  | cons node nodes =>
      obtain ⟨rfl, -⟩ := path
      rfl

/-- The destructor of a queue whose list ends in a node without a successor. -/
theorem exists_run_destructor (path : Path queue.next first nodes last)
    (distinct : (nodes ++ [last]).Nodup) (head : queue.head = some first)
    (alive : queue.heap last = some .empty) :
    ∃ trace after, (destructor queue).Run (.start queue) trace
        ⟨after, .ended, [], (nodes ++ [last]).reverse.map (·, none)⟩ ∧
      (∀ address ∈ nodes ++ [last], after.heap address = none) ∧
      after.undefined = queue.undefined := by
  obtain ⟨collects, collected⟩ := exists_run_collect path alive []
  have resetLast : (destructor queue).Step ⟨queue, .reset (last :: nodes.reverse), [], []⟩ ()
      ⟨queue.store last (some .empty), .reset nodes.reverse, [], []⟩ := by
    simp [destructor, Destruction.next, Destruction.queueStep, Queue.deref_of_heap alive,
      Node.empty]
  have same : queue.store last (some .empty) = queue := by
    simp [Queue.store, ← alive]
  rw [same] at resetLast
  obtain ⟨resets, middle, reset, left⟩ := exists_run_reset queue [] path distinct ⟨_, alive, rfl⟩
  obtain ⟨stored, firstAlive, ended⟩ := left.first
  obtain ⟨destroys, members⟩ := exists_run_members queue
    ([] ++ (nodes ++ [last]).tail.reverse.map (·, none)) (left.head.trans head) firstAlive ended
  refine ⟨collects ++ () :: resets ++ destroys, { middle with head := none }.store first none, ?_,
    ?_, left.undefined⟩
  · have order : (nodes ++ [last]).reverse.map (·, (none : Option Address)) =
        [] ++ (nodes ++ [last]).tail.reverse.map (·, none) ++ [(first, none)] := by
      rw [path_nodes_eq path]
      simp
    rw [order]
    refine TransitionSystem.Run.append
      (TransitionSystem.Run.append ?_ (.cons resetLast reset)) members
    simpa [Destruction.start, head] using collected
  · intro address member
    rw [path_nodes_eq path] at member
    by_cases isFirst : address = first
    · simp [Queue.store, isFirst]
    · have later := (List.mem_cons.mp member).resolve_left isFirst
      simpa [Queue.store, isFirst] using left.freed address later

theorem Destruction.undefined_of_next (step : before.next = some after)
    (undefined : before.queue.undefined = true) : after.queue.undefined = true := by
  unfold Destruction.next at step
  split at step
  · unfold Destruction.queueStep at step
    split at step <;> (try split at step) <;> cases step <;>
      simp [Queue.fault, Queue.store, undefined]
  · obtain rfl := Option.some.inj step
    unfold Destruction.nodeStep
    split <;> split <;> simp [Queue.fault, Queue.store, undefined]

theorem mutexes_free_of_idle {layout : Layout Tid Value} {config : Config Tid Value}
    (asserted : ∀ thread, Assertion layout thread config.shared (config.threads thread))
    (idle : ∀ thread, config.threads thread = .idle) :
    config.shared.headMutex = none ∧ config.shared.tailMutex = none := by
  constructor <;> rw [Option.eq_none_iff_forall_not_mem] <;> intro holder held
  · have holds := (asserted holder).headHeld.mp held
    simp [idle holder, Pc.holdsHead] at holds
  · have holds := (asserted holder).tailHeld.mp held
    simp [idle holder, Pc.holdsTail] at holds

/-- The destructor of a queue that no call is using destroys the nodes of the list one by one from
the tail node to the head node, each with an empty `next`, and frees them; whatever step it has come
to, it has accessed no null pointer and no destroyed node, and the end is still ahead. -/
theorem destroys_of_reachable [DecidableEq Tid] {config : Config Tid Value}
    (reach : program.system.Reachable config) (idle : ∀ thread, config.threads thread = .idle) :
    ∃ first nodes, config.shared.head = some first ∧
      Path config.shared.next first nodes config.shared.tail ∧
      (nodes ++ [config.shared.tail]).Nodup ∧
      ∃ final : Destruction Tid Value, final.pc = .ended ∧ final.running = [] ∧
        final.destroyed = (nodes ++ [config.shared.tail]).reverse.map (·, none) ∧
        (∀ node ∈ nodes ++ [config.shared.tail], final.queue.heap node = none) ∧
        ∀ trace after, (destructor config.shared).Run (.start config.shared) trace after →
          after.queue.undefined = false ∧
            ∃ rest, (destructor config.shared).Run after rest final := by
  obtain ⟨layout, shape, asserted⟩ := exists_layout reach
  obtain ⟨headFree, tailFree⟩ := mutexes_free_of_idle asserted idle
  have distinct : (layout.nodes ++ [config.shared.tail]).Nodup := by
    rw [← List.concat_eq_append]
    exact shape.nodup.concat shape.fresh
  obtain ⟨whole, queue, full, freed, undefined⟩ := exists_run_destructor shape.path distinct
    (shape.headFree headFree) (shape.tailFree tailFree)
  refine ⟨layout.front, layout.nodes, shape.headFree headFree, shape.path, distinct,
    ⟨queue, .ended, [], _⟩, rfl, rfl, rfl, freed, fun trace after run => ?_⟩
  have deterministic {before next next' : Destruction Tid Value} {label label' : Unit}
      (step : (destructor config.shared).Step before label next)
      (step' : (destructor config.shared).Step before label' next') : next = next' :=
    Option.some.inj (step.symm.trans step')
  obtain ⟨rest, later⟩ := run.exists_rest_of_deterministic deterministic full
    fun label next step => by cases step
  refine ⟨?_, rest, later⟩
  -- an access through a dangling pointer would still be recorded at the end
  by_contra accessed
  have kept := later.preserves (motive := fun after => after.queue.undefined = true)
    (run.reachable (.initial rfl)) (by simpa using accessed)
    fun _ accessed step => Destruction.undefined_of_next step accessed
  simp [undefined, shape.defined] at kept

/-- Two values have been pushed, one of them removed, and no call is left. -/
theorem destroys_of_reachable_two : ∃ final : Destruction (Fin 1) Nat,
    final.pc = .ended ∧ final.destroyed = [(0, none), (1, none)] := by
  have pushed : ∃ config : Config (Fin 1) Nat,
      (program.system.restrict fun _ _ _ => True).Run initial
        ((0, .call (.push 5)) :: (0, .allocate 1) :: List.replicate 7 (0, .run) ++
          [(0, .notifyOne none), (0, .run), (0, .call .tryPop)] ++ List.replicate 16 (0, .run) ++
          (0, .call (.push 6)) :: (0, .allocate 0) :: List.replicate 7 (0, .run) ++
          [(0, .notifyOne none), (0, .run)]) config ∧
        (config.threads 0 = .idle ∧ config.shared.head = some 1 ∧ config.shared.tail = 0 ∧
          config.shared.next 1 = some 0) :=
    Program.exists_run_of_execute (by decide)
  obtain ⟨config, run, idle, head, last, link⟩ := pushed
  obtain ⟨first, nodes, head', path, distinct, final, ended, -, destroyed, -⟩ :=
    destroys_of_reachable (run.reachable initial_reachable).of_restrict
      fun thread => by rwa [Subsingleton.elim thread 0]
  obtain rfl : first = 1 := Option.some.inj (head'.symm.trans head)
  rw [last] at path distinct destroyed
  have fresh : 0 ∉ nodes := fun member =>
    (List.nodup_append.mp distinct).2.2 _ member _ (List.mem_singleton_self _) rfl
  obtain rfl : nodes = [1] := path.unique ⟨rfl, 0, link, rfl⟩ fresh (by decide)
  exact ⟨final, ended, destroyed⟩

end OptimizedQueue
end ConcurrencyCourse
