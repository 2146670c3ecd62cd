import ConcurrencyCourse.OptimizedQueue.Implementation
import ConcurrencyCourse.OptimizedQueue.Destructor
import ConcurrencyCourse.OptimizedQueue.Exceptions

/-!
# No node is leaked

Nodes are allocated by `push` and freed by the removals, or by a `push` that throws.  In between a
node is in the list or held by one call.  The number of live nodes is therefore the number of
stored values and of calls that hold a node, and one for the node `tail` points to.
-/

namespace ConcurrencyCourse
namespace OptimizedQueue

open LinkedPath ThreadSafeQueue
open Program (sumThreads)

variable {Tid Value : Type*}

/-- The node that a call of `push` has allocated and not yet appended. -/
def Pc.allocated : Pc Value → Option Address
  | .pushLock _ p | .pushReadTail _ p | .pushData _ p _ | .pushReadTailAgain _ p
  | .pushNext _ p _ | .pushTail _ p | .pushUnwind p | .pushDiscard p => some p
  | _ => none

/-- The node that a call holds. -/
def Pc.heldNode (pc : Pc Value) : Option Address := pc.allocated.or pc.unlinked

/-- Number of nodes that a call holds. -/
def Pc.heldNodes (pc : Pc Value) : Nat := pc.heldNode.isSome.toNat

/-- The live nodes. -/
def Alive (queue : Queue Tid Value) (live : Finset Address) : Prop :=
  ∀ address, address ∈ live ↔ (queue.heap address).isSome = true

variable {layout : Layout Tid Value} {thread : Tid} {queue queue' : Queue Tid Value}
  {pc pc' : Pc Value} {live : Finset Address}

theorem Shape.distinct (shape : Shape layout queue) : (layout.nodes ++ [queue.tail]).Nodup := by
  rw [← List.concat_eq_append]
  exact shape.nodup.concat shape.fresh

theorem Assertion.exists_owned (assertion : Assertion layout thread queue pc) {address : Address}
    (held : pc.heldNode = some address) : ∃ node, Owned layout thread queue address node := by
  rcases Option.or_eq_some_iff.mp held with allocated | ⟨-, unlinked⟩
  · have own := assertion.ownFact
    cases pc with
    | pushLock | pushReadTail | pushData | pushReadTailAgain | pushNext | pushTail | pushUnwind
    | pushDiscard =>
        obtain rfl := Option.some.inj allocated
        exact ⟨_, own⟩
    | _ => simp [Pc.allocated] at allocated
  · exact assertion.exists_owned_of_unlinked unlinked

/-! ## What a step does to the live nodes -/

/-- The balance of one step: nodes that are created or freed, values that enter or leave. -/
def Balances (queue : Queue Tid Value) (pc : Pc Value) (queue' : Queue Tid Value)
    (pc' : Pc Value) : Prop :=
  ∀ live, Alive queue live → ∃ live', Alive queue' live' ∧
    live'.card + queue'.removed.length + queue.pushed.length + pc.heldNodes =
      live.card + queue.removed.length + queue'.pushed.length + pc'.heldNodes

theorem Balances.of_same (heap : queue'.heap = queue.heap) (pushed : queue'.pushed = queue.pushed)
    (removed : queue'.removed = queue.removed) (held : pc'.heldNodes = pc.heldNodes) :
    Balances queue pc queue' pc' := by
  intro live alive
  refine ⟨live, fun address => by rw [heap, alive], ?_⟩
  rw [pushed, removed, held]

theorem Balances.of_write {address : Address} {node node' : Node Value}
    (stored : queue.heap address = some node) (held : pc'.heldNodes = pc.heldNodes) :
    Balances queue pc (queue.store address (some node')) pc' := by
  intro live alive
  refine ⟨live, fun other => ?_, by rw [held]; rfl⟩
  rw [alive]
  by_cases same : other = address
  · simp [Queue.store, same, stored]
  · simp [Queue.store, same]

theorem Balances.of_free {address : Address} {node : Node Value}
    (stored : queue.heap address = some node) (held : pc.heldNodes = pc'.heldNodes + 1) :
    Balances queue pc (queue.store address none) pc' := by
  intro live alive
  have member : address ∈ live := (alive address).mpr (by rw [stored]; rfl)
  refine ⟨live.erase address, fun other => ?_, ?_⟩
  · by_cases same : other = address
    · simp [Queue.store, same]
    · simpa [Queue.store, same] using alive other
  · have card := Finset.card_erase_add_one member
    simp only [Queue.store]
    omega

theorem Assertion.balances_pushCase (assertion : Assertion layout thread queue pc)
    (step : PushCase thread queue pc queue' pc') : Balances queue pc queue' pc' := by
  cases step with
  | writeData => exact .of_write assertion.tailFact.2 rfl
  | writeNext => exact .of_write assertion.tailFact.2 rfl
  | discard => exact .of_free assertion.ownFact.2 rfl
  | moveTail value p =>
      refine fun live alive => ⟨live, alive, ?_⟩
      simp only [List.length_append, List.length_singleton, Pc.heldNodes, Pc.heldNode,
        Pc.allocated, Pc.unlinked, Option.isSome_some, Option.isSome_none, Option.or_none,
        Bool.toNat_true, Bool.toNat_false]
      omega
  | lock | readTail | readTailAgain | unlock | unwind => exact .of_same rfl rfl rfl rfl

theorem CompareCase.balances (step : CompareCase thread queue pc queue' pc') :
    Balances queue pc queue' pc' := by
  cases step <;> exact .of_same rfl rfl rfl rfl

theorem PopCase.balances (step : PopCase queue pc queue' pc') : Balances queue pc queue' pc' := by
  cases step with
  | clearHead kind stored =>
      refine fun live alive => ⟨live, alive, ?_⟩
      simp only [List.length_append, List.length_singleton, Pc.heldNodes, Pc.heldNode,
        Pc.allocated, Pc.unlinked, Option.isSome_some, Option.isSome_none, Option.or_some,
        Option.or_none, Bool.toNat_true, Bool.toNat_false]
      omega
  | clearNext kind stored => exact .of_write stored rfl
  | free result stored => exact .of_free stored rfl
  | takeHead | readNext | setHead | unlock | takeNothing | takeData | freed =>
      exact .of_same rfl rfl rfl rfl

theorem Assertion.balances [DecidableEq Tid] {action : Action Tid Value}
    (assertion : Assertion layout thread queue pc)
    (step : StepCase thread queue action pc queue' pc') : Balances queue pc queue' pc' := by
  cases step with
  | call call => cases call <;> exact .of_same rfl rfl rfl rfl
  | allocate value free =>
      rename_i address
      intro live alive
      have fresh : address ∉ live := fun member => by
        have stored := (alive address).mp member
        rw [free] at stored
        simp at stored
      refine ⟨insert address live, fun other => ?_, ?_⟩
      · by_cases same : other = address
        · simp [Queue.store, same]
        · simpa [Queue.store, same] using alive other
      · have card := Finset.card_insert_of_notMem fresh
        simp only [Queue.store, Pc.heldNodes, Pc.heldNode, Pc.allocated, Pc.unlinked,
          Option.isSome_some, Option.isSome_none, Option.or_none, Bool.toNat_true, Bool.toNat_false]
        omega
  | push taken => exact assertion.balances_pushCase taken
  | compare taken => exact taken.balances
  | pop taken => exact taken.balances
  | notifyNobody | notify | block | wake | relock | ret | throwAllocate | throwData | throwTake =>
      exact .of_same rfl rfl rfl rfl

/-! ## The live nodes of every run -/

section Runs

variable [DecidableEq Tid] [Fintype Tid] {config : Config Tid Value}

/-- The live nodes are counted by the stored values, the calls that hold a node, and `tail`. -/
theorem exists_live (reach : program.system.Reachable config) :
    ∃ live, Alive config.shared live ∧ live.card + config.shared.removed.length =
      1 + config.shared.pushed.length + sumThreads Pc.heldNodes config.threads := by
  refine reach.invariant (motive := fun config => ∃ live, Alive config.shared live ∧
    live.card + config.shared.removed.length =
      1 + config.shared.pushed.length + sumThreads Pc.heldNodes config.threads) ?_ ?_
  · rintro ⟨queue, threads⟩ ⟨rfl, rfl⟩
    refine ⟨{0}, fun address => ?_, ?_⟩
    · by_cases same : address = 0 <;> simp [initial, same]
    · have none : sumThreads Pc.heldNodes (initial : Config Tid Value).threads = 0 :=
        Program.sumThreads_eq_zero fun _ => rfl
      dsimp only
      rw [none]
      rfl
  · rintro before ⟨thread, action⟩ after earlier ⟨live, alive, count⟩ step
    obtain ⟨layout, queue', pc', -, asserted, change, rfl⟩ := exists_stepCase earlier step
    obtain ⟨live', alive', balance⟩ := asserted.balances change live alive
    have held := Program.sumThreads_update Pc.heldNodes before.threads thread pc'
    refine ⟨live', alive', ?_⟩
    dsimp only
    omega

/-- The nodes that the calls hold. -/
def heldNodes (config : Config Tid Value) : Finset Address :=
  Finset.univ.biUnion fun thread => (config.threads thread).heldNode.toFinset

omit [DecidableEq Tid] in
theorem mem_heldNodes {address : Address} :
    address ∈ heldNodes config ↔ ∃ thread, (config.threads thread).heldNode = some address := by
  simp [heldNodes]

omit [DecidableEq Tid] in
theorem card_heldNodes
    (asserted : ∀ thread, Assertion layout thread config.shared (config.threads thread)) :
    (heldNodes config).card = sumThreads Pc.heldNodes config.threads := by
  rw [heldNodes, Finset.card_biUnion]
  · refine Finset.sum_congr rfl fun thread _ => ?_
    rw [Pc.heldNodes]
    cases (config.threads thread).heldNode <;> rfl
  · -- a node has one owner
    intro thread _ other _ distinct
    refine Finset.disjoint_left.mpr fun address held held' => ?_
    obtain ⟨node, own⟩ := (asserted thread).exists_owned (Option.mem_toFinset.mp held)
    obtain ⟨node', own'⟩ := (asserted other).exists_owned (Option.mem_toFinset.mp held')
    exact own.unowned distinct.symm node' own'

/-- The live nodes are those of the list, the node `tail` points to and those that a call holds. -/
theorem isSome_heap_iff (reach : program.system.Reachable config)
    (shape : Shape layout config.shared)
    (asserted : ∀ thread, Assertion layout thread config.shared (config.threads thread))
    (address : Address) : (config.shared.heap address).isSome = true ↔
      (address ∈ layout.nodes ∨ address = config.shared.tail) ∨
        ∃ thread, (config.threads thread).heldNode = some address := by
  obtain ⟨live, alive, count⟩ := exists_live reach
  have listed : layout.nodes.toFinset ∪ {config.shared.tail} ⊆ live := by
    intro address member
    refine (alive address).mpr (shape.listed address ?_).2
    simpa [or_comm] using member
  have held : heldNodes config ⊆ live := by
    intro address member
    obtain ⟨thread, holds⟩ := mem_heldNodes.mp member
    obtain ⟨node, own⟩ := (asserted thread).exists_owned holds
    exact (alive address).mpr (by rw [own.2]; rfl)
  have apart : Disjoint (layout.nodes.toFinset ∪ {config.shared.tail}) (heldNodes config) := by
    refine Finset.disjoint_left.mpr fun address member holds => ?_
    obtain ⟨thread, held⟩ := mem_heldNodes.mp holds
    obtain ⟨node, own⟩ := (asserted thread).exists_owned held
    obtain ⟨outside, other⟩ := shape.outside_of_owned own
    simp [outside, other] at member
  have size : (layout.nodes.toFinset ∪ {config.shared.tail}).card = layout.nodes.length + 1 := by
    rw [Finset.card_union_of_disjoint (by simpa using shape.fresh), Finset.card_singleton,
      List.toFinset_card_of_nodup shape.nodup]
  have values : layout.nodes.length = layout.values.length := by
    simpa using congrArg List.length shape.values
  have all : layout.nodes.toFinset ∪ {config.shared.tail} ∪ heldNodes config = live := by
    refine Finset.eq_of_subset_of_card_le (Finset.union_subset listed held) ?_
    rw [Finset.card_union_of_disjoint apart, size, card_heldNodes asserted]
    have order := congrArg List.length shape.order
    rw [List.length_append] at order
    omega
  rw [← alive, ← all, Finset.mem_union, mem_heldNodes]
  simp [or_comm]

/-- Every live node is in the list or held by one call, after every run with or without
exceptions. -/
theorem alive_iff (reach : program.system.Reachable config) :
    ∃ first nodes, logicalHead config = some first ∧
      Path config.shared.next first nodes config.shared.tail ∧
      (nodes ++ [config.shared.tail]).Nodup ∧
      (∀ address, (config.shared.heap address).isSome = true ↔
        (address ∈ nodes ∨ address = config.shared.tail) ∨
          ∃ thread, (config.threads thread).heldNode = some address) ∧
      ∀ address thread other, (config.threads thread).heldNode = some address →
        (address ∉ nodes ∧ address ≠ config.shared.tail) ∧
          ((config.threads other).heldNode = some address → other = thread) := by
  obtain ⟨layout, shape, asserted⟩ := exists_layout reach
  refine ⟨layout.front, layout.nodes, logicalHead_eq shape asserted, shape.path, shape.distinct,
    isSome_heap_iff reach shape asserted, fun address thread other holds => ?_⟩
  obtain ⟨node, own⟩ := (asserted thread).exists_owned holds
  refine ⟨shape.outside_of_owned own, fun holds' => ?_⟩
  obtain ⟨node', own'⟩ := (asserted other).exists_owned holds'
  exact Option.some.inj (own'.1.symm.trans own.1)

end Runs

/-- In the middle of a second push the list has the node 0 before `tail`, and the call holds the
node 2. -/
theorem alive_iff_push : ∃ config : Config (Fin 1) Nat, config.shared.tail = 1 ∧
    ∀ address, (config.shared.heap address).isSome = true ↔ address ∈ [0, 1, 2] := by
  have pushed : ∃ config : Config (Fin 1) Nat,
      (program.system.restrict fun _ _ _ => True).Run initial
        (pushing (0 : Fin 1) 5 ++ [(0, .call (.push 6)), (0, .allocate 2), (0, .run)]) config ∧
        ((config.threads 0).heldNode = some 2 ∧ config.shared.headMutex = none ∧
          config.shared.head = some 0 ∧ config.shared.tail = 1 ∧ config.shared.next 0 = some 1) :=
    Program.exists_run_of_execute (by decide)
  obtain ⟨config, run, held, free, head, tail, link⟩ := pushed
  obtain ⟨first, nodes, isFirst, path, distinct, lives, -⟩ :=
    alive_iff (run.reachable initial_reachable).of_restrict
  obtain rfl : first = 0 := by simpa [logicalHead, free, head, eq_comm] using isFirst
  rw [tail] at path distinct
  have fresh : 1 ∉ nodes := fun member =>
    (List.nodup_append.mp distinct).2.2 _ member _ (List.mem_singleton_self _) rfl
  obtain rfl : nodes = [0] := path.unique ⟨rfl, 1, link, rfl⟩ fresh (by decide)
  refine ⟨config, tail, fun address => ?_⟩
  rw [lives]
  simp [tail, held, Fin.exists_fin_one, or_assoc, eq_comm]

/-! ## After the destructor -/

theorem Destruction.heap_of_next {before after : Destruction Tid Value} {address : Address}
    (step : before.next = some after) (free : before.queue.heap address = none) :
    after.queue.heap address = none := by
  have kept {stored : Address × Node Value} {pointer : Address} {node : Option (Node Value)}
      (found : before.queue.deref (some pointer) = some stored) :
      (before.queue.store stored.1 node).heap address = none := by
    have different : address ≠ stored.1 := by
      rintro rfl
      obtain ⟨node, alive, rfl⟩ : ∃ node, before.queue.heap pointer = some node ∧
          (pointer, node) = stored := by simpa [Queue.deref] using found
      rw [alive] at free
      simp at free
    simpa [Queue.store, different] using free
  unfold Destruction.next at step
  split at step
  · unfold Destruction.queueStep at step
    split at step <;> (try split at step) <;> cases step <;>
      first
        | exact free
        | exact kept ‹_›
  · obtain rfl := Option.some.inj step
    unfold Destruction.nodeStep
    split <;> split <;>
      first
        | exact free
        | exact kept ‹_›

variable [DecidableEq Tid] [Fintype Tid] {config : Config Tid Value}

/-- When the destructor of a queue that no call is using has ended, every node that was ever
allocated is freed; the calls before may have thrown.  The vector of the destructor is taken to
grow without a failure. -/
theorem nothing_leaked (reach : program.system.Reachable config)
    (idle : ∀ thread, config.threads thread = .idle) :
    ∃ final : Destruction Tid Value, final.pc = .ended ∧ final.running = [] ∧
      final.queue.undefined = false ∧ (∀ address, final.queue.heap address = none) ∧
      ∀ trace after, (destructor config.shared).Run (.start config.shared) trace after →
        ∃ rest, (destructor config.shared).Run after rest final := by
  obtain ⟨layout, shape, asserted⟩ := exists_layout reach
  obtain ⟨headFree, tailFree⟩ := mutexes_free_of_idle asserted idle
  obtain ⟨whole, queue, full, freed, undefined⟩ := exists_run_destructor shape.path shape.distinct
    (shape.headFree headFree) (shape.tailFree tailFree)
  refine ⟨⟨queue, .ended, [], (layout.nodes ++ [config.shared.tail]).reverse.map (·, none)⟩, rfl,
    rfl, undefined.trans shape.defined, fun address => ?_,
    fun trace after run => ?_⟩
  · by_cases listed : address ∈ layout.nodes ++ [config.shared.tail]
    · exact freed address listed
    · -- a node outside the list was free before the destructor
      refine full.preserves (motive := fun after => after.queue.heap address = none)
        (.initial rfl) ?_ fun _ free step => Destruction.heap_of_next step free
      rw [← Option.not_isSome_iff_eq_none]
      intro alive
      rcases (isSome_heap_iff reach shape asserted address).mp alive with inside | ⟨thread, held⟩
      · exact listed (by simpa using inside)
      · simp [idle thread, Pc.heldNode, Pc.allocated, Pc.unlinked] at held
  · have deterministic {before next next' : Destruction Tid Value} {label label' : Unit}
        (step : (destructor config.shared).Step before label next)
        (step' : (destructor config.shared).Step before label' next') : next = next' :=
      Option.some.inj (step.symm.trans step')
    exact run.exists_rest_of_deterministic deterministic full fun label next step => by cases step

/-- A push, one that throws while it moves its value into the tail node, and a removal that throws
while it moves the value out: of the nodes 0, 1 and 2 nothing is left. -/
theorem nothing_leaked_threw : ∃ final : Destruction (Fin 1) Nat,
    final.pc = .ended ∧ ∀ address, final.queue.heap address = none := by
  have pushed : ∃ config : Config (Fin 1) Nat,
      (program.system.restrict fun _ _ _ => True).Run initial
        (pushing (0 : Fin 1) 5 ++ [(0, .call (.push 6)), (0, .allocate 2), (0, .run), (0, .run),
            (0, .throw), (0, .run), (0, .run), (0, .run), (0, .call .tryPop)] ++
          List.replicate 12 (0, .run) ++ [(0, .throw), (0, .run), (0, .run), (0, .run)]) config ∧
        config.threads 0 = .idle :=
    Program.exists_run_of_execute (by decide)
  obtain ⟨config, run, idle⟩ := pushed
  obtain ⟨final, ended, -, -, freed, -⟩ := nothing_leaked
    (run.reachable initial_reachable).of_restrict fun thread => by rwa [Subsingleton.elim thread 0]
  exact ⟨final, ended, freed⟩

end OptimizedQueue
end ConcurrencyCourse
