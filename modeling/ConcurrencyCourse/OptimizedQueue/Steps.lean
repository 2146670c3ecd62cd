import ConcurrencyCourse.OptimizedQueue.Preservation

/-!
# The list invariant

The steps of `push`, of the comparison and of `pop_head` each keep the shape of the list and what
the other threads rely on, so the shape holds after every run, with or without exceptions.
-/

namespace ConcurrencyCourse
namespace OptimizedQueue

open ThreadSafeQueue

variable {Tid Value : Type*} {layout : Layout Tid Value} {thread : Tid}
  {queue queue' : Queue Tid Value} {pc pc' : Pc Value}

/-! ## Locking and unlocking -/

theorem Shape.preserved_of_lockTail (shape : Shape layout queue)
    (assertion : Assertion layout thread queue pc) (awake : pc ≠ .waiting)
    (free : queue.tailMutex = none) (head : pc'.holdsHead = pc.holdsHead)
    (tail : pc'.holdsTail = true) (tailFact : TailFact queue pc')
    (headFact : HeadFact layout queue pc') (ownFact : OwnFact layout thread queue pc') :
    Preserved layout thread queue { queue with tailMutex := some thread } pc' := by
  have asserted : Assertion layout thread { queue with tailMutex := some thread } pc' :=
    ⟨by rw [head]; exact assertion.headHeld, by simp [tail],
      fun member => absurd member (assertion.not_blocked awake),
      tailFact.congr rfl rfl, headFact.mono rfl rfl id, ownFact.mono (fun _ _ own => own)
        fun _ => rfl⟩
  refine shape.preserved_of_list asserted rfl rfl rfl rfl rfl rfl nofun shape.headFree
    (fun _ _ => Iff.rfl) (fun other foreign => ?_) fun _ _ => id
  simp [free, foreign.symm]

theorem Shape.preserved_of_unlockTail (shape : Shape layout queue)
    (assertion : Assertion layout thread queue pc) (awake : pc ≠ .waiting)
    (held : pc.holdsTail = true) (ready : queue.heap queue.tail = some .empty)
    (head : pc'.holdsHead = pc.holdsHead) (tail : pc'.holdsTail = false)
    (headFact : HeadFact layout queue pc') (ownFact : OwnFact layout thread queue pc') :
    Preserved layout thread queue { queue with tailMutex := none } pc' := by
  have asserted : Assertion layout thread { queue with tailMutex := none } pc' :=
    ⟨by rw [head]; exact assertion.headHeld, by simp [tail],
      fun member => absurd member (assertion.not_blocked awake),
      .of_not_holds tail, headFact.mono rfl rfl id, ownFact.mono (fun _ _ own => own)
        fun _ => rfl⟩
  refine shape.preserved_of_list asserted rfl rfl rfl rfl rfl rfl (fun _ => ready) shape.headFree
    (fun _ _ => Iff.rfl) (fun other foreign => ?_) fun _ _ => id
  simp [assertion.tailHeld.mpr held, foreign.symm]

theorem Shape.preserved_of_lockHead (shape : Shape layout queue)
    (awake : thread ∉ queue.dataCond) (assertion : Assertion layout thread queue pc)
    (free : queue.headMutex = none) (head : pc'.holdsHead = true)
    (tail : pc'.holdsTail = pc.holdsTail) (tailFact : TailFact queue pc')
    (headFact : HeadFact layout queue pc') (ownFact : OwnFact layout thread queue pc') :
    Preserved layout thread queue { queue with headMutex := some thread } pc' := by
  have asserted : Assertion layout thread { queue with headMutex := some thread } pc' :=
    ⟨by simp [head], by rw [tail]; exact assertion.tailHeld, fun member => absurd member awake,
      tailFact.congr rfl rfl, headFact.mono rfl rfl id, ownFact.mono (fun _ _ own => own)
        fun _ => rfl⟩
  refine shape.preserved_of_list asserted rfl rfl rfl rfl rfl rfl shape.tailFree nofun
    (fun other foreign => ?_) (fun _ _ => Iff.rfl) fun _ _ => id
  simp [free, foreign.symm]

theorem Shape.preserved_of_unlockHead (shape : Shape layout queue) {dataCond : Finset Tid}
    (assertion : Assertion layout thread queue pc) (held : pc.holdsHead = true)
    (ready : queue.head = some layout.front) (head : pc'.holdsHead = false)
    (tail : pc'.holdsTail = pc.holdsTail) (blocked : thread ∈ dataCond → pc' = .waiting)
    (waiters : ∀ other, other ≠ thread → other ∈ dataCond → other ∈ queue.dataCond)
    (tailFact : TailFact queue pc') (ownFact : OwnFact layout thread queue pc') :
    Preserved layout thread queue { queue with headMutex := none, dataCond := dataCond } pc' := by
  have asserted : Assertion layout thread
      { queue with headMutex := none, dataCond := dataCond } pc' :=
    ⟨by simp [head], by rw [tail]; exact assertion.tailHeld, blocked, tailFact.congr rfl rfl,
      .of_not_holds head, ownFact.mono (fun _ _ own => own) fun _ => rfl⟩
  refine shape.preserved_of_list asserted rfl rfl rfl rfl rfl rfl shape.tailFree (fun _ => ready)
    (fun other foreign => ?_) (fun _ _ => Iff.rfl) waiters
  simp [assertion.headHeld.mpr held, foreign.symm]

/-! ## Steps of push -/

theorem Assertion.preserved_pushCase [DecidableEq Tid] (shape : Shape layout queue)
    (assertion : Assertion layout thread queue pc) (step : PushCase thread queue pc queue' pc') :
    Preserved layout thread queue queue' pc' := by
  have own := assertion.ownFact
  cases step with
  | lock value p free =>
      exact shape.preserved_of_lockTail assertion nofun free rfl rfl (shape.tailFree free) trivial
        own
  | readTail value p =>
      exact assertion.preserved_of_local shape nofun rfl rfl ⟨rfl, assertion.tailFact⟩ trivial own
  | writeData value p =>
      exact shape.preserved_of_storeTail (assertion.tailHeld.mpr rfl) ⟨assertion.headHeld,
        assertion.tailHeld, fun member => absurd member (assertion.not_blocked nofun),
        Function.update_self .., trivial, own.store_ne (shape.outside_of_owned own).2⟩
  | readTailAgain value p =>
      exact assertion.preserved_of_local shape nofun rfl rfl ⟨rfl, assertion.tailFact⟩ trivial own
  | writeNext value p =>
      exact shape.preserved_of_storeTail (assertion.tailHeld.mpr rfl) ⟨assertion.headHeld,
        assertion.tailHeld, fun member => absurd member (assertion.not_blocked nofun),
        Function.update_self .., trivial, own.store_ne (shape.outside_of_owned own).2⟩
  | moveTail value p => exact shape.preserved_of_moveTail (assertion.tailHeld.mpr rfl) assertion
  | unlock =>
      exact shape.preserved_of_unlockTail assertion nofun rfl assertion.tailFact rfl rfl trivial
        trivial
  | unwind p =>
      exact shape.preserved_of_unlockTail assertion nofun rfl assertion.tailFact rfl rfl trivial own
  | discard p =>
      exact shape.preserved_of_store none (shape.outside_of_owned own)
        (fun other foreign => own.unowned foreign) ⟨assertion.headHeld, assertion.tailHeld,
          fun member => absurd member (assertion.not_blocked nofun), trivial, trivial, trivial⟩

/-! ## Steps of the comparison -/

theorem Assertion.preserved_compareCase (shape : Shape layout queue)
    (assertion : Assertion layout thread queue pc)
    (step : CompareCase thread queue pc queue' pc') :
    Preserved layout thread queue queue' pc' := by
  have fact := assertion.headFact
  cases step with
  | lock kind free =>
      exact shape.preserved_of_lockHead (assertion.not_blocked nofun) assertion free rfl rfl
        trivial (shape.headFree free) trivial
  | readHead kind =>
      exact assertion.preserved_of_local shape nofun rfl rfl trivial ⟨fact, fact⟩ trivial
  | lockTail kind head free =>
      exact shape.preserved_of_lockTail assertion nofun free rfl rfl (shape.tailFree free) fact
        trivial
  | readTail kind head =>
      refine assertion.preserved_of_local shape nofun rfl rfl assertion.tailFact
        ⟨fact.1, fact.2, ?_⟩ trivial
      -- an empty path has its two ends at one node
      intro differs empty
      have path := shape.path
      rw [empty] at path
      exact differs path.symm
  | unlockTail kind head tail =>
      exact shape.preserved_of_unlockTail assertion nofun rfl assertion.tailFact rfl rfl fact
        trivial
  | equalTry tail =>
      exact assertion.preserved_of_local shape nofun rfl rfl trivial fact.1 trivial
  | equalWait tail =>
      exact assertion.preserved_of_local shape nofun rfl rfl trivial fact.1 trivial
  | different kind head tail differs =>
      refine assertion.preserved_of_local shape nofun rfl rfl trivial
        ⟨fact.1, fact.2.2 fun same => differs ?_⟩ trivial
      rw [fact.2.1, same]
  | unlock =>
      exact shape.preserved_of_unlockHead assertion rfl fact rfl rfl
        (fun member => absurd member (assertion.not_blocked nofun)) (fun _ _ => id) trivial
        (Or.inl ⟨rfl, rfl⟩)

/-! ## Steps of pop_head -/

theorem Assertion.preserved_popCase [DecidableEq Tid] (shape : Shape layout queue)
    (assertion : Assertion layout thread queue pc) (step : PopCase queue pc queue' pc') :
    Preserved layout thread queue queue' pc' := by
  have fact := assertion.headFact
  have own := assertion.ownFact
  cases step with
  | takeHead kind =>
      exact assertion.preserved_of_local shape nofun rfl rfl trivial ⟨fact.1, fact.1, fact.2⟩
        trivial
  | clearHead kind node =>
      exact shape.preserved_of_clearHead (assertion.headHeld.mpr rfl) assertion node
  | readNext kind node =>
      obtain ⟨address, value, same, own⟩ := own
      obtain rfl := Option.some.inj same
      obtain ⟨-, rfl⟩ : _ ∧ _ := by simpa [own.2] using node
      exact assertion.preserved_of_local shape nofun rfl rfl trivial ⟨fact, rfl⟩
        ⟨_, value, rfl, own⟩
  | clearNext kind node =>
      obtain ⟨address, value, same, own⟩ := own
      obtain rfl := Option.some.inj same
      exact shape.preserved_of_store (some thread) (shape.outside_of_owned own)
        (fun other foreign => own.unowned foreign) ⟨assertion.headHeld, assertion.tailHeld,
          fun member => absurd member (assertion.not_blocked nofun), trivial, fact,
          ⟨_, _, rfl, Function.update_self .., Function.update_self ..⟩⟩
  | setHead kind oldHead next =>
      exact shape.preserved_of_setHead (assertion.headHeld.mpr rfl) assertion
  | unlock kind oldHead =>
      exact shape.preserved_of_unlockHead assertion rfl fact rfl rfl
        (fun member => absurd member (assertion.not_blocked nofun)) (fun _ _ => id) trivial
        (Or.inr own)
  | takeNothing => exact assertion.preserved_of_local shape nofun rfl rfl trivial trivial trivial
  | takeData kind node =>
      exact assertion.preserved_of_local shape nofun rfl rfl trivial trivial
        (Or.inr (own.resolve_left nofun))
  | free result node =>
      obtain ⟨address, value, same, own⟩ := own.resolve_left nofun
      obtain rfl := Option.some.inj same
      exact shape.preserved_of_store none (shape.outside_of_owned own)
        (fun other foreign => own.unowned foreign) ⟨assertion.headHeld, assertion.tailHeld,
          fun member => absurd member (assertion.not_blocked nofun), trivial, trivial,
          Or.inl rfl⟩
  | freed result => exact assertion.preserved_of_local shape nofun rfl rfl trivial trivial trivial

/-! ## Every step, and every run -/

theorem Shape.outside_of_free (shape : Shape layout queue) {address : Address}
    (free : queue.heap address = none) : address ∉ layout.nodes ∧ address ≠ queue.tail := by
  constructor
  · intro member
    simpa [free] using (shape.listed address (Or.inl member)).2
  · intro same
    simpa [free] using (shape.listed address (Or.inr same)).2

theorem Assertion.preserved_of_allocate {value : Value} {address : Address}
    (shape : Shape layout queue) (assertion : Assertion layout thread queue (.pushAllocate value))
    (free : queue.heap address = none) :
    Preserved layout thread queue (queue.store address (some .empty))
      (.pushLock value address) := by
  have awake : thread ∉ queue.dataCond := assertion.not_blocked nofun
  refine shape.preserved_of_store (some thread) (shape.outside_of_free free)
    (fun other _ node own => ?_) ⟨assertion.headHeld, assertion.tailHeld,
      fun member => absurd member awake, trivial, trivial, by simp, by simp [Queue.store]⟩
  simp [own.2] at free

section Runs

variable [DecidableEq Tid]

theorem Assertion.preserved {action : Action Tid Value} (shape : Shape layout queue)
    (assertion : Assertion layout thread queue pc)
    (step : threadStep thread action queue pc = some (queue', pc')) :
    Preserved layout thread queue queue' pc' := by
  cases assertion.threadStep_cases shape step with
  | call call =>
      have asserted : Assertion layout thread
          { queue with history := queue.history ++ [.call thread call] } (entry call) := by
        cases call with
        | push | tryPop | waitAndPop =>
            exact ⟨assertion.headHeld, assertion.tailHeld,
              fun member => absurd member (assertion.not_blocked nofun), trivial, trivial, trivial⟩
      exact shape.preserved_of_list asserted rfl rfl rfl rfl rfl rfl shape.tailFree shape.headFree
        (fun _ _ => Iff.rfl) (fun _ _ => Iff.rfl) fun _ _ => id
  | allocate value free => exact assertion.preserved_of_allocate shape free
  | notifyNobody _ =>
      exact assertion.preserved_of_local shape nofun rfl rfl trivial trivial trivial
  | notify _ =>
      refine shape.preserved_of_list ⟨assertion.headHeld, assertion.tailHeld, fun member => ?_,
        trivial, trivial, trivial⟩ rfl rfl rfl rfl rfl rfl shape.tailFree shape.headFree
        (fun _ _ => Iff.rfl) (fun _ _ => Iff.rfl) fun _ _ => Finset.mem_of_mem_erase
      exact absurd (Finset.mem_of_mem_erase member) (assertion.not_blocked nofun)
  | block =>
      exact shape.preserved_of_unlockHead assertion rfl assertion.headFact rfl rfl (fun _ => rfl)
        (fun other foreign member => Finset.mem_of_mem_insert_of_ne member foreign) trivial trivial
  | wake _ =>
      exact shape.preserved_of_list ⟨assertion.headHeld, assertion.tailHeld, fun _ => rfl, trivial,
        trivial, trivial⟩ rfl rfl rfl rfl rfl rfl shape.tailFree shape.headFree
        (fun _ _ => Iff.rfl) (fun _ _ => Iff.rfl) fun _ _ => Finset.mem_of_mem_erase
  | relock awake free =>
      exact shape.preserved_of_lockHead awake assertion free rfl rfl trivial (shape.headFree free)
        trivial
  | ret result =>
      exact shape.preserved_of_list ⟨assertion.headHeld, assertion.tailHeld,
        fun member => absurd member (assertion.not_blocked nofun), trivial, trivial, trivial⟩
        rfl rfl rfl rfl rfl rfl shape.tailFree shape.headFree (fun _ _ => Iff.rfl)
        (fun _ _ => Iff.rfl) fun _ _ => id
  | throwAllocate value =>
      exact assertion.preserved_of_local shape nofun rfl rfl trivial trivial trivial
  | throwData value p tail =>
      exact assertion.preserved_of_local shape nofun rfl rfl assertion.tailFact.2 trivial
        assertion.ownFact
  | throwTake kind address =>
      exact assertion.preserved_of_local shape nofun rfl rfl trivial trivial
        (Or.inr (assertion.ownFact.resolve_left nofun))
  | push taken => exact assertion.preserved_pushCase shape taken
  | compare taken => exact assertion.preserved_compareCase shape taken
  | pop taken => exact assertion.preserved_popCase shape taken

/-- The layout of a new queue. -/
def Layout.initial : Layout Tid Value := ⟨0, [], [], fun _ => none⟩

theorem exists_layout {config : Config Tid Value} (reach : program.system.Reachable config) :
    ∃ layout, Shape layout config.shared ∧
      ∀ thread, Assertion layout thread config.shared (config.threads thread) := by
  refine Program.exists_auxiliary_of_assertions Shape Assertion ?_ ?_ reach.unrestricted
  · rintro shared threads ⟨rfl, rfl⟩
    refine ⟨.initial, ⟨rfl, rfl, nofun, .nil, rfl, rfl, ?_, fun _ => rfl, fun _ => rfl⟩,
      fun thread => ⟨?_, ?_, nofun, trivial, trivial, trivial⟩⟩
    · rintro address (listed | rfl)
      · exact absurd listed List.not_mem_nil
      · exact ⟨rfl, rfl⟩
    · simp [initial, Pc.holdsHead]
    · simp [initial, Pc.holdsTail]
  · intro layout before after thread action queue' pc' asserted shape step _ _
    obtain ⟨layout', shape', mine, others⟩ := (asserted thread).preserved shape step
    exact ⟨layout', shape', mine, fun other otherPc foreign assertion =>
      assertion.of_rely (others other foreign)⟩

end Runs

end OptimizedQueue
end ConcurrencyCourse
