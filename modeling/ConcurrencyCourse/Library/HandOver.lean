import Mathlib.Data.List.Sublists
import Mathlib.Data.Set.Insert

/-!
# Knowledge handed over through locks

Threads learn items, leave what they know at the locks they release, and take what was left there
when they acquire a lock.  A thread knows an item exactly when the item has been relayed to it: by a
chain of hand-overs, in order, from a thread that learned it.  A chain may be cut short wherever it
comes back to a lock, so chains through distinct locks suffice.
-/

namespace HandOver

variable {Tid Lock Item : Type*}

/-- What a thread does that matters for knowledge. -/
inductive Event (Tid Lock Item : Type*)
  | learn (thread : Tid) (item : Item)
  | release (lock : Lock) (thread : Tid)
  | acquire (lock : Lock) (thread : Tid)
  deriving DecidableEq

/-- What the threads know, and what has been left at the locks. -/
structure Knowledge (Tid Lock Item : Type*) where
  carried : Tid → Set Item
  left : Lock → Set Item

section Histories

variable [DecidableEq Tid] [DecidableEq Lock]

/-- The effect of one event. -/
def Knowledge.after (knowledge : Knowledge Tid Lock Item) :
    Event Tid Lock Item → Knowledge Tid Lock Item
  | .learn thread item =>
      ⟨Function.update knowledge.carried thread (insert item (knowledge.carried thread)),
        knowledge.left⟩
  | .release lock thread =>
      ⟨knowledge.carried,
        Function.update knowledge.left lock (knowledge.left lock ∪ knowledge.carried thread)⟩
  | .acquire lock thread =>
      ⟨Function.update knowledge.carried thread
        (knowledge.carried thread ∪ knowledge.left lock), knowledge.left⟩

/-- Knowledge after a history whose latest event comes first. -/
def knowledge : List (Event Tid Lock Item) → Knowledge Tid Lock Item
  | [] => ⟨fun _ => ∅, fun _ => ∅⟩
  | event :: earlier => (knowledge earlier).after event

/-- A chain of hand-overs of an item, the latest first, that ends with a thread; the list names the
locks it went through. -/
inductive Relay (item : Item) : List (Event Tid Lock Item) → Tid → List Lock → Prop
  | learn (thread : Tid) : Relay item [.learn thread item] thread []
  | handOver {events : List (Event Tid Lock Item)} {giver : Tid} {locks : List Lock} (lock : Lock)
      (taker : Tid) : Relay item events giver locks →
      Relay item (.acquire lock taker :: .release lock giver :: events) taker (lock :: locks)

variable {item : Item} {log events : List (Event Tid Lock Item)} {thread : Tid} {lock : Lock}
  {locks : List Lock}

/-! ## Monotonicity -/

theorem carried_mono (event : Event Tid Lock Item) :
    (knowledge log).carried thread ⊆ (knowledge (event :: log)).carried thread := by
  intro item known
  cases event with
  | release => exact known
  | learn learner | acquire _ learner =>
      by_cases same : thread = learner
      · subst same
        simp [knowledge, Knowledge.after, known]
      · simpa [knowledge, Knowledge.after, same] using known

theorem left_mono (event : Event Tid Lock Item) :
    (knowledge log).left lock ⊆ (knowledge (event :: log)).left lock := by
  intro item known
  cases event with
  | learn | acquire => exact known
  | release released =>
      by_cases same : lock = released
      · subst same
        simp [knowledge, Knowledge.after, known]
      · simpa [knowledge, Knowledge.after, same] using known

/-! ## Known means relayed -/

/-- A relayed item is known to the last taker, and left at the lock that it releases next. -/
theorem known_of_relay_aux : (∀ {events : List (Event Tid Lock Item)} {thread : Tid} {locks},
      Relay item events thread locks → events.Sublist log →
        item ∈ (knowledge log).carried thread) ∧
    ∀ {events : List (Event Tid Lock Item)} {giver : Tid} {locks} {lock : Lock},
      Relay item events giver locks → (.release lock giver :: events).Sublist log →
        item ∈ (knowledge log).left lock := by
  induction log with
  | nil =>
      constructor
      · intro events thread locks relay sublist
        cases relay <;> simp at sublist
      · intro events giver locks lock relay sublist
        simp at sublist
  | cons event log ih =>
      constructor
      · intro events thread locks relay sublist
        cases sublist with
        | cons _ earlier => exact carried_mono _ (ih.1 relay earlier)
        | cons_cons _ rest =>
            cases relay with
            | learn => simp [knowledge, Knowledge.after]
            | handOver lock taker relay =>
                have left := ih.2 relay rest
                simp [knowledge, Knowledge.after, left]
      · intro events giver locks lock relay sublist
        cases sublist with
        | cons _ earlier => exact left_mono _ (ih.2 relay earlier)
        | cons_cons _ rest =>
            have known := ih.1 relay rest
            simp [knowledge, Knowledge.after, known]

/-- A known item has been relayed, and one left at a lock has been relayed to a thread that then
released the lock. -/
theorem relay_of_known_aux : (∀ {thread : Tid}, item ∈ (knowledge log).carried thread →
      ∃ events, ∃ locks : List Lock, Relay item events thread locks ∧ events.Sublist log) ∧
    ∀ {lock : Lock}, item ∈ (knowledge log).left lock →
      ∃ events giver, ∃ locks : List Lock, Relay item events giver locks ∧
        (.release lock giver :: events).Sublist log := by
  induction log with
  | nil => exact ⟨nofun, nofun⟩
  | cons event log ih =>
      have older {thread : Tid} (known : item ∈ (knowledge log).carried thread) :
          ∃ events, ∃ locks : List Lock, Relay item events thread locks ∧
            events.Sublist (event :: log) := by
        obtain ⟨events, locks, relay, sublist⟩ := ih.1 known
        exact ⟨events, locks, relay, sublist.cons _⟩
      have olderLeft {lock : Lock} (known : item ∈ (knowledge log).left lock) :
          ∃ events giver, ∃ locks : List Lock, Relay item events giver locks ∧
            (Event.release lock giver :: events).Sublist (event :: log) := by
        obtain ⟨events, giver, locks, relay, sublist⟩ := ih.2 known
        exact ⟨events, giver, locks, relay, sublist.cons _⟩
      cases event with
      | learn learner learned =>
          refine ⟨fun {thread} known => ?_, olderLeft⟩
          by_cases same : thread = learner
          · subst same
            rcases (by simpa [knowledge, Knowledge.after] using known : item = learned ∨ _) with
              rfl | known
            · exact ⟨_, [], .learn thread, (List.nil_sublist _).cons_cons _⟩
            · exact older known
          · exact older (by simpa [knowledge, Knowledge.after, same] using known)
      | release released releaser =>
          refine ⟨older, fun {lock} known => ?_⟩
          by_cases same : lock = released
          · subst same
            rcases (by simpa [knowledge, Knowledge.after] using known : _ ∨ _) with left | carried
            · exact olderLeft left
            · obtain ⟨events, locks, relay, sublist⟩ := ih.1 carried
              exact ⟨events, releaser, locks, relay, sublist.cons_cons _⟩
          · exact olderLeft (by simpa [knowledge, Knowledge.after, same] using known)
      | acquire acquired taker =>
          refine ⟨fun {thread} known => ?_, olderLeft⟩
          by_cases same : thread = taker
          · subst same
            rcases (by simpa [knowledge, Knowledge.after] using known : _ ∨ _) with carried | left
            · exact older carried
            · obtain ⟨events, giver, locks, relay, sublist⟩ := ih.2 left
              exact ⟨_, _, relay.handOver acquired thread, sublist.cons_cons _⟩
          · exact older (by simpa [knowledge, Knowledge.after, same] using known)

/-! ## Distinct locks suffice -/

omit [DecidableEq Tid] in
theorem Relay.cut (relay : Relay item events thread locks) (member : lock ∈ locks) :
    ∃ events' giver, ∃ before after : List Lock, Relay item events' giver after ∧
      (.release lock giver :: events').Sublist events ∧ locks = before ++ lock :: after := by
  induction relay with
  | learn => simp at member
  | @handOver events giver locks current taker relay ih =>
      by_cases same : lock = current
      · subst same
        exact ⟨events, giver, [], locks, relay, (List.Sublist.refl _).cons _, rfl⟩
      · obtain ⟨events', giver', before, after, cut, sublist, rfl⟩ :=
          ih ((List.mem_cons.mp member).resolve_left same)
        exact ⟨events', giver', current :: before, after, cut, (sublist.cons _).cons _, rfl⟩

omit [DecidableEq Tid] in
theorem Relay.exists_nodup (relay : Relay item events thread locks) :
    ∃ events', ∃ locks' : List Lock, Relay item events' thread locks' ∧ events'.Sublist events ∧
      locks'.Nodup := by
  induction relay with
  | learn thread => exact ⟨_, [], .learn thread, List.Sublist.refl _, List.nodup_nil⟩
  | @handOver events giver locks lock taker relay ih =>
      obtain ⟨events', locks', relay', sublist, nodup⟩ := ih
      by_cases member : lock ∈ locks'
      · obtain ⟨events'', giver', before, after, cut, shorter, rfl⟩ := relay'.cut member
        exact ⟨_, _, cut.handOver lock taker,
          ((shorter.trans sublist).cons _).cons_cons _, nodup.of_append_right⟩
      · exact ⟨_, _, relay'.handOver lock taker, (sublist.cons_cons _).cons_cons _,
          List.nodup_cons.mpr ⟨member, nodup⟩⟩

/-- A thread knows an item exactly when the item has been relayed to it through distinct locks. -/
theorem carried_iff_relay : item ∈ (knowledge log).carried thread ↔
    ∃ events, ∃ locks : List Lock, Relay item events thread locks ∧ events.Sublist log ∧
      locks.Nodup := by
  constructor
  · intro known
    obtain ⟨events, locks, relay, sublist⟩ := relay_of_known_aux.1 known
    obtain ⟨events', locks', relay', shorter, nodup⟩ := relay.exists_nodup
    exact ⟨events', locks', relay', shorter.trans sublist, nodup⟩
  · rintro ⟨events, locks, relay, sublist, -⟩
    exact known_of_relay_aux.1 relay sublist

end Histories

end HandOver
