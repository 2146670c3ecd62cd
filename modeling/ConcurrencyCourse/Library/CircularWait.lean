import Mathlib.Order.WellFounded
import Mathlib.Data.Set.Basic

/-!
# Circular waits

A thread may wait for one lock, and a lock may be held by one thread.  A deadlock is a nonempty
set of threads each of which waits for a lock held inside the set.  If every lock a thread waits
for ranks strictly below every lock it holds, no such set exists.
-/

namespace CircularWait

variable {Tid Lock : Type*}

/-- Each thread of the nonempty set waits for a lock that a thread of the set holds. -/
def Deadlocked (waitsFor : Tid → Option Lock) (heldBy : Lock → Option Tid)
    (threads : Set Tid) : Prop :=
  threads.Nonempty ∧ ∀ thread ∈ threads, ∃ lock holder,
    waitsFor thread = some lock ∧ heldBy lock = some holder ∧ holder ∈ threads

/-- A lock order respected by every waiting thread rules out deadlock. -/
theorem not_deadlocked_of_descending {waitsFor : Tid → Option Lock}
    {heldBy : Lock → Option Tid} (below : Lock → Lock → Prop) (wellFounded : WellFounded below)
    (descends : ∀ {thread wanted held}, waitsFor thread = some wanted →
      heldBy held = some thread → below wanted held)
    (threads : Set Tid) : ¬ Deadlocked waitsFor heldBy threads := by
  rintro ⟨⟨first, member⟩, closed⟩
  have noWaiter : ∀ lock, ∀ thread ∈ threads, waitsFor thread ≠ some lock := by
    intro lock
    induction lock using wellFounded.induction with
    | _ lock ih =>
        intro thread inside waits
        obtain ⟨wanted, holder, waits', held, holderInside⟩ := closed thread inside
        obtain rfl := Option.some.inj (waits.symm.trans waits')
        obtain ⟨next, _, nextWaits, _, _⟩ := closed holder holderInside
        exact ih next (descends nextWaits held) holder holderInside nextWaits
  obtain ⟨lock, _, waits, _, _⟩ := closed first member
  exact noWaiter lock first member waits

/-- A thread that waits for a lock that somebody holds. -/
def Blocked (waitsFor : Tid → Option Lock) (heldBy : Lock → Option Tid) (thread : Tid) : Prop :=
  ∃ lock holder, waitsFor thread = some lock ∧ heldBy lock = some holder

/-- Without a deadlock, when some thread is blocked then some holder of a lock is not. -/
theorem exists_free_holder {waitsFor : Tid → Option Lock} {heldBy : Lock → Option Tid}
    (noDeadlock : ∀ threads, ¬ Deadlocked waitsFor heldBy threads) {first : Tid}
    (blocked : Blocked waitsFor heldBy first) :
    ∃ lock holder, heldBy lock = some holder ∧ ¬ Blocked waitsFor heldBy holder := by
  -- otherwise all blocked threads together are a deadlock
  by_contra every
  refine noDeadlock {thread | Blocked waitsFor heldBy thread} ⟨⟨first, blocked⟩, ?_⟩
  rintro thread ⟨lock, holder, waits, held⟩
  refine ⟨lock, holder, waits, held, ?_⟩
  by_contra free
  exact every ⟨lock, holder, held, free⟩

end CircularWait
