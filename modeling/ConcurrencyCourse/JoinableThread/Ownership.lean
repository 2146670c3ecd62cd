import ConcurrencyCourse.JoinableThread.Model
import Mathlib.Data.List.Nodup
import Mathlib.Data.List.Count

/-!
# Every thread has one owner and is joined once

Each handle that is joinable represents a thread of its own, and a thread that was handed over is
either joined or held by one object.  Assigning over an object and destroying it join its thread
first, so that `std::thread` never meets a joinable handle there.
-/

namespace ConcurrencyCourse
namespace JoinableThread

variable {Object Name : Type*}

/-- Threads are represented once, and those handed over are accounted for. -/
structure Owned (state : State Object Name) : Prop where
  started : ∀ handle thread, state.handles handle = some thread → thread < state.next
  unique : ∀ handle handle' thread, state.handles handle = some thread →
    state.handles handle' = some thread → handle = handle'
  living : ∀ object, state.alive object = false → state.handles (.mThread object) = none
  unjoined : ∀ handle thread, state.handles handle = some thread → thread ∉ state.joined
  accounted : ∀ thread, thread ∈ state.handedOver ↔
    thread ∈ state.joined ∨ ∃ object, state.handles (.mThread object) = some thread
  old : ∀ thread ∈ state.handedOver, thread < state.next
  joinedOnce : state.joined.Nodup

theorem owned_initial : Owned (initial : State Object Name) :=
  ⟨nofun, nofun, fun _ _ => rfl, nofun, fun thread => by simp [initial], nofun, List.nodup_nil⟩

variable [DecidableEq Object] [DecidableEq Name] {state state' : State Object Name}
  {object : Object} {source : Handle Object Name}

theorem Owned.start (owned : Owned state) (name : Name) : Owned (state.start name) := by
  have handles (handle : Handle Object Name) : (state.start name).handles handle =
      if handle = .external name then some state.next else state.handles handle := by
    simp [State.start, Function.update_apply]
  have unseen : state.next ∉ state.joined := fun member =>
    absurd (owned.old _ ((owned.accounted _).mpr (Or.inl member))) (Nat.lt_irrefl _)
  constructor
  · intro handle thread held
    rw [handles] at held
    split at held
    · obtain rfl := Option.some.inj held
      exact Nat.lt_succ_self _
    · exact Nat.lt_succ_of_lt (owned.started _ _ held)
  · intro handle handle' thread held held'
    rw [handles] at held held'
    split at held <;> split at held'
    · simp_all
    · obtain rfl := Option.some.inj held
      exact absurd (owned.started _ _ held') (Nat.lt_irrefl _)
    · obtain rfl := Option.some.inj held'
      exact absurd (owned.started _ _ held) (Nat.lt_irrefl _)
    · exact owned.unique _ _ _ held held'
  · intro object dead
    simpa [handles] using owned.living object dead
  · intro handle thread held
    rw [handles] at held
    split at held
    · obtain rfl := Option.some.inj held
      exact unseen
    · exact owned.unjoined _ _ held
  · intro thread
    simp only [handles, reduceCtorEq, if_false]
    exact owned.accounted thread
  · exact fun thread member => Nat.lt_succ_of_lt (owned.old thread member)
  · exact owned.joinedOnce

theorem Owned.joined {thread : ThreadId} (owned : Owned state)
    (held : state.handles (.mThread object) = some thread) :
    Owned { state with
      handles := Function.update state.handles (.mThread object) none
      joined := state.joined ++ [thread] } := by
  have kept {handle : Handle Object Name} {other : ThreadId}
      (holds : Function.update state.handles (.mThread object) none handle = some other) :
      handle ≠ .mThread object ∧ state.handles handle = some other := by
    by_cases same : handle = .mThread object
    · simp [same] at holds
    · exact ⟨same, by simpa [same] using holds⟩
  constructor
  · exact fun handle other holds => owned.started _ _ (kept holds).2
  · exact fun handle handle' other holds holds' => owned.unique _ _ _ (kept holds).2 (kept holds').2
  · intro dead absent
    by_cases same : dead = object
    · simp [same]
    · simpa [same] using owned.living dead absent
  · intro handle other holds member
    obtain ⟨differs, before⟩ := kept holds
    rcases List.mem_append.mp member with earlier | now
    · exact owned.unjoined _ _ before earlier
    · rw [List.mem_singleton.mp now] at before
      exact differs (owned.unique _ _ _ before held)
  · intro other
    have before := owned.accounted other
    constructor
    · intro member
      rcases before.mp member with earlier | ⟨owner, holds⟩
      · exact Or.inl (List.mem_append_left _ earlier)
      · by_cases same : owner = object
        · subst same
          obtain rfl := Option.some.inj (held.symm.trans holds)
          exact Or.inl (List.mem_append_right _ (List.mem_singleton_self _))
        · exact Or.inr ⟨owner, by simpa [same] using holds⟩
    · rintro (member | ⟨owner, holds⟩)
      · rcases List.mem_append.mp member with earlier | now
        · exact before.mpr (Or.inl earlier)
        · obtain rfl := List.mem_singleton.mp now
          exact before.mpr (Or.inr ⟨object, held⟩)
      · exact before.mpr (Or.inr ⟨owner, (kept holds).2⟩)
  · exact owned.old
  · exact owned.joinedOnce.append (List.nodup_singleton _)
      (List.disjoint_singleton.mpr (owned.unjoined _ _ held))

/-! ## Moving a thread into an object -/

theorem handles_moveConstruct (handle : Handle Object Name) :
    (state.moveConstruct (.mThread object) source).handles handle =
      if handle = source then none
      else if handle = .mThread object then state.handles source else state.handles handle := by
  simp [State.moveConstruct, Function.update_apply]

theorem eq_some_of_moveConstruct {handle : Handle Object Name} {thread : ThreadId}
    (holds : (state.moveConstruct (.mThread object) source).handles handle = some thread) :
    handle = .mThread object ∧ state.handles source = some thread ∨
      handle ≠ source ∧ handle ≠ .mThread object ∧ state.handles handle = some thread := by
  rw [handles_moveConstruct] at holds
  split at holds
  · simp at holds
  · split at holds
    · exact Or.inl ⟨‹_›, holds⟩
    · exact Or.inr ⟨‹_›, ‹_›, holds⟩

omit [DecidableEq Object] [DecidableEq Name] in
theorem outside_eq_some {thread : ThreadId} : state.outside source = some thread ↔
    (∃ name, source = .external name) ∧ state.handles source = some thread := by
  cases source with
  | mThread x => simp [State.outside]
  | external name => simp [State.outside]

/-- The move keeps the threads handed over accounted for, with one that it takes from outside. -/
theorem Owned.accounted_moveConstruct (owned : Owned state)
    (empty : state.handles (.mThread object) = none) (differs : source ≠ .mThread object)
    (thread : ThreadId) :
    thread ∈ state.handedOver ++ (state.outside source).toList ↔
      thread ∈ state.joined ∨ ∃ owner,
        (state.moveConstruct (.mThread object) source).handles (.mThread owner) = some thread := by
  have takes (held : state.handles source = some thread) :
      (state.moveConstruct (.mThread object) source).handles (.mThread object) = some thread := by
    rw [handles_moveConstruct, if_neg differs.symm, if_pos rfl, held]
  have keeps {owner : Object} (held : state.handles (.mThread owner) = some thread)
      (apart : .mThread owner ≠ source) :
      (state.moveConstruct (.mThread object) source).handles (.mThread owner) = some thread := by
    have other : (.mThread owner : Handle Object Name) ≠ .mThread object := by
      intro same
      rw [← same, held] at empty
      simp at empty
    rw [handles_moveConstruct, if_neg apart, if_neg other, held]
  rw [List.mem_append, Option.mem_toList, outside_eq_some, owned.accounted]
  constructor
  · rintro ((joined | ⟨owner, held⟩) | ⟨-, held⟩)
    · exact Or.inl joined
    · by_cases same : .mThread owner = source
      · exact Or.inr ⟨object, takes (same ▸ held)⟩
      · exact Or.inr ⟨owner, keeps held same⟩
    · exact Or.inr ⟨object, takes held⟩
  · rintro (joined | ⟨owner, holds⟩)
    · exact Or.inl (Or.inl joined)
    · rcases eq_some_of_moveConstruct holds with ⟨-, held⟩ | ⟨-, -, held⟩
      · cases source with
        | mThread x => exact Or.inl (Or.inr ⟨x, held⟩)
        | external name => exact Or.inr ⟨⟨name, rfl⟩, held⟩
      · exact Or.inl (Or.inr ⟨owner, held⟩)

theorem Owned.moved (owned : Owned state) {alive : Object → Bool}
    (empty : state.handles (.mThread object) = none) (differs : source ≠ .mThread object)
    (living : ∀ other, alive other = false → state.alive other = false ∧ other ≠ object) :
    Owned { state.moveConstruct (.mThread object) source with
      alive := alive
      handedOver := state.handedOver ++ (state.outside source).toList } := by
  constructor
  · intro handle thread holds
    rcases eq_some_of_moveConstruct holds with ⟨-, before⟩ | ⟨-, -, before⟩
    · exact owned.started _ _ before
    · exact owned.started _ _ before
  · intro handle handle' thread holds holds'
    rcases eq_some_of_moveConstruct holds with ⟨rfl, before⟩ | ⟨left, -, before⟩ <;>
      rcases eq_some_of_moveConstruct holds' with ⟨rfl, before'⟩ | ⟨left', -, before'⟩
    · rfl
    · exact absurd (owned.unique _ _ _ before' before) left'
    · exact absurd (owned.unique _ _ _ before before') left
    · exact owned.unique _ _ _ before before'
  · intro other absent
    obtain ⟨dead, other⟩ := living other absent
    have vacant := owned.living _ dead
    dsimp only
    rw [handles_moveConstruct]
    simp [other, vacant]
  · intro handle thread holds
    rcases eq_some_of_moveConstruct holds with ⟨-, before⟩ | ⟨-, -, before⟩
    · exact owned.unjoined _ _ before
    · exact owned.unjoined _ _ before
  · exact owned.accounted_moveConstruct empty differs
  · intro thread member
    rcases List.mem_append.mp member with earlier | now
    · exact owned.old _ earlier
    · exact owned.started _ _ (outside_eq_some.mp (Option.mem_toList.mp now)).2
  · exact owned.joinedOnce

/-! ## The operations -/

theorem Owned.joinIfJoinable (owned : Owned state) (object : Object) :
    ∃ state', state.joinIfJoinable object = .ok state' ∧ Owned state' ∧
      state'.handles (.mThread object) = none ∧ state'.alive = state.alive ∧
      state'.handedOver = state.handedOver ∧
      ∀ source, state'.outside source = state.outside source := by
  cases held : state.handles (.mThread object) with
  | none =>
      exact ⟨state, by simp [State.joinIfJoinable, held], owned, held, rfl, rfl, fun _ => rfl⟩
  | some thread =>
      refine ⟨_, by simp [State.joinIfJoinable, held, State.join], owned.joined held, by simp, rfl,
        rfl, fun source => ?_⟩
      cases source with
      | mThread => rfl
      | external => simp [State.outside]

theorem Owned.assignThread (owned : Owned state) (source : Handle Object Name)
    (living : state.alive object = true) :
    ∃ state', state.assignThread object source = .ok state' ∧
      Owned { state' with handedOver := state.handedOver ++ (state.outside source).toList } := by
  by_cases same : .mThread object = source
  · subst same
    refine ⟨state, by simp [State.assignThread], ?_⟩
    simpa [State.outside] using owned
  · obtain ⟨middle, joins, owned', empty, alive, handedOver, outside⟩ := owned.joinIfJoinable object
    refine ⟨middle.moveConstruct (.mThread object) source, ?_, ?_⟩
    · simp [State.assignThread, same, joins, bind, Except.bind, State.moveAssign, empty]
    · rw [← handedOver, ← outside source]
      refine owned'.moved empty (Ne.symm same) fun other dead => ⟨dead, ?_⟩
      rintro rfl
      simp [State.moveConstruct, alive, living] at dead

theorem Owned.destroy (owned : Owned state) (object : Object) :
    ∃ state', state.destroy object = .ok state' ∧ Owned state' ∧
      state'.handedOver = state.handedOver := by
  obtain ⟨middle, joins, owned', empty, alive, handedOver, -⟩ := owned.joinIfJoinable object
  refine ⟨{ middle with alive := Function.update middle.alive object false }, ?_,
    { owned' with living := fun other dead => ?_ }, handedOver⟩
  · simp [State.destroy, joins, bind, Except.bind, State.destruct, empty, pure, Except.pure]
  · by_cases same : other = object
    · rw [same]
      exact empty
    · exact owned'.living other (by simpa [same] using dead)

theorem Owned.constructFrom (owned : Owned state) (dead : state.alive object = false)
    (differs : source ≠ .mThread object) :
    Owned { state.constructFrom object source with
      handedOver := state.handedOver ++ (state.outside source).toList } := by
  refine owned.moved (owned.living object dead) differs fun other absent => ?_
  by_cases same : other = object
  · simp [State.constructFrom, same] at absent
  · exact ⟨by simpa [State.constructFrom, same] using absent, same⟩

theorem Owned.construct (owned : Owned state) (dead : state.alive object = false) :
    Owned (state.construct object) := by
  have empty := owned.living object dead
  have handles : Function.update state.handles (.mThread object) none = state.handles := by
    rw [← empty, Function.update_eq_self]
  have owned' : Owned { state with
      handles := Function.update state.handles (.mThread object) none } := by
    rw [handles]
    exact owned
  refine { owned' with living := fun other absent => owned'.living other ?_ }
  by_cases same : other = object
  · simp [State.construct, same] at absent
  · simpa [State.construct, same] using absent

omit [DecidableEq Object] [DecidableEq Name] in
theorem Owned.kept {after : State Object Name} (owned : Owned after)
    (same : after.handedOver = state.handedOver) :
    Owned { after with handedOver := state.handedOver ++ (none : Option ThreadId).toList } := by
  rw [← same, Option.toList_none, List.append_nil]
  exact owned

theorem exists_execute {operation : Operation Object Name} {after : State Object Name}
    (performs : operation.perform state = .ok after)
    (owned : Owned { after with
      handedOver := state.handedOver ++ (operation.handsOver state).toList }) :
    ∃ state', JoinableThread.execute state operation = .ok state' ∧ Owned state' :=
  ⟨_, by rw [JoinableThread.execute, performs]; rfl, owned⟩

/-- A valid operation meets no fault and keeps every thread owned once. -/
theorem Owned.execute (owned : Owned state) {operation : Operation Object Name}
    (valid : operation.Valid state) :
    ∃ state', JoinableThread.execute state operation = .ok state' ∧ Owned state' := by
  cases operation with
  | start name => exact exists_execute rfl ((owned.start name).kept rfl)
  | construct object => exact exists_execute rfl ((owned.construct valid).kept rfl)
  | constructFrom object source =>
      refine exists_execute rfl (owned.constructFrom valid.1 ?_)
      rintro rfl
      have exists' : state.alive object = true := valid.2
      simp [valid.1] at exists'
  | moveConstructFrom object x =>
      refine exists_execute rfl (owned.constructFrom valid.1 ?_)
      intro same
      obtain rfl := Handle.mThread.inj same
      have living : state.alive x = true := valid.2
      simp [valid.1] at living
  | assign object x =>
      obtain ⟨after, assigns, owned'⟩ := owned.assignThread (.mThread x) valid.1
      exact exists_execute assigns owned'
  | assignThread object thread =>
      obtain ⟨after, assigns, owned'⟩ := owned.assignThread thread valid.1
      exact exists_execute assigns owned'
  | join object =>
      obtain ⟨thread, held⟩ := Option.isSome_iff_exists.mp valid.2
      exact exists_execute (by simp [Operation.perform, State.join, held])
        ((owned.joined held).kept rfl)
  | destroy object =>
      obtain ⟨after, destroys, owned', same⟩ := owned.destroy object
      exact exists_execute destroys (owned'.kept same)

theorem Owned.executeAll {operations : List (Operation Object Name)} (owned : Owned state)
    (valid : ValidAll state operations) :
    ∃ state', JoinableThread.executeAll state operations = .ok state' ∧ Owned state' := by
  induction operations generalizing state with
  | nil => exact ⟨state, rfl, owned⟩
  | cons operation operations ih =>
      obtain ⟨middle, executes, owned'⟩ := owned.execute valid.1
      obtain ⟨state', rest, owned''⟩ := ih owned' (valid.2 middle executes)
      refine ⟨state', ?_, owned''⟩
      simp [JoinableThread.executeAll, executes, bind, Except.bind, rest]

end JoinableThread
end ConcurrencyCourse
