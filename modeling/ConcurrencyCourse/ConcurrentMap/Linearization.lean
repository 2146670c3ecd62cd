import ConcurrencyCourse.ConcurrentMap.Atomicity
import ConcurrencyCourse.Library.Recorded

/-!
# The map as an atomic object

What the callers of `concurrent_map` may rely on is one sequential object: a finite map whose
operations are the five calls, each of which but `Remove` may also throw and leave it alone.  While
an Update has linked a new entry and not yet assigned it, the abstract map is the one without this
entry.
-/

namespace ConcurrencyCourse
namespace ConcurrentMap

open AtomicObject (Event Status)

variable {Tid Key Value : Type*}

section Object

variable [DecidableEq Key]

/-- A finite map with the five calls. -/
def finiteMap (Key Value : Type*) [DecidableEq Key] :
    SequentialObject (Data Key Value) (Call Key Value) (Result Key Value) where
  initial := ∅
  apply before call result after :=
    match call, result with
    | .update key value, .updated => after = before.insert key value
    | .get key, .got read value => read = key ∧ value = before.lookup key ∧ after = before
    | .remove key, .removed => after = before.erase key
    | .fetch key, .fetched none => before.lookup key = none ∧ after = before
    | .fetch key, .fetched (some pair) =>
        pair.1 = key ∧ before.lookup key = some pair.2 ∧ after = before
    | .dump, .dumped data => data = before ∧ after = before
    | .update _ _, .threw | .get _, .threw | .fetch _, .threw | .dump, .threw => after = before
    | _, _ => False

end Object

/-! ## Linearization points -/

/-- The progress of a call; it takes effect in the step that ends its critical section. -/
def Pc.status : Pc Key Value → Status (Call Key Value) (Result Key Value)
  | .idle => .idle
  | .lock call => .pending call
  | .updateFind key value | .updateAllocate key value | .updateCopyKey key value
  | .updateConstruct key value | .updateAssign key value _ => .pending (.update key value)
  | .getFind key => .pending (.get key)
  | .removeErase key => .pending (.remove key)
  | .fetchFind key => .pending (.fetch key)
  | .fetchHandler pair => .pending (.fetch pair.1)
  | .dumpCopy => .pending .dump
  | .unlock result | .returning result => .finished result

/-- What a step shows to the caller. -/
def event (thread : Tid) : Action Key Value → Pc Key Value →
    Option (Event Tid (Call Key Value) (Result Key Value))
  | .call call, .idle => some (.call thread call)
  | .run, .returning result => some (.ret thread result)
  | _, _ => none

variable [DecidableEq Key]

/-- The map without the entry that the holder of the mutex has linked and not yet assigned. -/
def settledData (config : Config Tid Key Value) : Data Key Value :=
  match config.shared.mutex with
  | none => config.shared.data
  | some holder => (config.threads holder).settled config.shared.data

/-- A thread finds in the map what it has read before. -/
def ReadFact (data : Data Key Value) : Pc Key Value → Prop
  | .fetchHandler pair => data.lookup pair.1 = some pair.2
  | _ => True

/-- The copy-assignment of an Update throws after `operator[]` has linked a new entry. -/
def Orphans (before : Config Tid Key Value) (label : Tid × Action Key Value)
    (_ : Config Tid Key Value) : Prop :=
  label.2 = .throw ∧ ∃ key value, before.threads label.1 = .updateAssign key value true

variable [Inhabited Value] {thread : Tid} {map map' : Map Tid Key Value} {pc pc' : Pc Key Value}
  {action : Action Key Value}

theorem InsideCase.readFact (step : InsideCase map action pc map' pc') :
    ReadFact map'.data pc' := by
  cases step with
  | found stored => exact stored
  | _ => trivial

theorem lookup_eq_none_of_missing {key : Key}
    (step : threadStep thread action map (.fetchFind key) = some (map', .unlock (.fetched none))) :
    map.data.lookup key = none := by
  cases action with
  | run =>
      cases found : map.data.lookup key with
      | none => rfl
      | some value => simp [threadStep, updateStep, accessStep, found] at step
  | call | throw => simp [threadStep, throwStep] at step

omit [Inhabited Value] in
theorem insert_erase (data : Data Key Value) (key : Key) (value : Value) :
    (data.erase key).insert key value = data.insert key value := by
  refine Finmap.ext_lookup fun other => ?_
  by_cases hit : other = key
  · subst hit
    rw [Finmap.lookup_insert, Finmap.lookup_insert]
  · rw [Finmap.lookup_insert_of_ne _ hit, Finmap.lookup_insert_of_ne _ hit,
      Finmap.lookup_erase_ne hit]

/-- A step under the mutex is linear, unless it orphans an entry. -/
theorem InsideCase.linear (step : InsideCase map action pc map' pc')
    (entry : EntryFact map.data pc) (read : ReadFact map.data pc)
    (gone : ∀ key, pc = .fetchFind key → pc' = .unlock (.fetched none) →
      map.data.lookup key = none)
    (clean : action = .throw → ∀ key value, pc ≠ .updateAssign key value true) :
    Program.Linear (finiteMap Key Value) thread (event thread action pc) pc.status
      (pc.settled map.data) pc'.status (pc'.settled map'.data) := by
  cases step with
  | present | absent | allocate | copyKey => exact .quiet _ _
  | construct key value =>
      have same : Pc.settled (map.data.insert key default) (.updateAssign key value true) =
          map.data := erase_insert_of_notMem entry default
      rw [same]
      exact .quiet _ _
  | assign key value fresh =>
      refine .effect ?_
      cases fresh with
      | true => exact (insert_erase map.data key value).symm
      | false => rfl
  | erase => exact .effect rfl
  | get => exact .effect ⟨rfl, rfl, rfl⟩
  | found => exact .quiet _ _
  | missing key => exact .effect ⟨gone key rfl rfl, rfl⟩
  | dump => exact .effect ⟨rfl, rfl⟩
  | handled pair => exact .effect ⟨rfl, read, rfl⟩
  | throwCleanly throws =>
      cases pc with
      | updateAllocate | updateCopyKey | updateConstruct | getFind | fetchFind | fetchHandler
      | dumpCopy => exact .effect rfl
      | _ => simp [Pc.throwsCleanly] at throws
  | throwAssign key value fresh =>
      cases fresh with
      | true => exact absurd rfl (clean rfl key value)
      | false => exact .effect rfl

omit [Inhabited Value] in
theorem entry_readFact (call : Call Key Value) (data : Data Key Value) :
    ReadFact data (entry call) := by
  cases call <;> trivial

omit [Inhabited Value] in
theorem readFact_of_not_holds {data : Data Key Value} (free : pc.holds = false) :
    ReadFact data pc := by
  cases pc with
  | fetchHandler => simp [Pc.holds] at free
  | _ => trivial

theorem StepCase.readFact (step : StepCase thread map action pc map' pc') :
    ReadFact map'.data pc' := by
  cases step with
  | call | unlock | ret => trivial
  | lock call => exact entry_readFact call _
  | inside taken => exact taken.readFact

theorem StepCase.data_of_not_holds (step : StepCase thread map action pc map' pc')
    (free : pc.holds = false) : map'.data = map.data := by
  cases step with
  | call | lock | unlock | ret => rfl
  | inside taken => exact absurd taken.holds.1 (by simp [free])

section Runs

variable [DecidableEq Tid] {config before after : Config Tid Key Value}

theorem readFact_of_reachable (reach : program.system.Reachable config) (thread : Tid) :
    ReadFact config.shared.data (config.threads thread) := by
  refine reach.invariant (motive := fun config => ∀ thread,
    ReadFact config.shared.data (config.threads thread)) ?_ ?_ thread
  · rintro ⟨map, threads⟩ ⟨rfl, rfl⟩ thread
    trivial
  · rintro before ⟨mover, action⟩ after earlier read step thread
    obtain ⟨-, asserted⟩ := assertion_of_reachable earlier
    obtain ⟨map', pc', taken, rfl⟩ := Program.system_step_iff.mp step
    have change := threadStep_cases taken
    by_cases same : thread = mover
    · subst same
      simpa using change.readFact
    · simp only [Function.update_of_ne same]
      by_cases holds : (before.threads thread).holds = true
      · -- the mover does not hold the mutex, so it leaves the map alone
        have held := (asserted thread).held.mpr holds
        have free : (before.threads mover).holds = false := by
          refine Bool.eq_false_of_not_eq_true fun also => same ?_
          exact Option.some.inj (held.symm.trans ((asserted mover).held.mpr also))
        rw [change.data_of_not_holds free]
        exact read thread
      · exact readFact_of_not_holds (Bool.eq_false_of_not_eq_true holds)

omit [Inhabited Value] [DecidableEq Tid] in
theorem settledData_of_held {holder : Tid} (held : config.shared.mutex = some holder) :
    settledData config = (config.threads holder).settled config.shared.data := by
  rw [settledData, held]

omit [Inhabited Value] [DecidableEq Tid] in
theorem settledData_of_free (free : config.shared.mutex = none) :
    settledData config = config.shared.data := by
  rw [settledData, free]

omit [Inhabited Value] in
theorem settledData_update (foreign : config.shared.mutex ≠ some thread) :
    settledData ⟨config.shared, Function.update config.threads thread pc'⟩ =
      settledData config := by
  cases held : config.shared.mutex with
  | none => simp only [settledData, held]
  | some holder =>
      have other : holder ≠ thread := fun same => foreign (same ▸ held)
      simp only [settledData, held, Function.update_of_ne other]

/-- Every step is linear, unless it orphans an entry. -/
theorem linear_of_step (reach : program.system.Reachable before)
    (step : program.system.Step before (thread, action) after)
    (clean : ¬ Orphans before (thread, action) after) :
    Program.Linear (finiteMap Key Value) thread (event thread action (before.threads thread))
      (before.threads thread).status (settledData before) (after.threads thread).status
      (settledData after) := by
  obtain ⟨-, asserted⟩ := assertion_of_reachable reach
  have assertion := asserted thread
  have read := readFact_of_reachable reach thread
  obtain ⟨map', pc', taken, rfl⟩ := Program.system_step_iff.mp step
  have change := threadStep_cases taken
  simp only [Function.update_self]
  have foreign (free : (before.threads thread).holds = false) :
      before.shared.mutex ≠ some thread := by
    rw [Ne, assertion.held, free]
    exact Bool.false_ne_true
  generalize position : before.threads thread = pc at change assertion read taken foreign
  cases change with
  | call call =>
      rw [settledData_update (foreign rfl)]
      exact .call call _
  | ret result =>
      rw [settledData_update (foreign rfl)]
      exact .ret result _
  | lock call free =>
      rw [settledData_of_free free, settledData_of_held rfl]
      simp only [Function.update_self]
      cases call <;> exact .quiet _ _
  | unlock result =>
      rw [settledData_of_held (assertion.held.mpr rfl), settledData_of_free rfl, position]
      exact .quiet _ _
  | inside inner =>
      have held := assertion.held.mpr inner.holds.1
      rw [settledData_of_held held, settledData_of_held (inner.holds.2.2.trans held), position]
      simp only [Function.update_self]
      refine inner.linear assertion.entry read ?_ ?_
      · rintro key rfl rfl
        exact lookup_eq_none_of_missing taken
      · rintro rfl key value rfl
        exact clean ⟨rfl, key, value, position⟩

/-- Every history of calls and returns is one of a finite map whose value is the contents of the
map, as long as no Update throws between the link and the assignment of a new entry. -/
theorem map_linearizable
    {config : Program.Config Tid
      (Map Tid Key Value × List (Event Tid (Call Key Value) (Result Key Value))) (Pc Key Value)}
    (reach : ((program.recorded event).system.restrict fun before label after =>
      ¬ Orphans before.unrecorded label after.unrecorded).Reachable config) :
    ∃ state, (AtomicObject.system Tid (finiteMap Key Value)).Reachable state ∧
      state.value = settledData config.unrecorded ∧ state.history = config.shared.2 ∧
      ∀ thread, state.status thread = (config.threads thread).status := by
  refine Program.exists_atomic_of_linear
    (fun before label after => ¬ Orphans before label after) Pc.status settledData ?_ ?_ reach
  · rintro ⟨map, threads⟩ ⟨rfl, rfl⟩
    exact ⟨rfl, fun thread => rfl⟩
  · intro before thread action after earlier step
    exact linear_of_step earlier.of_restrict step.1 step.2

end Runs

/-- One thread has updated key 1, and another one has read the new value and not yet returned. -/
theorem map_linearizable_read : ∃ state,
    (AtomicObject.system (Fin 2) (finiteMap Nat Nat)).Reachable state ∧
      state.status 1 = .finished (.got 1 (some 5)) := by
  have read : ∃ config : Program.Config (Fin 2)
      (Map (Fin 2) Nat Nat × List (Event (Fin 2) (Call Nat Nat) (Result Nat Nat))) (Pc Nat Nat),
      ((program.recorded event).system.restrict fun _ label _ => label.2 ≠ .throw).Run
        ⟨((initial : Config (Fin 2) Nat Nat).shared, []), fun _ => .idle⟩
        ((0, .call (.update 1 5)) :: List.replicate 7 (0, .run) ++
          [(1, .call (.get 1)), (0, .run), (1, .run), (1, .run)]) config ∧
        config.threads 1 = .unlock (.got 1 (some 5)) :=
    Program.exists_run_of_execute (by decide)
  obtain ⟨config, run, position⟩ := read
  have reach : ((program.recorded event).system.restrict fun before label after =>
      ¬ Orphans before.unrecorded label after.unrecorded).Reachable config := by
    refine (run.reachable ?_).mono fun _ _ quiet orphans => quiet orphans.1
    exact .initial ⟨⟨rfl, rfl⟩, rfl⟩
  obtain ⟨state, atomic, -, -, progress⟩ := map_linearizable reach
  exact ⟨state, atomic, by rw [progress, position]; rfl⟩

end ConcurrentMap
end ConcurrencyCourse
