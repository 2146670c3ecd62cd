import ConcurrencyCourse.ConcurrentMap.Model

/-!
# Update is not atomic under failure

While an Update holds the mutex nobody else reads or writes the map.  When `operator[]` throws, the
map is as it was.  When the key was absent and the copy-assignment throws, the entry that
`operator[]` has linked stays behind with a default value, and every later reader takes it for a
genuine one.
-/

namespace ConcurrencyCourse
namespace ConcurrentMap

variable {Tid Key Value : Type*}

/-! ## What one step does -/

/-- Positions at which the mutex is held. -/
def Pc.holds : Pc Key Value → Bool
  | .idle | .lock _ | .returning _ => false
  | _ => true

/-- Positions at which a throw leaves the map and the effects alone. -/
def Pc.throwsCleanly : Pc Key Value → Bool
  | .updateAllocate _ _ | .updateCopyKey _ _ | .updateConstruct _ _ | .getFind _ | .fetchFind _
  | .fetchHandler _ | .dumpCopy => true
  | _ => false

/-- Positions at which the next step reads the map for the caller. -/
def Pc.reads : Pc Key Value → Bool
  | .getFind _ | .fetchFind _ | .dumpCopy => true
  | _ => false

section Cases

variable [DecidableEq Key]

/-- What a call has just read: the value of each key that it shows. -/
def Pc.shows : Pc Key Value → Key → Option Value
  | .unlock (.got read value), key => if key = read then value else none
  | .fetchHandler pair, key => if key = pair.1 then some pair.2 else none
  | .unlock (.dumped data), key => data.lookup key
  | _, _ => none

variable [Inhabited Value]

/-- Effects of the steps under the mutex. -/
inductive InsideCase (map : Map Tid Key Value) :
    Action Key Value → Pc Key Value → Map Tid Key Value → Pc Key Value → Prop
  | present (key : Key) (value : Value) : key ∈ map.data →
      InsideCase map .run (.updateFind key value) map (.updateAssign key value false)
  | absent (key : Key) (value : Value) : key ∉ map.data →
      InsideCase map .run (.updateFind key value) map (.updateAllocate key value)
  | allocate (key : Key) (value : Value) :
      InsideCase map .run (.updateAllocate key value) map (.updateCopyKey key value)
  | copyKey (key : Key) (value : Value) :
      InsideCase map .run (.updateCopyKey key value) map (.updateConstruct key value)
  | construct (key : Key) (value : Value) : InsideCase map .run (.updateConstruct key value)
      { map with data := map.data.insert key default } (.updateAssign key value true)
  | assign (key : Key) (value : Value) (fresh : Bool) :
      InsideCase map .run (.updateAssign key value fresh)
        { map with
          data := map.data.insert key value, effects := .updated key value :: map.effects }
        (.unlock .updated)
  | erase (key : Key) : InsideCase map .run (.removeErase key)
      { map with data := map.data.erase key, effects := .removed key :: map.effects }
      (.unlock .removed)
  | get (key : Key) :
      InsideCase map .run (.getFind key) map (.unlock (.got key (map.data.lookup key)))
  | found {key : Key} {value : Value} : map.data.lookup key = some value →
      InsideCase map .run (.fetchFind key) map (.fetchHandler (key, value))
  | missing (key : Key) : InsideCase map .run (.fetchFind key) map (.unlock (.fetched none))
  | dump : InsideCase map .run .dumpCopy map (.unlock (.dumped map.data))
  | handled (pair : Key × Value) :
      InsideCase map .run (.fetchHandler pair) map (.unlock (.fetched (some pair)))
  | throwCleanly {pc : Pc Key Value} : pc.throwsCleanly = true →
      InsideCase map .throw pc map (.unlock .threw)
  | throwAssign (key : Key) (value : Value) (fresh : Bool) :
      InsideCase map .throw (.updateAssign key value fresh)
        { map with effects := .assignThrew key fresh :: map.effects } (.unlock .threw)

/-- Effects of every step of a thread. -/
inductive StepCase (thread : Tid) (map : Map Tid Key Value) :
    Action Key Value → Pc Key Value → Map Tid Key Value → Pc Key Value → Prop
  | call (call : Call Key Value) : StepCase thread map (.call call) .idle map (.lock call)
  | lock (call : Call Key Value) : map.mutex = none →
      StepCase thread map .run (.lock call) { map with mutex := some thread } (entry call)
  | unlock (result : Result Key Value) :
      StepCase thread map .run (.unlock result) { map with mutex := none } (.returning result)
  | ret (result : Result Key Value) : StepCase thread map .run (.returning result) map .idle
  | inside {action : Action Key Value} {pc pc' : Pc Key Value} {map' : Map Tid Key Value} :
      InsideCase map action pc map' pc' → StepCase thread map action pc map' pc'

variable {thread : Tid} {map map' : Map Tid Key Value} {pc pc' : Pc Key Value}
  {action : Action Key Value}

theorem updateStep_cases (step : updateStep map pc = some (map', pc')) :
    InsideCase map .run pc map' pc' := by
  unfold updateStep at step
  split at step
  · cases step
    split
    · exact .present _ _ ‹_›
    · exact .absent _ _ ‹_›
  · cases step
    exact .allocate _ _
  · cases step
    exact .copyKey _ _
  · cases step
    exact .construct _ _
  · cases step
    exact .assign _ _ _
  · simp at step

theorem accessStep_cases (step : accessStep map pc = some (map', pc')) :
    InsideCase map .run pc map' pc' := by
  unfold accessStep at step
  split at step
  · cases step
    exact .get _
  · cases step
    exact .erase _
  · split at step
    · cases step
      exact .found ‹_›
    · cases step
      exact .missing _
  · cases step
    exact .handled _
  · cases step
    exact .dump
  · simp at step

theorem throwStep_cases (step : throwStep map pc = some (map', pc')) :
    InsideCase map .throw pc map' pc' := by
  unfold throwStep at step
  split at step
  all_goals first
    | cases step; exact .throwCleanly rfl
    | cases step; exact .throwAssign _ _ _
    | simp at step

theorem threadStep_cases (step : threadStep thread action map pc = some (map', pc')) :
    StepCase thread map action pc map' pc' := by
  unfold threadStep at step
  split at step
  · cases step
    exact .call _
  · split at step
    · cases step
      exact .lock _ ‹_›
    · simp at step
  · cases step
    exact .unlock _
  · cases step
    exact .ret _
  · rcases Option.or_eq_some_iff.mp step with updates | ⟨-, accesses⟩
    · exact .inside (updateStep_cases updates)
    · exact .inside (accessStep_cases accesses)
  · exact .inside (throwStep_cases step)
  · simp at step

theorem InsideCase.holds (step : InsideCase map action pc map' pc') :
    pc.holds = true ∧ pc'.holds = true ∧ map'.mutex = map.mutex := by
  cases step with
  | throwCleanly throws =>
      refine ⟨?_, rfl, rfl⟩
      cases pc <;> simp_all [Pc.throwsCleanly, Pc.holds]
  | _ => exact ⟨rfl, rfl, rfl⟩

/-! ## The map and the history of effects -/

omit [Inhabited Value] in
/-- The value of the latest successful Update of a key not followed by a Remove; the latest effect
comes first. -/
def latest : List (Effect Key Value) → Key → Option Value
  | [], _ => none
  | .updated updated value :: earlier, key =>
      if updated = key then some value else latest earlier key
  | .removed removed :: earlier, key => if removed = key then none else latest earlier key
  | .assignThrew _ _ :: earlier, key => latest earlier key

omit [Inhabited Value] in
/-- The last Update to change the entry of a key found the key absent and threw in its
copy-assignment. -/
def orphaned : List (Effect Key Value) → Key → Bool
  | [], _ => false
  | .updated changed _ :: earlier, key | .removed changed :: earlier, key =>
      if changed = key then false else orphaned earlier key
  | .assignThrew changed fresh :: earlier, key =>
      if changed = key ∧ fresh = true then true else orphaned earlier key

/-- The map holds the latest values, and a default value for each orphaned key. -/
structure Agrees (data : Data Key Value) (effects : List (Effect Key Value)) : Prop where
  lookup : ∀ key, data.lookup key =
    if orphaned effects key = true then some default else latest effects key
  unset : ∀ key, orphaned effects key = true → latest effects key = none

/-- The map without the entry that an Update has linked and not yet assigned. -/
def Pc.settled (data : Data Key Value) : Pc Key Value → Data Key Value
  | .updateAssign key _ true => data.erase key
  | _ => data

/-- What an Update knows of the entry that it works on. -/
def EntryFact (data : Data Key Value) : Pc Key Value → Prop
  | .updateAllocate key _ | .updateCopyKey key _ | .updateConstruct key _ => key ∉ data
  | .updateAssign key _ false => key ∈ data
  | .updateAssign key _ true => data.lookup key = some default
  | _ => True

/-- The assertion of one thread. -/
structure Assertion (thread : Tid) (map : Map Tid Key Value) (pc : Pc Key Value) : Prop where
  held : map.mutex = some thread ↔ pc.holds = true
  agrees : pc.holds = true → Agrees (pc.settled map.data) map.effects
  entry : EntryFact map.data pc

theorem Agrees.updated {data : Data Key Value} {effects : List (Effect Key Value)} {key : Key}
    (agrees : Agrees data effects) (value : Value) {data' : Data Key Value}
    (same : ∀ other, other ≠ key → data'.lookup other = data.lookup other)
    (own : data'.lookup key = some value) : Agrees data' (.updated key value :: effects) := by
  constructor
  · intro other
    by_cases hit : key = other
    · subst hit
      simp [orphaned, latest, own]
    · simp [orphaned, latest, hit, same other (Ne.symm hit), agrees.lookup other]
  · intro other lost
    by_cases hit : key = other
    · simp [orphaned, hit] at lost
    · simp only [orphaned, latest, hit, if_false] at lost ⊢
      exact agrees.unset other lost

theorem Agrees.erased {data : Data Key Value} {effects : List (Effect Key Value)}
    (agrees : Agrees data effects) (key : Key) :
    Agrees (data.erase key) (.removed key :: effects) := by
  constructor
  · intro other
    by_cases hit : key = other
    · subst hit
      simp [orphaned, latest]
    · simp [orphaned, latest, hit, Finmap.lookup_erase_ne (Ne.symm hit), agrees.lookup other]
  · intro other lost
    by_cases hit : key = other
    · simp [orphaned, hit] at lost
    · simp only [orphaned, latest, hit, if_false] at lost ⊢
      exact agrees.unset other lost

theorem Agrees.assignThrew {data : Data Key Value} {effects : List (Effect Key Value)} {key : Key}
    {value : Value} {fresh : Bool}
    (agrees : Agrees (Pc.settled data (.updateAssign key value fresh)) effects)
    (entry : EntryFact data (.updateAssign key value fresh)) :
    Agrees data (.assignThrew key fresh :: effects) := by
  cases fresh with
  | false =>
      have agrees : Agrees data effects := agrees
      constructor
      · intro other
        simpa [orphaned, latest] using agrees.lookup other
      · intro other lost
        exact agrees.unset other (by simpa [orphaned] using lost)
  | true =>
      have entry : data.lookup key = some default := entry
      -- without the new entry the key is absent, so nothing is known to be its latest value
      have absent : latest effects key = none := by
        have lookup := agrees.lookup key
        simp only [Pc.settled, Finmap.lookup_erase] at lookup
        split at lookup
        · simp at lookup
        · exact lookup.symm
      constructor
      · intro other
        by_cases hit : key = other
        · subst hit
          simpa [orphaned] using entry
        · have lookup := agrees.lookup other
          rw [Pc.settled, Finmap.lookup_erase_ne (Ne.symm hit)] at lookup
          simpa [orphaned, latest, hit] using lookup
      · intro other lost
        by_cases hit : key = other
        · subst hit
          exact absent
        · exact agrees.unset other (by simpa [orphaned, hit] using lost)

omit [Inhabited Value] in
theorem Pc.lookup_settled {data : Data Key Value} {key other : Key} {value : Value} {fresh : Bool}
    (differs : other ≠ key) :
    (Pc.settled data (.updateAssign key value fresh)).lookup other = data.lookup other := by
  cases fresh with
  | false => rfl
  | true => exact Finmap.lookup_erase_ne differs

omit [Inhabited Value] in
theorem erase_insert_of_notMem {data : Data Key Value} {key : Key} (absent : key ∉ data)
    (value : Value) : (data.insert key value).erase key = data := by
  refine Finmap.ext_lookup fun other => ?_
  by_cases hit : other = key
  · subst hit
    rw [Finmap.lookup_erase, Finmap.lookup_eq_none.mpr absent]
  · rw [Finmap.lookup_erase_ne hit, Finmap.lookup_insert_of_ne _ hit]

/-! ## Every step keeps the assertions -/

theorem InsideCase.preserved (step : InsideCase map action pc map' pc')
    (agrees : Agrees (pc.settled map.data) map.effects) (entry : EntryFact map.data pc) :
    Agrees (pc'.settled map'.data) map'.effects ∧ EntryFact map'.data pc' := by
  cases step with
  | present key value member => exact ⟨agrees, member⟩
  | absent key value absent => exact ⟨agrees, absent⟩
  | allocate | copyKey => exact ⟨agrees, entry⟩
  | construct key value =>
      refine ⟨?_, Finmap.lookup_insert _⟩
      rw [Pc.settled, erase_insert_of_notMem entry]
      exact agrees
  | assign key value fresh =>
      refine ⟨agrees.updated value (fun other differs => ?_) (Finmap.lookup_insert _), trivial⟩
      rw [Pc.lookup_settled differs]
      exact Finmap.lookup_insert_of_ne _ differs
  | erase key => exact ⟨agrees.erased key, trivial⟩
  | throwCleanly throws =>
      refine ⟨?_, trivial⟩
      cases pc with
      | updateAssign => simp [Pc.throwsCleanly] at throws
      | _ => exact agrees
  | throwAssign key value fresh => exact ⟨agrees.assignThrew entry, trivial⟩
  | get | found | missing | handled | dump => exact ⟨agrees, trivial⟩

omit [DecidableEq Key] [Inhabited Value] in
theorem entry_holds (call : Call Key Value) : (entry call).holds = true := by
  cases call <;> rfl

theorem entryFact_of_not_holds {data : Data Key Value} (free : pc.holds = false) :
    EntryFact data pc := by
  cases pc <;> simp_all [Pc.holds, EntryFact]

theorem entry_preserved {data : Data Key Value} {effects : List (Effect Key Value)}
    (agrees : Agrees data effects) (call : Call Key Value) :
    Agrees ((entry call).settled data) effects ∧ EntryFact data (entry call) := by
  cases call <;> exact ⟨agrees, trivial⟩

theorem Assertion.of_not_holds (free : pc.holds = false) (foreign : map.mutex ≠ some thread) :
    Assertion thread map pc :=
  ⟨by simp [free, foreign], by simp [free], entryFact_of_not_holds free⟩

theorem Assertion.step (assertion : Assertion thread map pc)
    (free : map.mutex = none → Agrees map.data map.effects)
    (step : StepCase thread map action pc map' pc') :
    (map'.mutex = none → Agrees map'.data map'.effects) ∧ Assertion thread map' pc' ∧
      ∀ other otherPc, other ≠ thread → Assertion other map otherPc →
        Assertion other map' otherPc := by
  cases step with
  | call call =>
      have foreign : map.mutex ≠ some thread := mt assertion.held.mp (by simp [Pc.holds])
      exact ⟨free, .of_not_holds rfl foreign, fun _ _ _ => id⟩
  | ret result =>
      have foreign : map.mutex ≠ some thread := mt assertion.held.mp (by simp [Pc.holds])
      exact ⟨free, .of_not_holds rfl foreign, fun _ _ _ => id⟩
  | lock call unlocked =>
      obtain ⟨agrees, entry⟩ := entry_preserved (free unlocked) call
      refine ⟨nofun, ⟨by simp [entry_holds], fun _ => agrees, entry⟩, ?_⟩
      intro other otherPc foreign assertion
      refine .of_not_holds ?_ (by simp [foreign.symm])
      simpa [unlocked] using assertion.held
  | unlock result =>
      have held := assertion.held.mpr rfl
      refine ⟨fun _ => assertion.agrees rfl, .of_not_holds rfl (by simp), ?_⟩
      intro other otherPc foreign assertion
      refine .of_not_holds ?_ (by simp)
      simpa [held, foreign.symm] using assertion.held
  | inside taken =>
      obtain ⟨holds, holds', mutex⟩ := taken.holds
      have held := assertion.held.mpr holds
      obtain ⟨agrees, entry⟩ := taken.preserved (assertion.agrees holds) assertion.entry
      refine ⟨by simp [mutex, held], ⟨by simp [mutex, held, holds'], fun _ => agrees, entry⟩, ?_⟩
      intro other otherPc foreign assertion
      refine .of_not_holds ?_ (by simp [mutex, held, foreign.symm])
      simpa [held, foreign.symm] using assertion.held

variable {config : Config Tid Key Value}

theorem assertion_of_reachable [DecidableEq Tid] (reach : program.system.Reachable config) :
    (config.shared.mutex = none → Agrees config.shared.data config.shared.effects) ∧
      ∀ thread, Assertion thread config.shared (config.threads thread) := by
  refine Program.invariant_of_assertions
    (fun map => map.mutex = none → Agrees map.data map.effects) Assertion ?_ ?_ reach.unrestricted
  · rintro map threads ⟨rfl, rfl⟩
    exact ⟨fun _ => ⟨fun key => by simp [initial, orphaned, latest], nofun⟩,
      fun thread => .of_not_holds rfl nofun⟩
  · intro before after thread action map' pc' asserted free step _
    exact (asserted thread).step free (threadStep_cases step)

/-! ## What readers are shown -/

theorem InsideCase.lookup_of_shows (step : InsideCase map action pc map' pc')
    (reads : pc.reads = true) {key : Key} {value : Value} (shows : pc'.shows key = some value) :
    map.data.lookup key = some value := by
  cases step with
  | get read =>
      obtain ⟨rfl, stored⟩ : key = read ∧ _ := by simpa [Pc.shows] using shows
      exact stored
  | found stored =>
      obtain ⟨rfl, rfl⟩ : _ ∧ _ := by simpa [Pc.shows] using shows
      exact stored
  | dump => exact shows
  | _ => simp_all [Pc.shows, Pc.reads]

/-- A reader is shown the latest values, unless it is shown an orphaned key. -/
theorem shows_latest_iff [DecidableEq Tid] {after : Config Tid Key Value} {thread : Tid}
    (reach : program.system.Reachable config)
    (step : program.system.Step config (thread, .run) after)
    (reads : (config.threads thread).reads = true) :
    (∀ key value, (after.threads thread).shows key = some value →
        latest config.shared.effects key = some value) ↔
      ∀ key, ((after.threads thread).shows key).isSome = true →
        orphaned config.shared.effects key = false := by
  obtain ⟨-, asserted⟩ := assertion_of_reachable reach
  obtain ⟨map', pc', taken, rfl⟩ := Program.system_step_iff.mp step
  have change := threadStep_cases taken
  have assertion := asserted thread
  simp only [Function.update_self]
  generalize config.threads thread = pc at change assertion reads
  cases change with
  | inside taken =>
      have agrees : Agrees config.shared.data config.shared.effects := by
        cases pc with
        | getFind | fetchFind | dumpCopy => exact assertion.agrees rfl
        | _ => simp [Pc.reads] at reads
      constructor
      · intro exact key shown
        obtain ⟨value, shows⟩ := Option.isSome_iff_exists.mp shown
        have stored := exact key value shows
        cases lost : orphaned config.shared.effects key with
        | false => rfl
        | true => simp [agrees.unset key lost] at stored
      · intro genuine key value shows
        have stored := taken.lookup_of_shows reads shows
        have known := genuine key (by simp [shows])
        simpa [agrees.lookup key, known] using stored
  | lock | unlock | ret => simp [Pc.reads] at reads

/-! ## An Update that throws -/

/-- The copy-assignment of an Update throws. -/
def assignThrows : Action Key Value → Pc Key Value → Bool
  | .throw, .updateAssign _ _ _ => true
  | _, _ => false

/-- The copy-assignment of the Update of `thread` throws. -/
def AssignThrows (thread : Tid) (before : Config Tid Key Value) (label : Tid × Action Key Value)
    (_ : Config Tid Key Value) : Prop :=
  label.1 = thread ∧ assignThrows label.2 (before.threads thread) = true

instance [DecidableEq Tid] (thread : Tid) (before after : Config Tid Key Value)
    (label : Tid × Action Key Value) : Decidable (AssignThrows thread before label after) :=
  inferInstanceAs (Decidable (_ ∧ _))

/-- `thread` holds the mutex all along. -/
def Keeps (thread : Tid) (_ : Config Tid Key Value) (_ : Tid × Action Key Value)
    (after : Config Tid Key Value) : Prop :=
  after.shared.mutex = some thread

instance [DecidableEq Tid] (thread : Tid) (before after : Config Tid Key Value)
    (label : Tid × Action Key Value) : Decidable (Keeps thread before label after) :=
  inferInstanceAs (Decidable (_ = _))

/-- What an Update of `key` that found the map `before` has done to it. -/
def UpdateEffect (before : Data Key Value) (key : Key) (throws : Nat) (data : Data Key Value) :
    Pc Key Value → Prop
  | .updateFind found _ => found = key ∧ throws = 0 ∧ data = before
  | .updateAllocate found _ | .updateCopyKey found _ | .updateConstruct found _ =>
      found = key ∧ throws = 0 ∧ key ∉ before ∧ data = before
  | .updateAssign found _ true =>
      found = key ∧ throws = 0 ∧ key ∉ before ∧ data = before.insert key default
  | .updateAssign found _ false => found = key ∧ throws = 0 ∧ key ∈ before ∧ data = before
  | .unlock .threw => throws = 0 ∧ data = before ∨ throws ≠ 0 ∧
      (key ∈ before ∧ data = before ∨ key ∉ before ∧ data = before.insert key default)
  | .unlock .updated => True
  | _ => False

theorem InsideCase.updateEffect {before : Data Key Value} {key : Key} {throws : Nat}
    (step : InsideCase map action pc map' pc')
    (effect : UpdateEffect before key throws map.data pc) :
    UpdateEffect before key (throws + (assignThrows action pc).toNat) map'.data pc' := by
  cases step with
  | present found value member =>
      obtain ⟨rfl, none, rfl⟩ := effect
      exact ⟨rfl, none, member, rfl⟩
  | absent found value absent =>
      obtain ⟨rfl, none, rfl⟩ := effect
      exact ⟨rfl, none, absent, rfl⟩
  | allocate | copyKey => exact effect
  | construct found value =>
      obtain ⟨rfl, none, absent, same⟩ := effect
      exact ⟨rfl, none, absent, by rw [← same]⟩
  | assign => trivial
  | throwCleanly throws =>
      cases pc with
      | updateAllocate | updateCopyKey | updateConstruct =>
          exact Or.inl ⟨effect.2.1, effect.2.2.2⟩
      | getFind | fetchFind | fetchHandler | dumpCopy => exact effect.elim
      | _ => simp [Pc.throwsCleanly] at throws
  | throwAssign found value fresh =>
      cases fresh with
      | true =>
          obtain ⟨-, rfl, absent, same⟩ := effect
          exact Or.inr ⟨Nat.one_ne_zero, Or.inr ⟨absent, same⟩⟩
      | false =>
          obtain ⟨-, rfl, present, same⟩ := effect
          exact Or.inr ⟨Nat.one_ne_zero, Or.inl ⟨present, same⟩⟩
  | erase | get | found | missing | handled | dump => exact effect.elim

/-- While `thread` keeps the mutex, its own steps inside the call are the only ones that change the
map. -/
theorem StepCase.of_keeps {mover : Tid} (asserted : Assertion mover map pc)
    (held : map.mutex = some thread) (keeps : map'.mutex = some thread)
    (step : StepCase mover map action pc map' pc') :
    map'.data = map.data ∧ mover ≠ thread ∨ mover = thread ∧ InsideCase map action pc map' pc' := by
  cases step with
  | call | ret =>
      refine Or.inl ⟨rfl, ?_⟩
      rintro rfl
      exact absurd (asserted.held.mp held) (by simp [Pc.holds])
  | lock _ unlocked => simp [unlocked] at held
  | unlock => simp at keeps
  | inside taken =>
      have mine := asserted.held.mpr taken.holds.1
      exact Or.inr ⟨Option.some.inj (mine.symm.trans held), taken⟩

section Runs

variable [DecidableEq Tid] {thread : Tid}

theorem updateEffect_step {before after : Config Tid Key Value} {label : Tid × Action Key Value}
    {found : Data Key Value} {key : Key} {throws : Nat}
    (reach : program.system.Reachable before) (held : before.shared.mutex = some thread)
    (effect : UpdateEffect found key throws before.shared.data (before.threads thread))
    (step : program.system.Step before label after) (keeps : Keeps thread before label after) :
    UpdateEffect found key
      (throws + (decide (AssignThrows thread before label after)).toNat) after.shared.data
      (after.threads thread) := by
  obtain ⟨mover, action⟩ := label
  obtain ⟨-, asserted⟩ := assertion_of_reachable reach
  obtain ⟨map', pc', taken, rfl⟩ := Program.system_step_iff.mp step
  rcases (threadStep_cases taken).of_keeps (asserted mover) held keeps with
    ⟨same, foreign⟩ | ⟨rfl, inside⟩
  · simp only [AssignThrows, foreign, false_and, decide_false, Bool.toNat_false, Nat.add_zero,
      Function.update_of_ne foreign.symm]
    rw [same]
    exact effect
  · simpa [AssignThrows] using inside.updateEffect effect

/-- An Update that ends with an exception has left the map as it found it, exactly when the key was
present or its copy-assignment did not throw. -/
theorem unchanged_of_update {start last : Config Tid Key Value} {key : Key} {value : Value}
    {throws : Nat} (reach : program.system.Reachable start)
    (begins : start.threads thread = .updateFind key value)
    (run : (program.system.restrict (Keeps thread)).CountedRun (AssignThrows thread) start throws
      last) (threw : last.threads thread = .unlock .threw) :
    last.shared.data = start.shared.data ↔ key ∈ start.shared.data ∨ throws = 0 := by
  obtain ⟨-, asserted⟩ := assertion_of_reachable reach
  have kept := run.preserves_of_restrict
    (motive := fun throws config => config.shared.mutex = some thread ∧
      UpdateEffect start.shared.data key throws config.shared.data (config.threads thread))
    reach ⟨(asserted thread).held.mpr (by simp [begins, Pc.holds]),
      by rw [begins]; exact ⟨rfl, rfl, rfl⟩⟩ ?_ ?_
  · have effect := kept.2
    rw [threw] at effect
    obtain ⟨none, same⟩ | ⟨some, ⟨present, same⟩ | ⟨absent, changed⟩⟩ := effect
    · exact iff_of_true same (Or.inr none)
    · exact iff_of_true same (Or.inl present)
    · refine iff_of_false (fun same => ?_) (not_or.mpr ⟨absent, some⟩)
      rw [same] at changed
      exact absent (changed ▸ Finmap.mem_insert.mpr (Or.inl rfl))
  · rintro throws before label next reached ⟨held, effect⟩ step keeps quiet
    exact ⟨keeps, by simpa [quiet] using updateEffect_step reached held effect step keeps⟩
  · rintro throws before label next reached ⟨held, effect⟩ step keeps threw
    exact ⟨keeps, by simpa [threw] using updateEffect_step reached held effect step keeps⟩

/-- An Update that ends with an exception leaves the map as it found it exactly when the key was
present or its copy-assignment did not throw; and a reader is shown only the values of the latest
successful Updates exactly when no key that it is shown is orphaned. -/
theorem atomic_iff_not_orphaned :
    (∀ {start last : Config Tid Key Value} {thread key value throws},
      program.system.Reachable start → start.threads thread = .updateFind key value →
      (program.system.restrict (Keeps thread)).CountedRun (AssignThrows thread) start throws last →
      last.threads thread = .unlock .threw →
      (last.shared.data = start.shared.data ↔ key ∈ start.shared.data ∨ throws = 0)) ∧
    ∀ {before after : Config Tid Key Value} {thread : Tid}, program.system.Reachable before →
      program.system.Step before (thread, .run) after → (before.threads thread).reads = true →
      ((∀ key value, (after.threads thread).shows key = some value →
          latest before.shared.effects key = some value) ↔
        ∀ key, ((after.threads thread).shows key).isSome = true →
          orphaned before.shared.effects key = false) :=
  ⟨fun reach begins run threw => unchanged_of_update reach begins run threw,
    fun reach step reads => shows_latest_iff reach step reads⟩

end Runs

end Cases

/-- One thread updates key 1, up to the copy-assignment. -/
def updatesOne : List (Fin 1 × Action Nat Nat) :=
  (0, .call (.update 1 5)) :: List.replicate 5 (0, .run)

/-- An allocation throws on a new map; a value that has been assigned is shown. -/
theorem atomic_iff_not_orphaned_both : ∃ start last shown : Config (Fin 1) Nat Nat,
    last.threads 0 = .unlock .threw ∧ last.shared.data = start.shared.data ∧
      (shown.threads 0).shows 1 = some 5 ∧ latest shown.shared.effects 1 = some 5 := by
  let everything (_ : Config (Fin 1) Nat Nat) (_ : Fin 1 × Action Nat Nat)
      (_ : Config (Fin 1) Nat Nat) := True
  let start := program.finish everything [(0, .call (.update 1 5)), (0, .run)]
    (initial : Config (Fin 1) Nat Nat)
  let keeps (before : Config (Fin 1) Nat Nat) (label : Fin 1 × Action Nat Nat)
      (after : Config (Fin 1) Nat Nat) := Keeps 0 before label after ∧
        ¬ AssignThrows 0 before label after
  let last := program.finish keeps [(0, .run), (0, .throw)] start
  let found := program.finish everything (updatesOne ++ List.replicate 3 (0, .run) ++
    [(0, .call (.get 1)), (0, .run)]) (initial : Config (Fin 1) Nat Nat)
  let shown := program.finish everything [(0, .run)] found
  have reach : (program.system.restrict everything).Reachable start :=
    (Program.run_finish (by decide)).reachable (.initial ⟨rfl, rfl⟩)
  have run : (program.system.restrict keeps).Run start _ last := Program.run_finish (by decide)
  have reachFound : (program.system.restrict everything).Reachable found :=
    (Program.run_finish (by decide)).reachable (.initial ⟨rfl, rfl⟩)
  have reads : (program.system.restrict everything).Step found (0, .run) shown :=
    (Program.run_finish (by decide)).step_of_single
  have effects : found.shared.effects = [.updated 1 5] := by decide
  refine ⟨start, last, shown, by decide, ?_, by decide, ?_⟩
  · exact (atomic_iff_not_orphaned.1 reach.of_restrict (by decide : start.threads 0 =
      .updateFind 1 5) (TransitionSystem.CountedRun.zero_of_run run) (by decide)).mpr (Or.inr rfl)
  · exact (atomic_iff_not_orphaned.2 reachFound.of_restrict reads.1 (by decide)).mpr
      (fun key _ => by simp [effects, orphaned]) 1 5 (by decide)

/-- The key 1 is absent and the copy-assignment of its Update throws: a default value stays in the
map and is shown to the next reader. -/
theorem default_left_by_update : ∃ start last found shown : Config (Fin 1) Nat Nat, ∃ trace,
    program.system.Reachable start ∧ start.threads 0 = .updateFind 1 5 ∧
      (program.system.restrict (Keeps 0)).Run start trace last ∧
      last.threads 0 = .unlock .threw ∧ last.shared.data ≠ start.shared.data ∧
      program.system.Reachable found ∧ program.system.Step found (0, .run) shown ∧
      found.threads 0 = .getFind 1 ∧ (shown.threads 0).shows 1 = some 0 ∧
      latest found.shared.effects 1 = none := by
  let everything (_ : Config (Fin 1) Nat Nat) (_ : Fin 1 × Action Nat Nat)
      (_ : Config (Fin 1) Nat Nat) := True
  let start := program.finish everything [(0, .call (.update 1 5)), (0, .run)]
    (initial : Config (Fin 1) Nat Nat)
  let last := program.finish (Keeps 0) (List.replicate 4 (0, .run) ++ [(0, .throw)]) start
  let found := program.finish everything (updatesOne ++ [(0, .throw), (0, .run), (0, .run),
    (0, .call (.get 1)), (0, .run)]) (initial : Config (Fin 1) Nat Nat)
  let shown := program.finish everything [(0, .run)] found
  have reach : (program.system.restrict everything).Reachable start :=
    (Program.run_finish (by decide)).reachable (.initial ⟨rfl, rfl⟩)
  have reachFound : (program.system.restrict everything).Reachable found :=
    (Program.run_finish (by decide)).reachable (.initial ⟨rfl, rfl⟩)
  have reads : (program.system.restrict everything).Step found (0, .run) shown :=
    (Program.run_finish (by decide)).step_of_single
  exact ⟨start, last, found, shown, _, reach.of_restrict, by decide,
    Program.run_finish (by decide), by decide, by decide, reachFound.of_restrict, reads.1,
    by decide, by decide, by decide⟩

end ConcurrentMap
end ConcurrencyCourse
