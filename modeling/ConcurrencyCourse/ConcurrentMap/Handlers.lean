import ConcurrencyCourse.ConcurrentMap.Model

/-!
# Handlers that use the map

A handler given to `Fetch` may call the map again.  A thread is then inside several calls at once:
the outer ones stand at their handlers, with the mutex locked by the outermost of them, and the
innermost one takes the steps of a call.  `m_mutex` is not recursive, so the first call that a
handler makes waits for the mutex that its own thread holds.
-/

namespace ConcurrencyCourse
namespace ConcurrentMap

/-- A finite program of calls on one map.  The handler of a `Fetch` is applied to the value of the
pair that it is given; the key of the pair is the key of the call. -/
inductive Handler (Key Value : Type*)
  | done
  | update (key : Key) (value : Value) (rest : Handler Key Value)
  | get (key : Key) (rest : Option Value → Handler Key Value)
  | remove (key : Key) (rest : Handler Key Value)
  | dump (rest : Data Key Value → Handler Key Value)
  | fetch (key : Key) (handler : Value → Handler Key Value) (rest : Handler Key Value)

namespace Handler

variable {Key Value : Type*}

/-- The next call of a program, with the handler that it passes. -/
def call : Handler Key Value → Option (Call Key Value × (Value → Handler Key Value))
  | done => none
  | update key value _ => some (.update key value, fun _ => done)
  | get key _ => some (.get key, fun _ => done)
  | remove key _ => some (.remove key, fun _ => done)
  | dump _ => some (.dump, fun _ => done)
  | fetch key handler _ => some (.fetch key, handler)

/-- The rest of a program after the return of its next call. -/
def resume : Handler Key Value → Result Key Value → Handler Key Value
  | update _ _ rest, .updated => rest
  | get _ rest, .got _ value => rest value
  | remove _ rest, .removed => rest
  | dump rest, .dumped data => rest data
  | fetch _ _ rest, .fetched _ => rest
  | _, _ => done

variable [DecidableEq Key]

/-- The same calls one after another on a plain `std::map`. -/
def run : Handler Key Value → Data Key Value → Data Key Value
  | done, data => data
  | update key value rest, data => rest.run (data.insert key value)
  | get key rest, data => (rest (data.lookup key)).run data
  | remove key rest, data => rest.run (data.erase key)
  | dump rest, data => (rest data).run data
  | fetch key handler rest, data =>
      match data.lookup key with
      | some value => rest.run ((handler value).run data)
      | none => rest.run data

/-- Every handler that the program has called makes no call itself. -/
def Quiet : Handler Key Value → Data Key Value → Prop
  | done, _ => True
  | update key value rest, data => rest.Quiet (data.insert key value)
  | get key rest, data => (rest (data.lookup key)).Quiet data
  | remove key rest, data => rest.Quiet (data.erase key)
  | dump rest, data => (rest data).Quiet data
  | fetch key handler rest, data =>
      (∀ value, data.lookup key = some value → handler value = done) ∧ rest.Quiet data

end Handler

/-- What a thread is inside of: a call of the map with the handler passed to it, or a program. -/
inductive Frame (Key Value : Type*)
  | call (pc : Pc Key Value) (handler : Value → Handler Key Value)
  | program (handler : Handler Key Value)

/-- A map and the one thread that uses it, with what it is inside of, the innermost first. -/
structure Execution (Key Value : Type*) where
  map : Map Unit Key Value
  frames : List (Frame Key Value)

section Steps

variable {Key Value : Type*} [DecidableEq Key] [Inhabited Value]

/-- One step of the thread; exceptions are left out. -/
def Execution.next (execution : Execution Key Value) : Option (Execution Key Value) :=
  match execution.frames with
  | [] => none
  | .program handler :: outer =>
      match handler.call, outer with
      | some (call, passed), _ =>
          some { execution with frames := .call (.lock call) passed :: .program handler :: outer }
      | none, .call pc passed :: outer =>
          -- the handler returns to the Fetch that has called it
          (threadStep () .run execution.map pc).map fun result =>
            ⟨result.1, .call result.2 passed :: outer⟩
      | none, outer => some { execution with frames := outer }
  | .call (.fetchHandler pair) passed :: outer =>
      some { execution with
        frames := .program (passed pair.2) :: .call (.fetchHandler pair) passed :: outer }
  | .call (.returning result) _ :: .program handler :: outer =>
      some { execution with frames := .program (handler.resume result) :: outer }
  | .call (.returning _) _ :: outer => some { execution with frames := outer }
  | .call pc passed :: outer =>
      (threadStep () .run execution.map pc).map fun result =>
        ⟨result.1, .call result.2 passed :: outer⟩

/-- Take a number of steps, failing where the thread can take none. -/
def Execution.steps : Nat → Execution Key Value → Option (Execution Key Value)
  | 0, execution => some execution
  | count + 1, execution => execution.next >>= Execution.steps count

omit [DecidableEq Key] [Inhabited Value] in
/-- A thread at the start of a program, on a map that nobody has locked. -/
def Execution.start (data : Data Key Value) (handler : Handler Key Value) : Execution Key Value :=
  ⟨{ data, mutex := none, effects := [] }, [.program handler]⟩

omit [DecidableEq Key] [Inhabited Value] in
/-- The thread waits for the mutex that it holds. -/
def Execution.SelfBlocked (execution : Execution Key Value) : Prop :=
  ∃ call passed outer, execution.frames = .call (.lock call) passed :: outer ∧
    execution.map.mutex = some ()

namespace Execution

variable {before after final blocked : Execution Key Value} {left right : Nat}

theorem steps_add (left right : Nat) (execution : Execution Key Value) :
    execution.steps (left + right) = execution.steps left >>= steps right := by
  induction left generalizing execution with
  | zero => simp [steps]
  | succ left ih =>
      simp only [Nat.succ_add, steps]
      cases execution.next with
      | none => rfl
      | some next => exact ih next

theorem SelfBlocked.next_eq_none (waits : blocked.SelfBlocked) : blocked.next = none := by
  obtain ⟨⟨data, mutex, effects⟩, frames⟩ := blocked
  obtain ⟨call, passed, outer, rfl, rfl⟩ := waits
  rfl

theorem eq_of_steps_of_next_eq_none (stuck : before.next = none)
    (later : before.steps left = some after) : after = before := by
  cases left with
  | zero => exact (Option.some.inj later).symm
  | succ left => simp [steps, stuck] at later

/-- A thread that waits for its own mutex never returns, and one that returns never does so. -/
theorem not_selfBlocked_of_returns {start : Execution Key Value}
    (returns : start.steps left = some final) (returned : final.frames = [])
    (reached : start.steps right = some blocked) : ¬ blocked.SelfBlocked := by
  intro waits
  have ended : final.next = none := by simp [next, returned]
  have same : blocked = final := by
    rcases Nat.le_total left right with less | less
    · obtain ⟨more, rfl⟩ := Nat.exists_eq_add_of_le less
      rw [steps_add, returns] at reached
      exact eq_of_steps_of_next_eq_none ended reached
    · obtain ⟨more, rfl⟩ := Nat.exists_eq_add_of_le less
      rw [steps_add, reached] at returns
      exact (eq_of_steps_of_next_eq_none waits.next_eq_none returns).symm
  obtain ⟨call, passed, outer, frames, -⟩ := waits
  rw [same, returned] at frames
  simp at frames

end Execution

/-! ## One call after another -/

variable {data data' data'' : Data Key Value} {key : Key} {value : Value}
  {handler rest rest' : Handler Key Value}

/-- A thread inside a program, between two calls, while the mutex is free. -/
def between (data : Data Key Value) (effects : List (Effect Key Value))
    (handler : Handler Key Value) (outer : List (Frame Key Value)) : Execution Key Value :=
  ⟨⟨data, none, effects⟩, .program handler :: outer⟩

/-- Some steps lead from a free map and the rest of a program to a free map and a later rest. -/
def Completes (data : Data Key Value) (handler : Handler Key Value) (data' : Data Key Value)
    (rest : Handler Key Value) : Prop :=
  ∀ effects outer, ∃ count effects',
    (between data effects handler outer).steps count = some (between data' effects' rest outer)

theorem Completes.trans (first : Completes data handler data' rest)
    (second : Completes data' rest data'' rest') : Completes data handler data'' rest' := by
  intro effects outer
  obtain ⟨left, effects', before⟩ := first effects outer
  obtain ⟨right, effects'', after⟩ := second effects' outer
  exact ⟨left + right, effects'', by rw [Execution.steps_add, before]; exact after⟩

theorem completes_update (rest : Handler Key Value) :
    Completes data (.update key value rest) (data.insert key value) rest := by
  intro effects outer
  have located : (between data effects (.update key value rest) outer).steps 3 =
      some ⟨⟨data, some (), effects⟩, .call (if key ∈ data then .updateAssign key value false
        else .updateAllocate key value) (fun _ => .done) ::
          .program (.update key value rest) :: outer⟩ := rfl
  by_cases present : key ∈ data
  · rw [if_pos present] at located
    exact ⟨3 + 3, .updated key value :: effects, by rw [Execution.steps_add, located]; rfl⟩
  · rw [if_neg present] at located
    refine ⟨3 + 6, .updated key value :: effects, ?_⟩
    -- the pair is made with a default value, which is then overwritten
    have overwritten : (data.insert key default).insert key value = data.insert key value :=
      Finmap.insert_insert _
    rw [Execution.steps_add, located, ← overwritten]
    rfl

theorem completes_get (rest : Option Value → Handler Key Value) :
    Completes data (.get key rest) data (rest (data.lookup key)) :=
  fun effects _ => ⟨5, effects, rfl⟩

theorem completes_remove (rest : Handler Key Value) :
    Completes data (.remove key rest) (data.erase key) rest :=
  fun effects _ => ⟨5, .removed key :: effects, rfl⟩

theorem completes_dump (rest : Data Key Value → Handler Key Value) :
    Completes data (.dump rest) data (rest data) :=
  fun effects _ => ⟨5, effects, rfl⟩

theorem steps_fetch (data : Data Key Value) (key : Key) (passed : Value → Handler Key Value)
    (rest : Handler Key Value) (effects : List (Effect Key Value))
    (outer : List (Frame Key Value)) :
    (between data effects (.fetch key passed rest) outer).steps 3 =
      some ⟨⟨data, some (), effects⟩, .call (match data.lookup key with
        | some value => .fetchHandler (key, value)
        | none => .unlock (.fetched none)) passed ::
          .program (.fetch key passed rest) :: outer⟩ := by
  have locked : (between data effects (.fetch key passed rest) outer).steps 2 =
      some ⟨⟨data, some (), effects⟩, .call (.fetchFind key) passed ::
        .program (.fetch key passed rest) :: outer⟩ := rfl
  rw [Execution.steps_add 2 1, locked]
  cases found : data.lookup key <;>
    simp [Execution.steps, Execution.next, threadStep, updateStep, accessStep, found]

theorem completes_fetch {passed : Value → Handler Key Value}
    (quiet : ∀ value, data.lookup key = some value → passed value = .done) :
    Completes data (.fetch key passed rest) data rest := by
  intro effects outer
  have called := steps_fetch data key passed rest effects outer
  cases found : data.lookup key with
  | none =>
      rw [found] at called
      exact ⟨3 + 2, effects, by rw [Execution.steps_add, called]; rfl⟩
  | some value =>
      rw [found] at called
      have entered : (between data effects (.fetch key passed rest) outer).steps 4 =
          some ⟨⟨data, some (), effects⟩, .program .done ::
            .call (.fetchHandler (key, value)) passed ::
            .program (.fetch key passed rest) :: outer⟩ := by
        rw [Execution.steps_add 3 1, called, ← quiet value found]
        rfl
      exact ⟨4 + 3, effects, by rw [Execution.steps_add, entered]; rfl⟩

/-- The first call that a handler makes waits for the mutex that `Fetch` holds. -/
theorem exists_selfBlocked_of_fetch {passed : Value → Handler Key Value}
    (found : data.lookup key = some value) (calls : passed value ≠ .done)
    (effects : List (Effect Key Value)) (outer : List (Frame Key Value)) :
    ∃ blocked, (between data effects (.fetch key passed rest) outer).steps 5 = some blocked ∧
      blocked.SelfBlocked := by
  obtain ⟨⟨call, inner⟩, next⟩ : ∃ next, (passed value).call = some next := by
    cases handler : passed value with
    | done => exact absurd handler calls
    | _ => exact ⟨_, rfl⟩
  have called := steps_fetch data key passed rest effects outer
  rw [found] at called
  refine ⟨⟨⟨data, some (), effects⟩, .call (.lock call) inner :: .program (passed value) ::
    .call (.fetchHandler (key, value)) passed :: .program (.fetch key passed rest) :: outer⟩, ?_,
    call, inner, _, rfl, rfl⟩
  rw [Execution.steps_add 3 2, called]
  simp [Execution.steps, Execution.next, next]

/-! ## Whole programs -/

/-- A program whose handlers make no calls leaves the map as a plain map would be. -/
theorem completes_of_quiet (quiet : handler.Quiet data) :
    Completes data handler (handler.run data) .done := by
  induction handler generalizing data with
  | done => exact fun effects _ => ⟨0, effects, rfl⟩
  | update key value rest ih => exact (completes_update rest).trans (ih quiet)
  | get key rest ih => exact (completes_get rest).trans (ih _ quiet)
  | remove key rest ih => exact (completes_remove rest).trans (ih quiet)
  | dump rest ih => exact (completes_dump rest).trans (ih _ quiet)
  | fetch key passed rest _ ih =>
      obtain ⟨silent, quiet⟩ := quiet
      have same : (Handler.fetch key passed rest).run data = rest.run data := by
        simp only [Handler.run]
        cases found : data.lookup key with
        | none => rfl
        | some value => simp [silent value found, Handler.run]
      rw [same]
      exact (completes_fetch silent).trans (ih quiet)

/-- From here the thread comes to wait for its own mutex. -/
def Blocks (data : Data Key Value) (handler : Handler Key Value) : Prop :=
  ∀ effects outer, ∃ count blocked,
    (between data effects handler outer).steps count = some blocked ∧ blocked.SelfBlocked

theorem Completes.blocks (first : Completes data handler data' rest) (blocks : Blocks data' rest) :
    Blocks data handler := by
  intro effects outer
  obtain ⟨left, effects', before⟩ := first effects outer
  obtain ⟨right, blocked, after, waits⟩ := blocks effects' outer
  exact ⟨left + right, blocked, by rw [Execution.steps_add, before]; exact after, waits⟩

/-- A program one of whose handlers makes a call comes to wait for its own mutex. -/
theorem blocks_of_not_quiet (loud : ¬ handler.Quiet data) : Blocks data handler := by
  induction handler generalizing data with
  | done => exact absurd trivial loud
  | update key value rest ih => exact (completes_update rest).blocks (ih loud)
  | get key rest ih => exact (completes_get rest).blocks (ih _ loud)
  | remove key rest ih => exact (completes_remove rest).blocks (ih loud)
  | dump rest ih => exact (completes_dump rest).blocks (ih _ loud)
  | fetch key passed rest _ ih =>
      by_cases silent : ∀ value, data.lookup key = some value → passed value = .done
      · exact (completes_fetch silent).blocks (ih fun quiet => loud ⟨silent, quiet⟩)
      · push Not at silent
        obtain ⟨value, found, calls⟩ := silent
        intro effects outer
        obtain ⟨blocked, reached, waits⟩ := exists_selfBlocked_of_fetch found calls effects outer
        exact ⟨5, blocked, reached, waits⟩

/-- The thread never waits for a mutex that it holds, and returns with the map as the same calls
leave a plain map. -/
def RunsAsPlain (data : Data Key Value) (handler : Handler Key Value) : Prop :=
  (∀ count state, (Execution.start data handler).steps count = some state → ¬ state.SelfBlocked) ∧
    ∃ count final, (Execution.start data handler).steps count = some final ∧ final.frames = [] ∧
      final.map.data = handler.run data

theorem runsAsPlain_iff_quiet : RunsAsPlain data handler ↔ handler.Quiet data := by
  constructor
  · rintro ⟨unblocked, -⟩
    by_contra loud
    obtain ⟨count, blocked, reached, waits⟩ := blocks_of_not_quiet loud [] []
    exact unblocked count blocked reached waits
  · intro quiet
    obtain ⟨count, effects, reached⟩ := completes_of_quiet quiet [] []
    have returns : (Execution.start data handler).steps (count + 1) =
        some ⟨⟨handler.run data, none, effects⟩, []⟩ := by
      rw [Execution.steps_add]
      exact (congrArg (· >>= Execution.steps 1) reached).trans rfl
    exact ⟨fun _ _ reached => Execution.not_selfBlocked_of_returns returns rfl reached, _, _,
      returns, rfl, rfl⟩

/-! ## The chain of 4_concurrent_map -/

/-- The handler of `main` for a key; `text` are the strings made of `rand()`. -/
def fetchHandler (mapSize : Nat) (text : Nat → Value) (key : Nat) : Handler Nat Value :=
  .update (key + 1) (text (key + 1))
    (if key < mapSize then
      .fetch (key + 1) (fun _ => fetchHandler mapSize text (key + 1)) .done
    else .done)
termination_by mapSize - key

/-- The calls of `main`. -/
def mainProgram (mapSize : Nat) (text : Nat → Value) : Handler Nat Value :=
  .update 0 (text 0) (.fetch 0 (fun _ => fetchHandler mapSize text 0) .done)

omit [Inhabited Value] in
theorem mem_run_fetchHandler {mapSize : Nat} {text : Nat → Value} {start : Nat}
    (bounded : start ≤ mapSize) {data : Data Nat Value} {key : Nat} :
    key ∈ (fetchHandler mapSize text start).run data ↔
      key ∈ data ∨ start < key ∧ key ≤ mapSize + 1 := by
  -- by induction on the number of nested calls
  induction distance : mapSize - start generalizing start data with
  | zero =>
      have last : start = mapSize := by omega
      rw [fetchHandler]
      simp only [last, lt_irrefl, if_false, Handler.run, Finmap.mem_insert]
      grind
  | succ distance ih =>
      have inner : start < mapSize := by omega
      rw [fetchHandler]
      simp only [inner, if_true, Handler.run, Finmap.lookup_insert, Finmap.mem_insert,
        ih inner (by omega)]
      grind

omit [Inhabited Value] in
theorem mem_run_mainProgram {mapSize : Nat} {text : Nat → Value} {key : Nat} :
    key ∈ (mainProgram mapSize text).run ∅ ↔ key ≤ mapSize + 1 := by
  simp only [mainProgram, Handler.run, Finmap.lookup_insert,
    mem_run_fetchHandler (Nat.zero_le mapSize), Finmap.mem_insert]
  have empty : key ∉ (∅ : Data Nat Value) := Finmap.notMem_empty
  simp only [empty, or_false]
  omega

omit [Inhabited Value] in
theorem mainProgram_not_quiet (mapSize : Nat) (text : Nat → Value) :
    ¬ (mainProgram mapSize text).Quiet ∅ := by
  rintro ⟨silent, -⟩
  have calls := silent (text 0) (Finmap.lookup_insert _)
  rw [fetchHandler] at calls
  simp at calls

/-- A `Fetch` agrees with the plain map exactly when the key is absent or its handler makes no call
on the map; and the chain of `main`, whatever its bound, never returns, where a plain map would end
with the keys up to the bound and one. -/
theorem fetch_runsAsPlain_iff :
    (∀ (data : Data Key Value) (key : Key) (handler : Value → Handler Key Value),
      RunsAsPlain data (.fetch key handler .done) ↔
        ∀ value, data.lookup key = some value → handler value = .done) ∧
    ∀ (mapSize : Nat) (text : Nat → Value),
      (∀ key, key ∈ (mainProgram mapSize text).run ∅ ↔ key ≤ mapSize + 1) ∧
      ∀ count final, (Execution.start ∅ (mainProgram mapSize text)).steps count = some final →
        final.frames ≠ [] := by
  constructor
  · intro data key handler
    rw [runsAsPlain_iff_quiet]
    exact and_iff_left trivial
  · refine fun mapSize text => ⟨fun key => mem_run_mainProgram, fun count final reached => ?_⟩
    intro returned
    obtain ⟨_, blocked, reached', waits⟩ :=
      blocks_of_not_quiet (mainProgram_not_quiet mapSize text) [] []
    exact Execution.not_selfBlocked_of_returns reached returned reached' waits

/-- A `Fetch` of an absent key, and one of a key whose handler makes a call for any other value. -/
theorem fetch_runsAsPlain_iff_both :
    RunsAsPlain (∅ : Data Nat Nat) (.fetch 0 (fun _ => .get 0 fun _ => .done) .done) ∧
      RunsAsPlain ((∅ : Data Nat Nat).insert 0 7)
        (.fetch 0 (fun value => if value = 7 then .done else .get 0 fun _ => .done) .done) := by
  refine ⟨(fetch_runsAsPlain_iff.1 _ _ _).mpr fun value found => by simp at found,
    (fetch_runsAsPlain_iff.1 _ _ _).mpr fun value found => ?_⟩
  obtain rfl : 7 = value := by simpa using found
  rfl

/-- A `Fetch` of key 0, which is in the map, with a handler that gets key 0. -/
theorem get_blocks_in_handler : ∃ blocked : Execution Nat Nat,
    (Execution.start ((∅ : Data Nat Nat).insert 0 7)
      (.fetch 0 (fun _ => .get 0 fun _ => .done) .done)).steps 5 = some blocked ∧
      blocked.SelfBlocked :=
  exists_selfBlocked_of_fetch (Finmap.lookup_insert _) (by simp) [] []

end Steps

end ConcurrentMap
end ConcurrencyCourse
