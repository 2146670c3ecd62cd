import ConcurrencyCourse.ConcurrentMap.Linearization
import ConcurrencyCourse.Library.Decimal
import ConcurrencyCourse.Library.ForkJoin
import ConcurrencyCourse.Library.Scripted

/-!
# The benchmark of the map

`bench_body` fills a map with the texts of random numbers.  In each iteration it starts
`NUMBER_OF_THREADS` threads, each of which reads one key after the other, converts the text that it
gets and adds the number to its sum; the destructors of the futures join the threads.  The template
is instantiated with `concurrent_map` and with `optimized_concurrent_map`, whose text is the same.
-/

namespace ConcurrencyCourse
namespace ConcurrentMap

variable {Key Value : Type*} [DecidableEq Key]

/-! ## One thread alone -/

/-- The call that an action begins. -/
def Action.called : Action Key Value → Option (Call Key Value)
  | .call operation => some operation
  | _ => none

/-- What a call does to a plain `std::map`. -/
def Call.plain (data : Data Key Value) : Call Key Value → Data Key Value
  | .update key value => data.insert key value
  | .remove key => data.erase key
  | .get _ | .fetch _ | .dump => data

/-- The call in progress that has not yet taken effect. -/
def Pc.pending (pc : Pc Key Value) : List (Call Key Value) :=
  match pc.status with
  | .pending call => [call]
  | .idle | .finished _ => []

theorem data_of_apply {data data' : Data Key Value} {call : Call Key Value}
    {result : Result Key Value} (applied : (finiteMap Key Value).apply data call result data')
    (succeeds : result ≠ .threw) : data' = call.plain data := by
  cases result with
  | threw => exact absurd rfl succeeds
  | updated =>
      cases call with
      | update => exact applied
      | _ => exact applied.elim
  | removed =>
      cases call with
      | remove => exact applied
      | _ => exact applied.elim
  | got =>
      cases call with
      | get => exact applied.2.2
      | _ => exact applied.elim
  | fetched pair =>
      cases call with
      | fetch =>
          cases pair with
          | none => exact applied.2
          | some => exact applied.2.2
      | _ => cases pair <;> exact applied.elim
  | dumped =>
      cases call with
      | dump => exact applied.2
      | _ => exact applied.elim

variable [Inhabited Value]

theorem StepCase.succeeds {Tid : Type*} {thread : Tid} {map map' : Map Tid Key Value}
    {action : Action Key Value} {pc pc' : Pc Key Value} {call : Call Key Value}
    (step : StepCase thread map action pc map' pc') (quiet : action ≠ .throw)
    (pending : pc.status = .pending call) : pc'.status ≠ .finished .threw := by
  cases step with
  | call | ret | unlock => simp [Pc.status] at pending
  | lock call => cases call <;> simp [entry, Pc.status]
  | inside taken =>
      cases taken with
      | throwCleanly | throwAssign => exact absurd rfl quiet
      | _ => simp [Pc.status]

theorem StepCase.called_toList {Tid : Type*} {thread : Tid} {map map' : Map Tid Key Value}
    {action : Action Key Value} {pc pc' : Pc Key Value}
    (step : StepCase thread map action pc map' pc') :
    action.called.toList = match event thread action pc with
      | some (.call _ op) => [op]
      | _ => [] := by
  cases step with
  | call | lock | unlock | ret => rfl
  | inside taken => cases taken <;> rfl

variable [DecidableEq Value]

/-- One thread that makes the calls of a script while nothing throws. -/
def alone (script : List (Call Key Value)) :
    TransitionSystem
      (Program.Config Unit (Map Unit Key Value) (List (Call Key Value) × Pc Key Value))
      (Unit × Action Key Value) :=
  (program.scripted Action.called fun _ => script).system.restrict fun _ label _ =>
    label.2 ≠ .throw

variable {script : List (Call Key Value)}
  {config : Program.Config Unit (Map Unit Key Value) (List (Call Key Value) × Pc Key Value)}

theorem reachable_of_alone (reach : (alone script).Reachable config) :
    program.system.Reachable config.base :=
  (Program.reachable_base (fun _ _ _ => True)
    (reach.of_restrict.restrict fun _ => trivial)).of_restrict

theorem mutex_free_of_alone (reach : (alone script).Reachable config)
    (free : (config.base.threads ()).holds = false) : config.base.shared.mutex = none := by
  rw [Option.eq_none_iff_forall_ne_some]
  rintro ⟨⟩ held
  have holds := ((assertion_of_reachable (reachable_of_alone reach)).2 ()).held.mp held
  simp [free] at holds

/-- The calls of a single thread do to the map what they do to a plain one. -/
theorem exists_made (reach : (alone script).Reachable config) :
    ∃ made, script = made ++ ((config.base.threads ()).pending ++ config.todo ()) ∧
      settledData config.base = made.foldl Call.plain ∅ := by
  refine reach.invariant (motive := fun config => ∃ made,
    script = made ++ ((config.base.threads ()).pending ++ config.todo ()) ∧
      settledData config.base = made.foldl Call.plain ∅) ?_ ?_
  · rintro ⟨map, threads⟩ ⟨⟨rfl, idle⟩, todo⟩
    have rests : (threads ()).2 = .idle := congrFun idle ()
    refine ⟨[], ?_, rfl⟩
    simpa [Program.Config.base, Program.Config.todo, rests, Pc.pending, Pc.status] using
      (todo ()).symm
  · rintro before ⟨⟨⟩, action⟩ after earlier ⟨made, split, value⟩ ⟨taken, quiet⟩
    obtain ⟨step, todo, -⟩ := Program.scripted_step_iff.mp taken
    have point := linear_of_step (reachable_of_alone earlier) step fun orphans => quiet orphans.1
    obtain ⟨map', pc', own, moved⟩ := Program.system_step_iff.mp step
    have change := threadStep_cases own
    have position : after.base.threads () = pc' := by simp [moved]
    have succeeds {op : Call Key Value}
        (pending : (before.base.threads ()).status = .pending op) : pc'.status ≠ .finished .threw :=
      change.succeeds quiet pending
    have called := change.called_toList
    rw [todo] at split
    rw [← position] at succeeds
    simp only [Pc.pending] at split ⊢
    generalize event () action (before.base.threads ()) = shown at point called
    generalize (before.base.threads ()).status = status at point split succeeds
    generalize (after.base.threads ()).status = status' at point succeeds ⊢
    generalize settledData after.base = data' at point ⊢
    rw [value] at point
    cases point with
    | quiet => exact ⟨made, by simpa [called] using split, rfl⟩
    | call op => exact ⟨made, by simpa [called] using split, rfl⟩
    | ret => exact ⟨made, by simpa [called] using split, rfl⟩
    | @effect op result _ _ applied =>
        refine ⟨made ++ [op], by simpa [called] using split, ?_⟩
        have succeeded : result ≠ .threw := fun threw => succeeds rfl (by rw [threw])
        rw [data_of_apply applied succeeded, List.foldl_append]
        rfl

/-- A bound for the steps to the end of a call. -/
def Pc.stepsLeft : Pc Key Value → Nat
  | .idle => 0
  | .returning _ => 1
  | .unlock _ => 2
  | .updateAssign _ _ _ | .getFind _ | .removeErase _ | .fetchHandler _ | .dumpCopy => 3
  | .updateConstruct _ _ | .fetchFind _ => 4
  | .updateCopyKey _ _ => 5
  | .updateAllocate _ _ => 6
  | .updateFind _ _ => 7
  | .lock _ => 8

omit [DecidableEq Value] in
theorem exists_step_inside {map : Map Unit Key Value} {pc : Pc Key Value} (busy : pc ≠ .idle)
    (free : pc.holds = false → map.mutex = none) :
    ∃ map' pc', threadStep () .run map pc = some (map', pc') ∧ pc'.stepsLeft < pc.stepsLeft := by
  cases pc with
  | idle => exact absurd rfl busy
  | lock call =>
      refine ⟨_, entry call, by rw [threadStep, free rfl], ?_⟩
      cases call <;> simp [entry, Pc.stepsLeft]
  | updateFind key value =>
      by_cases member : key ∈ map.data
      · exact ⟨map, .updateAssign key value false, by simp [threadStep, updateStep, member],
          by simp [Pc.stepsLeft]⟩
      · exact ⟨map, .updateAllocate key value, by simp [threadStep, updateStep, member],
          by simp [Pc.stepsLeft]⟩
  | fetchFind key =>
      cases found : map.data.lookup key with
      | some value => exact ⟨map, .fetchHandler (key, value),
          by simp [threadStep, updateStep, accessStep, found], by simp [Pc.stepsLeft]⟩
      | none => exact ⟨map, .unlock (.fetched none),
          by simp [threadStep, updateStep, accessStep, found], by simp [Pc.stepsLeft]⟩
  | _ => exact ⟨_, _, rfl, by simp [Pc.stepsLeft]⟩

/-- Until its script is done, a single thread has a next step. -/
theorem exists_step_alone (reach : (alone script).Reachable config)
    (more : ¬ (config.todo () = [] ∧ config.base.threads () = .idle)) :
    ∃ label after, (alone script).Step config label after ∧ (alone script).Reachable after ∧
      9 * (after.todo ()).length + (after.base.threads ()).stepsLeft <
        9 * (config.todo ()).length + (config.base.threads ()).stepsLeft := by
  -- a step of the program that begins the next call or none, as a step of the script
  have taken (action : Action Key Value) {map' : Map Unit Key Value} {pc' : Pc Key Value}
      (rest : List (Call Key Value)) (quiet : action ≠ .throw)
      (own : threadStep () action config.base.shared (config.base.threads ()) = some (map', pc'))
      (todo : config.todo () = action.called.toList ++ rest) :
      ∃ after, (alone script).Step config ((), action) after ∧ after.base.threads () = pc' ∧
        after.todo () = rest := by
    have step : program.system.Step config.base ((), action)
        ⟨map', Function.update config.base.threads () pc'⟩ :=
      Program.system_step_iff.mpr ⟨map', pc', own, rfl⟩
    obtain ⟨after, scripted, base⟩ :=
      Program.exists_scripted_step Action.called (fun _ => script) rest step todo
    refine ⟨after, ⟨scripted, quiet⟩, by simp [base], ?_⟩
    have split := (Program.scripted_step_iff.mp scripted).2.1
    rw [todo] at split
    exact (List.append_cancel_left split).symm
  by_cases idle : config.base.threads () = .idle
  · obtain ⟨call, rest, todo⟩ := List.exists_cons_of_ne_nil fun none => more ⟨none, idle⟩
    have own : threadStep () (.call call) config.base.shared (config.base.threads ()) =
        some (config.base.shared, .lock call) := by rw [idle]; rfl
    obtain ⟨after, step, position, left⟩ := taken (.call call) rest nofun own todo
    refine ⟨_, after, step, reach.step step, ?_⟩
    rw [position, left, todo, idle]
    simp only [List.length_cons, Pc.stepsLeft]
    omega
  · obtain ⟨map', pc', own, less⟩ := exists_step_inside idle (mutex_free_of_alone reach)
    obtain ⟨after, step, position, left⟩ := taken .run (config.todo ()) nofun own rfl
    refine ⟨_, after, step, reach.step step, ?_⟩
    rw [position, left]
    omega

theorem exists_done (script : List (Call Key Value)) : ∃ config,
    (alone script).Reachable config ∧ config.todo () = [] ∧ config.base.threads () = .idle := by
  let start : Program.Config Unit (Map Unit Key Value) (List (Call Key Value) × Pc Key Value) :=
    ⟨initial.shared, fun _ => (script, .idle)⟩
  have begins : (alone script).Initial start := ⟨⟨rfl, rfl⟩, fun _ => rfl⟩
  obtain ⟨trace, after, run, -, done⟩ :=
    TransitionSystem.exists_run_of_decreasing (motive := (alone script).Reachable) Nat.lt_wfRel.wf
      (fun config => 9 * (config.todo ()).length + (config.base.threads ()).stepsLeft)
      (fun reach => or_iff_not_imp_left.mpr (exists_step_alone reach)) (.initial begins)
  exact ⟨after, run.reachable (.initial begins), done⟩

end ConcurrentMap

namespace ConcurrentMap.Benchmark

/-! ## One iteration -/

/-- `MAP_SIZE`. -/
def mapSize : Nat := 100

/-- `NUMBER_OF_THREADS`. -/
def numberOfThreads : Nat := 4

/-- `std::string`. -/
abbrev Text := List Char

/-- `std::stoi`; `none` is an exception, for a text without a number and for a number that does not
fit into an int. -/
def stoi (text : Text) : Option Int :=
  (Decimal.read text).filter fun number => -2 ^ 31 ≤ number ∧ number < 2 ^ 31

/-- The calls of the first loop of `bench_body` when the calls of `rand` return `numbers`. -/
def fill (numbers : Nat → Fin (2 ^ 31)) : List (Call Nat Text) :=
  (List.range mapSize).map fun i => .update i (Decimal.write (numbers i).val)

/-- The contents in which the first loop may leave the map. -/
def Filled (numbers : Nat → Fin (2 ^ 31)) (data : Data Nat Text) : Prop :=
  ∃ config, (alone (fill numbers)).Reachable config ∧ config.todo () = [] ∧
    config.base.threads () = .idle ∧ config.shared.data = data

/-- Position of a thread in the lambda given to `std::async`. -/
inductive Worker
  /-- The round `i`, with the call of `Get` in progress. -/
  | loop (i : Nat) (sum : Int) (pc : Pc Nat Text)
  | returned (sum : Int)
  /-- An exception ends in the future, where nobody asks for it. -/
  | threw
  /-- The sum does not fit into an `int64_t`. -/
  | overflowed
  deriving DecidableEq

/-- `sum += std::stoi(value)` with the result of `Get`, and `++i`. -/
def afterGet (i : Nat) (sum : Int) : Result Nat Text → Worker
  | .got _ (some text) =>
      match stoi text with
      | some number =>
          if -2 ^ 63 ≤ sum + number ∧ sum + number < 2 ^ 63 then .loop (i + 1) (sum + number) .idle
          else .overflowed
      | none => .threw
  | _ => .threw

variable {Tid : Type*}

/-- One step of a thread that reads `range` times. -/
def workerStep (range : Nat) (thread : Tid) (action : Action Nat Text) (map : Map Tid Nat Text) :
    Worker → Option (Map Tid Nat Text × Worker)
  | .loop i sum .idle =>
      match action with
      | .run =>
          if i < range then
            (threadStep thread (.call (.get (i % mapSize))) map .idle).map fun result =>
              (result.1, .loop i sum result.2)
          else some (map, .returned sum)
      | _ => none
  | .loop i sum (.returning result) =>
      match action with
      | .run => (threadStep thread .run map (.returning result)).map fun next =>
          (next.1, afterGet i sum result)
      | _ => none
  | .loop i sum pc =>
      (threadStep thread action map pc).map fun result => (result.1, .loop i sum result.2)
  | .returned _ | .threw | .overflowed => none

/-- The threads of one iteration, and the map that they share. -/
def workers (Tid : Type*) (numbers : Nat → Fin (2 ^ 31)) (range : Nat) :
    Program Tid (Action Nat Text) (Map Tid Nat Text) Worker where
  Initial map threads := Filled numbers map.data ∧ map.mutex = none ∧
    threads = fun _ => .loop 0 0 .idle
  step := workerStep range

/-- The thread has left its lambda. -/
def Worker.finished : Worker → Bool
  | .loop _ _ _ => false
  | .returned _ | .threw | .overflowed => true

/-- One iteration: the futures are made one after the other, and their destructors join the threads
in some order. -/
def iteration (numbers : Nat → Fin (2 ^ 31)) (range : Fin (2 ^ 31))
    (joins : List (Fin numberOfThreads)) :
    TransitionSystem
      (ForkJoin.State (Fin numberOfThreads) (Map (Fin numberOfThreads) Nat Text) Worker)
      (ForkJoin.Label (Fin numberOfThreads) (Action Nat Text)) :=
  ForkJoin.system (workers _ numbers range.val) Worker.finished
    (ForkJoin.startThenJoin (List.finRange numberOfThreads) joins)

/-! ## What the first loop leaves -/

variable {numbers : Nat → Fin (2 ^ 31)} {data : Data Nat Text}

theorem lookup_foldl_update (value : Nat → Text) (keys : List Nat) (key : Nat) :
    ((keys.map fun i => Call.update i (value i)).foldl Call.plain data).lookup key =
      if key ∈ keys then some (value key) else data.lookup key := by
  induction keys generalizing data with
  | nil => simp
  | cons first keys ih =>
      rw [List.map_cons, List.foldl_cons, ih]
      by_cases hit : key = first
      · subst hit
        simp [Call.plain]
      · simp [Call.plain, hit]

theorem Filled.lookup (filled : Filled numbers data) {key : Nat} (small : key < mapSize) :
    data.lookup key = some (Decimal.write (numbers key).val) := by
  obtain ⟨config, reach, through, idle, rfl⟩ := filled
  obtain ⟨made, split, value⟩ := exists_made reach
  obtain rfl : made = fill numbers := by
    simpa [through, idle, Pc.pending, Pc.status, eq_comm] using split
  have free := mutex_free_of_alone reach (by rw [idle]; rfl)
  have same : config.shared.data = (fill numbers).foldl Call.plain ∅ := by
    rw [← value, settledData_of_free free]
    rfl
  rw [same, fill, lookup_foldl_update]
  simp [small]

theorem stoi_write (number : Fin (2 ^ 31)) : stoi (Decimal.write number.val) = some number.val := by
  have upper := number.isLt
  have fits : -2 ^ 31 ≤ (number.val : Int) ∧ (number.val : Int) < 2 ^ 31 := by omega
  rw [stoi, Decimal.read_write, Option.filter_some]
  exact if_pos (decide_eq_true fits)

/-! ## What the threads do -/

/-- The sum after the first rounds. -/
def total (numbers : Nat → Fin (2 ^ 31)) (rounds : Nat) : Int :=
  ((List.range rounds).map fun i => ((numbers (i % mapSize)).val : Int)).sum

theorem total_succ (rounds : Nat) :
    total numbers (rounds + 1) = total numbers rounds + (numbers (rounds % mapSize)).val := by
  simp [total, List.range_succ]

variable (numbers) in
theorem total_bounds (rounds : Nat) :
    0 ≤ total numbers rounds ∧ total numbers rounds ≤ rounds * 2 ^ 31 := by
  induction rounds with
  | zero => simp [total]
  | succ rounds ih =>
      have number := (numbers (rounds % mapSize)).isLt
      rw [total_succ]
      omega

/-- The sum of `int` many numbers fits into an `int64_t`. -/
theorem afterGet_text {i range : Nat} (more : i < range) (small : range < 2 ^ 31) (read : Nat) :
    afterGet i (total numbers i) (.got read (some (Decimal.write (numbers (i % mapSize)).val))) =
      .loop (i + 1) (total numbers (i + 1)) .idle := by
  have bounds := total_bounds numbers i
  have number := (numbers (i % mapSize)).isLt
  have fits : -2 ^ 63 ≤ total numbers i + (numbers (i % mapSize)).val ∧
      total numbers i + (numbers (i % mapSize)).val < 2 ^ 63 := by omega
  rw [afterGet, stoi_write, total_succ]
  exact if_pos fits

/-- Effects of every step of a thread. -/
inductive WorkerCase (range : Nat) (thread : Tid) (map : Map Tid Nat Text) :
    Action Nat Text → Worker → Map Tid Nat Text → Worker → Prop
  | call {i : Nat} (sum : Int) : i < range →
      WorkerCase range thread map .run (.loop i sum .idle) map
        (.loop i sum (.lock (.get (i % mapSize))))
  | leave {i : Nat} (sum : Int) : ¬ i < range →
      WorkerCase range thread map .run (.loop i sum .idle) map (.returned sum)
  | add (i : Nat) (sum : Int) (result : Result Nat Text) :
      WorkerCase range thread map .run (.loop i sum (.returning result)) map (afterGet i sum result)
  | inside {action : Action Nat Text} {map' : Map Tid Nat Text} {pc pc' : Pc Nat Text} (i : Nat)
      (sum : Int) : pc ≠ .idle → (∀ result, pc ≠ .returning result) →
      StepCase thread map action pc map' pc' →
      WorkerCase range thread map action (.loop i sum pc) map' (.loop i sum pc')

variable {range : Nat} {thread : Tid} {map map' : Map Tid Nat Text} {worker worker' : Worker}
  {action : Action Nat Text}

theorem workerStep_cases (step : workerStep range thread action map worker = some (map', worker')) :
    WorkerCase range thread map action worker map' worker' := by
  unfold workerStep at step
  split at step
  · split at step
    · split at step
      · cases step
        exact .call _ ‹_›
      · cases step
        exact .leave _ ‹_›
    · simp at step
  · split at step
    · cases step
      exact .add _ _ _
    · simp at step
  · obtain ⟨⟨data, pc⟩, own, same⟩ := Option.map_eq_some_iff.mp step
    cases same
    exact .inside _ _ ‹_› ‹_› (threadStep_cases own)
  · simp at step
  · simp at step
  · simp at step

/-- The thread holds the mutex. -/
def Worker.holds : Worker → Bool
  | .loop _ _ pc => pc.holds
  | .returned _ | .threw | .overflowed => false

/-- What a thread knows of its call of `Get`; an exception is possible only where `mayThrow` says
so. -/
def GetFact (numbers : Nat → Fin (2 ^ 31)) (mayThrow : Prop) (key : Nat) : Pc Nat Text → Prop
  | .lock call => call = .get key
  | .getFind read => read = key
  | .unlock result | .returning result =>
      result = .got key (some (Decimal.write (numbers key).val)) ∨ result = .threw ∧ mayThrow
  | _ => False

/-- What a thread knows of its sum. -/
def SumFact (numbers : Nat → Fin (2 ^ 31)) (range : Nat) (mayThrow : Prop) : Worker → Prop
  | .loop i sum pc => i ≤ range ∧ sum = total numbers i ∧
      (pc = .idle ∨ i < range ∧ GetFact numbers mayThrow (i % mapSize) pc)
  | .returned sum => sum = total numbers range
  | .threw => mayThrow
  | .overflowed => False

/-- The assertion of one thread. -/
structure WorkerAssertion (numbers : Nat → Fin (2 ^ 31)) (range : Nat) (mayThrow : Prop)
    (thread : Tid) (map : Map Tid Nat Text) (worker : Worker) : Prop where
  held : map.mutex = some thread ↔ worker.holds = true
  sum : SumFact numbers range mayThrow worker

variable {mayThrow : Prop}

theorem GetFact.step {pc pc' : Pc Nat Text} {key : Nat} (fact : GetFact numbers mayThrow key pc)
    (small : key < mapSize) (filled : Filled numbers map.data)
    (quiet : action = .throw → mayThrow) (step : StepCase thread map action pc map' pc')
    (stays : ∀ result, pc ≠ .returning result) :
    map'.data = map.data ∧ GetFact numbers mayThrow key pc' := by
  cases step with
  | call => exact fact.elim
  | ret result => exact absurd rfl (stays result)
  | lock call =>
      obtain rfl : call = .get key := fact
      exact ⟨rfl, rfl⟩
  | unlock result => exact ⟨rfl, fact⟩
  | inside taken =>
      cases taken with
      | get read =>
          obtain rfl : read = key := fact
          exact ⟨rfl, Or.inl (by rw [filled.lookup small])⟩
      | throwCleanly => exact ⟨rfl, Or.inr ⟨rfl, quiet rfl⟩⟩
      | _ => exact fact.elim

theorem held_of_step {pc pc' : Pc Nat Text} (step : StepCase thread map action pc map' pc')
    (held : map.mutex = some thread ↔ pc.holds = true) :
    (map'.mutex = some thread ↔ pc'.holds = true) ∧
      ∀ other, other ≠ thread → (map'.mutex = some other ↔ map.mutex = some other) := by
  cases step with
  | call | ret => exact ⟨held, fun _ _ => Iff.rfl⟩
  | lock call free =>
      refine ⟨by simp [entry_holds], fun other foreign => ?_⟩
      simp [free, foreign.symm]
  | unlock result =>
      refine ⟨by simp [Pc.holds], fun other foreign => ?_⟩
      simp [held.mpr rfl, foreign.symm]
  | inside taken =>
      obtain ⟨holds, holds', mutex⟩ := taken.holds
      refine ⟨?_, fun other _ => by rw [mutex]⟩
      simp [mutex, holds', held.mpr holds]

/-- A step of one thread keeps its own assertion, and what the others know. -/
theorem WorkerAssertion.step (small : range < 2 ^ 31)
    (assertion : WorkerAssertion numbers range mayThrow thread map worker)
    (filled : Filled numbers map.data) (quiet : action = .throw → mayThrow)
    (step : WorkerCase range thread map action worker map' worker') :
    map'.data = map.data ∧ WorkerAssertion numbers range mayThrow thread map' worker' ∧
      ∀ other, other ≠ thread → (map'.mutex = some other ↔ map.mutex = some other) := by
  obtain ⟨held, sum⟩ := assertion
  cases step with
  | call sum' more =>
      obtain ⟨-, sum, -⟩ := sum
      exact ⟨rfl, ⟨held, more.le, sum, Or.inr ⟨more, rfl⟩⟩, fun _ _ => Iff.rfl⟩
  | leave sum' done =>
      obtain ⟨le, sum, -⟩ := sum
      obtain rfl := Nat.le_antisymm le (Nat.le_of_not_lt done)
      exact ⟨rfl, ⟨held, sum⟩, fun _ _ => Iff.rfl⟩
  | add i sum' result =>
      obtain ⟨-, rfl, pending | ⟨more, rfl | ⟨rfl, may⟩⟩⟩ := sum
      · simp at pending
      · rw [afterGet_text more small]
        exact ⟨rfl, ⟨held, more, rfl, Or.inl rfl⟩, fun _ _ => Iff.rfl⟩
      · exact ⟨rfl, ⟨held, may⟩, fun _ _ => Iff.rfl⟩
  | inside i sum' busy stays taken =>
      obtain ⟨le, same, idle | ⟨more, fact⟩⟩ := sum
      · exact absurd idle busy
      · obtain ⟨data, fact'⟩ := fact.step (Nat.mod_lt _ (by decide)) filled quiet taken stays
        obtain ⟨held', others⟩ := held_of_step taken held
        exact ⟨data, ⟨held', le, same, Or.inr ⟨more, fact'⟩⟩, others⟩

section Runs

variable {range : Fin (2 ^ 31)} {joins : List (Fin numberOfThreads)}
  {throwers : Set (Fin numberOfThreads)}
  {config : Program.Config (Fin numberOfThreads) (Map (Fin numberOfThreads) Nat Text) Worker}
  {state : ForkJoin.State (Fin numberOfThreads) (Map (Fin numberOfThreads) Nat Text) Worker}

/-- Exceptions are thrown in some of the threads only. -/
def ThrowsOnlyIn (throwers : Set (Fin numberOfThreads))
    (_ : Program.Config (Fin numberOfThreads) (Map (Fin numberOfThreads) Nat Text) Worker)
    (label : Fin numberOfThreads × Action Nat Text)
    (_ : Program.Config (Fin numberOfThreads) (Map (Fin numberOfThreads) Nat Text) Worker) : Prop :=
  label.2 = .throw → label.1 ∈ throwers

theorem workerAssertion_of_reachable
    (reach : ((workers _ numbers range.val).system.restrict (ThrowsOnlyIn throwers)).Reachable
      config) : Filled numbers config.shared.data ∧ ∀ thread,
        WorkerAssertion numbers range.val (thread ∈ throwers) thread config.shared
          (config.threads thread) := by
  refine Program.invariant_of_assertions (fun map => Filled numbers map.data)
    (fun thread => WorkerAssertion numbers range.val (thread ∈ throwers) thread) ?_ ?_ reach
  · rintro map threads ⟨filled, free, rfl⟩
    refine ⟨filled, fun thread => ⟨by simp [free, Worker.holds, Pc.holds], Nat.zero_le _, rfl,
      Or.inl rfl⟩⟩
  · intro before after thread action map' worker' asserted filled own quiet
    obtain ⟨same, mine, others⟩ :=
      (asserted thread).step range.isLt filled quiet (workerStep_cases own)
    refine ⟨by rwa [same], mine, fun other _ foreign assertion => ⟨?_, assertion.sum⟩⟩
    rw [others other foreign]
    exact assertion.held

theorem final_finished : ForkJoin.Final (workers (Fin numberOfThreads) numbers range.val)
    Worker.finished := by
  intro thread action map worker finished
  cases worker with
  | loop => simp [Worker.finished] at finished
  | returned | threw | overflowed => rfl

/-- When the main thread is through, every thread has computed its sum, or has thrown. -/
theorem sums_of_through
    (reach : ((iteration numbers range joins).restrict
      (ForkJoin.Permits (ThrowsOnlyIn throwers))).Reachable state)
    (every : ∀ thread, thread ∈ joins) (through : state.commands = []) :
    Filled numbers state.config.shared.data ∧ ∀ thread,
      state.config.threads thread = .returned (total numbers range.val) ∨
        thread ∈ throwers ∧ state.config.threads thread = .threw := by
  obtain ⟨filled, asserted⟩ := workerAssertion_of_reachable (ForkJoin.reachable_config reach)
  refine ⟨filled, fun thread => ?_⟩
  have joined : ForkJoin.Command.join thread ∈
      ForkJoin.startThenJoin (List.finRange numberOfThreads) joins := by
    simp [ForkJoin.startThenJoin, every]
  have finished := ForkJoin.finished_of_join final_finished reach.of_restrict through joined
  have sum := (asserted thread).sum
  cases position : state.config.threads thread with
  | loop => simp [position, Worker.finished] at finished
  | returned sum' =>
      rw [position] at sum
      exact Or.inl (congrArg _ sum)
  | threw =>
      rw [position] at sum
      exact Or.inr ⟨sum, rfl⟩
  | overflowed =>
      rw [position] at sum
      exact sum.elim

/-! ## Every iteration ends -/

/-- A bound for the steps of the call in progress. -/
def stage : Pc Nat Text → Nat
  | .idle => 4
  | .lock _ => 3
  | .getFind _ => 2
  | .unlock _ => 1
  | _ => 0

/-- A bound for the steps of a thread. -/
def weight (range : Nat) : Worker → Nat
  | .loop i _ pc => 5 * (range - i) + stage pc
  | .returned _ | .threw | .overflowed => 0

theorem weight_afterGet (range i : Nat) (sum : Int) (result : Result Nat Text) :
    weight range (afterGet i sum result) ≤ 5 * (range - (i + 1)) + 4 := by
  unfold afterGet
  split
  · split
    · split
      · rfl
      · exact Nat.zero_le _
    · exact Nat.zero_le _
  · exact Nat.zero_le _

theorem weight_lowers {range : Nat} {thread : Tid} {map map' : Map Tid Nat Text}
    {worker worker' : Worker} {action : Action Nat Text} {mayThrow : Prop}
    (sum : SumFact numbers range mayThrow worker)
    (step : WorkerCase range thread map action worker map' worker') :
    weight range worker' < weight range worker := by
  cases step with
  | call => simp [weight, stage]
  | leave => simp [weight, stage]
  | add i sum' result =>
      obtain ⟨-, -, pending | ⟨more, -⟩⟩ := sum
      · simp at pending
      · have bound := weight_afterGet range i sum' result
        simp only [weight, stage] at bound ⊢
        omega
  | @inside _ _ pc pc' i sum' busy stays taken =>
      obtain ⟨-, -, idle | ⟨-, fact⟩⟩ := sum
      · exact absurd idle busy
      · have lower : stage pc' < stage pc := by
          cases taken with
          | call => exact fact.elim
          | ret result => exact absurd rfl (stays result)
          | lock call =>
              obtain rfl : call = .get (i % mapSize) := fact
              simp [entry, stage]
          | unlock => simp [stage]
          | inside inner =>
              cases inner with
              | get => simp [stage]
              | throwCleanly throws =>
                  cases pc with
                  | getFind => simp [stage]
                  | updateAllocate | updateCopyKey | updateConstruct | fetchFind | fetchHandler
                  | dumpCopy => exact fact.elim
                  | _ => simp [Pc.throwsCleanly] at throws
              | _ => exact fact.elim
        simp only [weight]
        omega

theorem isSome_workerStep {range : Nat} {thread : Tid} {map : Map Tid Nat Text} {i : Nat}
    {sum : Int} {pc : Pc Nat Text} {mayThrow : Prop}
    (fact : SumFact numbers range mayThrow (.loop i sum pc))
    (free : pc.holds = false → map.mutex = none) :
    (workerStep range thread .run map (.loop i sum pc)).isSome = true := by
  obtain ⟨-, -, rfl | ⟨more, fact⟩⟩ := fact
  · by_cases more : i < range <;> simp [workerStep, more, threadStep]
  · cases pc with
    | lock call => simp [workerStep, threadStep, free rfl]
    | getFind | unlock | returning => rfl
    | _ => exact fact.elim

theorem finished_of_stuck
    (reach : ((workers _ numbers range.val).system.restrict (ThrowsOnlyIn throwers)).Reachable
      config)
    (stuck : ∀ label next, ¬ ((workers _ numbers range.val).system.restrict
      (ThrowsOnlyIn throwers)).Step config label next) (thread : Fin numberOfThreads) :
    (config.threads thread).finished = true := by
  obtain ⟨-, asserted⟩ := workerAssertion_of_reachable reach
  have runs {thread : Fin numberOfThreads} {i : Nat} {sum : Int} {pc : Pc Nat Text}
      (position : config.threads thread = .loop i sum pc) :
      ¬ (pc.holds = false → config.shared.mutex = none) := by
    intro free
    have fact := (asserted thread).sum
    rw [position] at fact
    have enabled :
        (workerStep range.val thread .run config.shared (.loop i sum pc)).isSome = true :=
      isSome_workerStep fact free
    obtain ⟨⟨map, worker⟩, own⟩ := Option.isSome_iff_exists.mp enabled
    refine stuck (thread, .run) _ ⟨Program.system_step_iff.mpr ⟨map, worker, ?_, rfl⟩, nofun⟩
    rw [position]
    exact own
  cases position : config.threads thread with
  | returned | threw | overflowed => rfl
  | loop i sum pc =>
      -- whoever holds the mutex can go on, and so can everybody while it is free
      refine absurd (fun _ => ?_) (runs position)
      rw [Option.eq_none_iff_forall_ne_some]
      intro holder held
      have holds := (asserted holder).held.mp held
      cases position' : config.threads holder with
      | loop i' sum' pc' =>
          rw [position'] at holds
          exact runs position' fun free => absurd holds (by simp [Worker.holds, free])
      | _ => simp [position', Worker.holds] at holds

theorem inevitable_through (throwers : Set (Fin numberOfThreads))
    (initial : (iteration numbers range joins).Initial state) :
    ((iteration numbers range joins).restrict
      (ForkJoin.Permits (ThrowsOnlyIn throwers))).InevitableDespite (ForkJoin.noisy fun _ => false)
        (fun state => state.commands = []) state := by
  refine ForkJoin.inevitable_of_threads
    (motive := ((workers _ numbers range.val).system.restrict (ThrowsOnlyIn throwers)).Reachable)
    final_finished List.mem_finRange
    (fun config => Program.sumThreads (weight range.val) config.threads) (fun _ => false) 0
    (fun start => .initial start) ?_ ?_ initial
  · rintro before ⟨thread, action⟩ after reach step
    refine ⟨reach.step step, ?_⟩
    obtain ⟨map', worker', own, rfl⟩ := Program.system_step_iff.mp step.1
    have lower := weight_lowers ((workerAssertion_of_reachable reach).2 thread).sum
      (workerStep_cases own)
    have change := Program.sumThreads_update (weight range.val) before.threads thread worker'
    simp only [Bool.toNat_false]
    omega
  · intro config reach stuck thread _
    exact finished_of_stuck reach (fun label next step => by simpa using stuck label next step)
      thread

/-- Whatever the interleaving and whatever throws, an iteration comes to its end, where every thread
has computed the sum of the numbers that it was to read, unless something threw in this very thread;
the map is as it was. -/
theorem iteration_sums (throwers : Set (Fin numberOfThreads)) (every : ∀ thread, thread ∈ joins)
    (initial : (iteration numbers range joins).Initial state) :
    ((iteration numbers range joins).restrict
      (ForkJoin.Permits (ThrowsOnlyIn throwers))).Inevitable (fun state => state.commands = [] ∧
        Filled numbers state.config.shared.data ∧ ∀ thread,
          state.config.threads thread = .returned (total numbers range.val) ∨
            thread ∈ throwers ∧ state.config.threads thread = .threw) state := by
  refine ((inevitable_through throwers initial).widen (.initial initial) ?_).inevitable ?_
  · exact fun reach through => ⟨through, sums_of_through reach every through⟩
  · exact fun label => by cases label <;> rfl

end Runs

/-- Two rounds over the number 7, joined from the first future on. -/
theorem iteration_sums_two : ∃ state : ForkJoin.State (Fin numberOfThreads)
    (Map (Fin numberOfThreads) Nat Text) Worker,
    state.commands = [] ∧ ∀ thread, state.config.threads thread = .returned 14 := by
  obtain ⟨config, reach, through, idle⟩ := exists_done (fill fun _ => 7)
  let start : ForkJoin.State (Fin numberOfThreads) (Map (Fin numberOfThreads) Nat Text) Worker :=
    ⟨⟨⟨config.shared.data, none, []⟩, fun _ => .loop 0 0 .idle⟩, ∅,
      ForkJoin.startThenJoin (List.finRange numberOfThreads) (List.finRange numberOfThreads)⟩
  have initial : (iteration (fun _ => 7) 2 (List.finRange numberOfThreads)).Initial start :=
    ⟨⟨⟨config, reach, through, idle, rfl⟩, rfl, rfl⟩, rfl, rfl⟩
  obtain ⟨trace, after, -, ended, -, sums⟩ :=
    (iteration_sums ∅ List.mem_finRange initial).exists_run
  exact ⟨after, ended, fun thread => (sums thread).resolve_right fun threw => threw.1⟩

end ConcurrentMap.Benchmark
end ConcurrencyCourse
