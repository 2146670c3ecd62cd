import ConcurrencyCourse.Sorting.Unwinding

/-!
# The threads of multithreaded_sort

Every division of a range creates a thread, so the number of threads follows from the length of the
range: it is about half of it at least and two thirds at most.  The sort ends: apart from the writes
of `std::nth_element` its steps are bounded, and from every state it can go on to its end.
-/

namespace ConcurrencyCourse
namespace Sorting

open Slice

/-- Number of threads that sorting a range of this length creates. -/
def threadsFor (distance : Nat) : Nat :=
  if _short : distance ≤ 1 then 0
  else 1 + threadsFor (distance / 2) + threadsFor (distance - distance / 2 - 1)
termination_by distance
decreasing_by all_goals omega

/-- At least half of the length, at most two thirds. -/
theorem threadsFor_bounds (distance : Nat) :
    distance / 2 ≤ threadsFor distance ∧ 3 * threadsFor distance ≤ 2 * distance - 1 := by
  induction distance using Nat.strong_induction_on with
  | _ distance ih =>
      rw [threadsFor]
      split
      · omega
      · have left := ih (distance / 2) (by omega)
        have right := ih (distance - distance / 2 - 1) (by omega)
        omega

variable {Value : Type*} [LinearOrder Value]

namespace Frame

omit [LinearOrder Value] in
/-- Number of threads created by an activation and by those below it. -/
def created : Frame Value → Nat
  | .divided _ _ asyncTask own | .joined _ _ asyncTask own | .unwound _ _ asyncTask own =>
      1 + asyncTask.created + own.created
  | _ => 0

omit [LinearOrder Value] in
/-- Number of threads that are still to be created. -/
def toCreate : Frame Value → Nat
  | .entered first last | .selecting first last _ | .selected first last =>
      threadsFor (last - first)
  | .divided _ _ asyncTask own => asyncTask.toCreate + own.toCreate
  | _ => 0

omit [LinearOrder Value] in
/-- Number of steps that are still to be made at most, apart from writes. -/
def stepsLeft : Frame Value → Nat
  | .entered first last => 5 * (last - first) + 1
  | .selecting first last _ => 5 * (last - first)
  | .selected first last => 5 * (last - first) - 1
  | .divided _ _ asyncTask own => 1 + asyncTask.stepsLeft + own.stepsLeft
  | _ => 0

omit [LinearOrder Value] in
/-- Some activation has been left by an exception. -/
def failed : Frame Value → Bool
  | .threw _ _ | .unwound _ _ _ _ => true
  | .divided _ _ asyncTask own => asyncTask.failed || own.failed
  | _ => false

omit [LinearOrder Value] in
theorem toCreate_of_left {frame : Frame Value} (left : frame.left = true) :
    frame.toCreate = 0 := by
  cases frame with
  | returned | joined | threw | unwound => rfl
  | _ => simp [Frame.left, isReturned, hasThrown] at left

omit [LinearOrder Value] in
theorem failed_of_throwing {frame : Frame Value} (throwing : frame.throwing = true) :
    frame.failed = true := by
  induction frame with
  | threw | unwound => rfl
  | divided _ _ _ _ _ own => simp [failed, own throwing]
  | _ => simp [Frame.throwing] at throwing

omit [LinearOrder Value] in
theorem failed_of_escapes {frame : Frame Value} (escapes : frame.escapes = true) :
    frame.failed = true := by
  induction frame with
  | divided _ _ _ _ asyncTask own =>
      simp only [Frame.escapes, Bool.or_eq_true] at escapes
      simp only [failed, Bool.or_eq_true]
      exact escapes.imp (Or.rec failed_of_throwing asyncTask) own
  | _ => simp [Frame.escapes] at escapes

omit [LinearOrder Value] in
theorem throwing_of_hasThrown {frame : Frame Value} (thrown : frame.hasThrown = true) :
    frame.throwing = true := by
  cases frame with
  | threw | unwound => rfl
  | _ => simp [hasThrown] at thrown

omit [LinearOrder Value] in
theorem isReturned_of_clean {frame : Frame Value} (clean : frame.failed = false)
    (ends : frame.left = true ∨ frame.escapes = true) : frame.isReturned = true := by
  rcases ends with left | escapes
  · by_contra running
    have thrown : frame.hasThrown = true := by simpa [Frame.left, running] using left
    simp [failed_of_throwing (throwing_of_hasThrown thrown)] at clean
  · simp [failed_of_escapes escapes] at clean

end Frame

omit [LinearOrder Value] in
/-- A write of `std::nth_element`. -/
def Event.writes : Event Value → Bool
  | .write _ _ => true
  | _ => false

variable {data data' : Contents Value} {frame frame' : Frame Value} {event : Event Value}
  {entry : List Value}

theorem dividePoint_distances {first last : Nat} (wide : 1 < last - first) :
    dividePoint first last - first = (last - first) / 2 ∧
      last - (dividePoint first last + 1) = last - first - (last - first) / 2 - 1 := by
  unfold dividePoint
  omega

/-- Dividing a range creates the thread that was to be created, and a failure creates none. -/
theorem FrameCase.threads (progress : Progress entry data frame.forget)
    (step : FrameCase event data frame data' frame') :
    frame'.created + frame'.toCreate ≤ frame.created + frame.toCreate ∧
      (event ≠ .fail →
        frame'.created + frame'.toCreate = frame.created + frame.toCreate) := by
  induction step generalizing entry with
  | short short => simp [Frame.created, Frame.toCreate, threadsFor, short]
  | select | write | selected => exact ⟨le_rfl, fun _ => rfl⟩
  | @divide _ first last =>
      cases progress with
      | selected wide =>
          obtain ⟨left, right⟩ := dividePoint_distances wide
          have split : threadsFor (last - first) = 1 + threadsFor ((last - first) / 2) +
              threadsFor (last - first - (last - first) / 2 - 1) := by
            rw [threadsFor, dif_neg (by omega)]
          simp only [Frame.created, Frame.toCreate, left, right]
          omega
  | fail => exact ⟨by simp [Frame.created, Frame.toCreate], fun works => absurd rfl works⟩
  | join own asyncTask =>
      simp [Frame.created, Frame.toCreate, Frame.toCreate_of_left, Frame.left, own, asyncTask]
  | unwind own asyncTask =>
      simp [Frame.created, Frame.toCreate, Frame.toCreate_of_left, Frame.left, own, asyncTask]
  | asyncTask _ ih =>
      cases progress with
      | divided _ _ _ _ _ _ _ _ below =>
          obtain ⟨less, same⟩ := ih below
          simp only [Frame.created, Frame.toCreate]
          exact ⟨by omega, fun works => by have := same works; omega⟩
  | own _ ih =>
      cases progress with
      | divided _ _ _ _ _ _ _ _ _ below =>
          obtain ⟨less, same⟩ := ih below
          simp only [Frame.created, Frame.toCreate]
          exact ⟨by omega, fun works => by have := same works; omega⟩

/-- Every step but the writes brings the end nearer. -/
theorem FrameCase.stepsLeft (progress : Progress entry data frame.forget)
    (step : FrameCase event data frame data' frame') :
    frame'.stepsLeft + 1 ≤ frame.stepsLeft + 1 * event.writes.toNat := by
  induction step generalizing entry with
  | short | select | write => simp [Frame.stepsLeft, Event.writes]
  | join | unwind =>
      simp only [Frame.stepsLeft, Event.writes, Bool.toNat_false]
      omega
  | selected =>
      cases progress with
      | selecting wide =>
          simp only [Frame.stepsLeft, Event.writes, Bool.toNat_false]
          omega
  | fail =>
      cases progress with
      | selected wide =>
          simp only [Frame.stepsLeft, Event.writes, Bool.toNat_false]
          omega
  | divide =>
      cases progress with
      | selected wide =>
          obtain ⟨left, right⟩ := dividePoint_distances wide
          simp only [Frame.stepsLeft, Event.writes, Bool.toNat_false, left, right]
          omega
  | asyncTask _ ih =>
      cases progress with
      | divided _ _ _ _ _ _ _ _ below =>
          have less := ih below
          simp only [Frame.stepsLeft]
          omega
  | own _ ih =>
      cases progress with
      | divided _ _ _ _ _ _ _ _ _ below =>
          have less := ih below
          simp only [Frame.stepsLeft]
          omega

/-- Without a failing thread creation nothing is thrown. -/
theorem FrameCase.failed (step : FrameCase event data frame data' frame') (works : event ≠ .fail)
    (clean : frame.failed = false) : frame'.failed = false := by
  induction step with
  | short | select | write | selected | divide | join => rfl
  | fail => exact absurd rfl works
  | unwind own =>
      simp [Frame.failed, Frame.failed_of_throwing (Frame.throwing_of_hasThrown own)] at clean
  | asyncTask _ ih =>
      simp only [Frame.failed, Bool.or_eq_false_iff] at clean ⊢
      exact ⟨ih works clean.1, clean.2⟩
  | own _ ih =>
      simp only [Frame.failed, Bool.or_eq_false_iff] at clean ⊢
      exact ⟨clean.1, ih works clean.2⟩

/-! ## The way to the end -/

section Completion

variable {original : Contents Value} {first last first' last' : Nat} {start final : Attempt Value}
  {trace : List (List Child × Event Value)}

/-- No thread creation fails. -/
def Works (trace : List (List Child × Event Value)) : Prop := ∀ label ∈ trace, label.2 ≠ .fail

omit [LinearOrder Value] in
theorem Works.append {rest : List (List Child × Event Value)} (works : Works trace)
    (works' : Works rest) : Works (trace ++ rest) :=
  fun label member => (List.mem_append.mp member).elim (works label) (works' label)

omit [LinearOrder Value] in
theorem works_nil : Works ([] : List (List Child × Event Value)) :=
  fun _ member => absurd member List.not_mem_nil

omit [LinearOrder Value] in
theorem works_singleton {path : List Child} (succeeds : event ≠ .fail) :
    Works [(path, event)] := by
  intro label member
  obtain rfl := List.mem_singleton.mp member
  exact succeeds

theorem exists_step_of_root {path : List Child} {event : Event Value}
    (step : frame.stepAt event data path = some (data', frame')) :
    (attempts original first last).Step ⟨data, frame⟩ (path, event) ⟨data', frame'⟩ :=
  Option.map_eq_some_iff.mpr ⟨_, step, rfl⟩

omit [LinearOrder Value] in
/-- A divided activation with one of its children and the other one. -/
def Frame.above (child : Child) (first last : Nat) (sibling frame : Frame Value) : Frame Value :=
  match child with
  | .asyncTask => .divided first last frame sibling
  | .own => .divided first last sibling frame

theorem run_above (child : Child) (sibling : Frame Value)
    (run : (attempts original first last).Run start trace final) :
    (attempts original first last).Run
      ⟨start.data, .above child first' last' sibling start.frame⟩
      (trace.map fun label => (child :: label.1, label.2))
      ⟨final.data, .above child first' last' sibling final.frame⟩ := by
  induction run with
  | nil => exact .nil
  | snoc _ step ih =>
      rw [List.map_append]
      refine ih.snoc ?_
      obtain ⟨⟨data', frame'⟩, taken, rfl⟩ := Option.map_eq_some_iff.mp step
      refine exists_step_of_root ?_
      cases child <;> simp [Frame.stepAt, Frame.above, taken]

omit [LinearOrder Value] in
theorem Works.above (child : Child) (works : Works trace) :
    Works (trace.map fun label => (child :: label.1, label.2)) := by
  intro label member
  obtain ⟨inner, inside, rfl⟩ := List.mem_map.mp member
  exact works inner inside

/-- `std::nth_element` can write the elements that it chooses one after the other. -/
theorem exists_run_writes (target : Contents Value) {count : Nat} (fits : count ≤ last' - first') :
    ∃ trace data', (attempts original first last).Run ⟨data, .selecting first' last' entry⟩ trace
      ⟨data', .selecting first' last' entry⟩ ∧ Works trace ∧
        ∀ index, first' ≤ index → index < first' + count → data' index = target index := by
  induction count with
  | zero => exact ⟨[], data, .nil, works_nil, fun index lower upper => by omega⟩
  | succ count ih =>
      obtain ⟨trace, data', run, works, written⟩ := ih (by omega)
      refine ⟨trace ++ [([], .write (first' + count) (target (first' + count)))],
        Function.update data' (first' + count) (target (first' + count)),
        run.snoc (exists_step_of_root ?_), works.append (works_singleton (by simp)),
        fun index lower upper => ?_⟩
      · have inside : first' ≤ first' + count ∧ first' + count < last' := by omega
        simp [Frame.stepAt, Frame.step, inside]
      · by_cases same : index = first' + count
        · subst same
          simp
        · rw [Function.update_of_ne same]
          exact written index lower (by omega)

theorem exists_run_select (wide : 1 < last' - first') (length : entry.length = last' - first') :
    ∃ trace data', (attempts original first last).Run ⟨data, .selecting first' last' entry⟩ trace
      ⟨data', .selected first' last'⟩ ∧ Works trace := by
  have lower := first_lt_dividePoint wide
  have upper := dividePoint_lt_last wide
  -- the elements in ascending order meet the contract
  let found := store data first' entry
  let target := sortingNthElement found first' (dividePoint first' last') last'
  have chosen : Selected entry target first' (dividePoint first' last') last' := by
    have selected := sortingNthElement_lawful.selected found lower.le upper
    rwa [show slice found first' last' = entry from slice_store length] at selected
  obtain ⟨trace, data', run, works, written⟩ : ∃ trace data', (attempts original first last).Run
      ⟨data, .selecting first' last' entry⟩ trace ⟨data', .selecting first' last' entry⟩ ∧
        Works trace ∧ ∀ index, first' ≤ index → index < first' + (last' - first') →
          data' index = target index := exists_run_writes target le_rfl
  have selected : Selected entry data' first' (dividePoint first' last') last' :=
    chosen.congr lower.le upper fun index below above => (written index below (by omega)).symm
  refine ⟨trace ++ [([], .run)], data', run.snoc (exists_step_of_root ?_),
    works.append (works_singleton (by simp))⟩
  simp [Frame.stepAt, Frame.step, selected]

theorem Progress.run (progress : Progress entry start.data start.frame.forget)
    (run : (attempts original first last).Run start trace final) :
    Progress entry final.data final.frame.forget := by
  induction run with
  | nil => exact progress
  | snoc _ step ih =>
      rcases (attempt_step_cases step).forget with change | ⟨same, stands⟩
      · exact ih.step change
      · rw [same, stands]
        exact ih

theorem exists_step_leave {asyncTask own : Frame Value} (returned : asyncTask.isReturned = true)
    (left : own.left = true) : ∃ frame', (attempts original first last).Step
      ⟨data, .divided first' last' asyncTask own⟩ ([], .run) ⟨data, frame'⟩ ∧
        frame'.left = true := by
  cases ownReturned : own.isReturned with
  | true =>
      refine ⟨.joined first' last' asyncTask own, exists_step_of_root ?_, rfl⟩
      simp [Frame.stepAt, Frame.step, returned, ownReturned]
  | false =>
      have thrown : own.hasThrown = true := by simpa [Frame.left, ownReturned] using left
      refine ⟨.unwound first' last' asyncTask own, exists_step_of_root ?_, rfl⟩
      simp [Frame.stepAt, Frame.step, returned, ownReturned, thrown]

/-- The call can go on, without a failure, until it is left or an exception has reached the bottom
of a thread. -/
def Completes (original : Contents Value) (first last : Nat) (data : Contents Value)
    (frame : Frame Value) : Prop :=
  ∃ trace final, (attempts original first last).Run ⟨data, frame⟩ trace final ∧ Works trace ∧
    (final.frame.left = true ∨ final.frame.escapes = true)

theorem Completes.onward (run : (attempts original first last).Run start trace final)
    (works : Works trace) (completes : Completes original first last final.data final.frame) :
    Completes original first last start.data start.frame := by
  obtain ⟨rest, last, run', works', ends⟩ := completes
  exact ⟨_, last, run.append run', works.append works', ends⟩

/-- A divided activation completes when the child in its own thread does, and then the other. -/
theorem Completes.divided {asyncTask own : Frame Value}
    (progress : Progress entry data (Frame.divided first' last' asyncTask own).forget)
    (below : Completes original first last data asyncTask)
    (beside : ∀ data' asyncTask',
      Progress entry data' (Frame.divided first' last' asyncTask' own).forget →
        Completes original first last data' own) :
    Completes original first last data (.divided first' last' asyncTask own) := by
  obtain ⟨trace, ⟨data', asyncTask'⟩, run, works, ends⟩ := below
  have run' : (attempts original first last).Run ⟨data, .divided first' last' asyncTask own⟩
      (trace.map fun label => (.asyncTask :: label.1, label.2))
      ⟨data', .divided first' last' asyncTask' own⟩ := run_above .asyncTask own run
  have escaped (thrown : asyncTask'.throwing = true ∨ asyncTask'.escapes = true) :
      Completes original first last data (.divided first' last' asyncTask own) :=
    ⟨_, _, run', works.above .asyncTask, Or.inr (by
      simp only [Frame.escapes, Bool.or_eq_true]
      exact Or.inl thrown)⟩
  rcases ends with left | escapes
  · cases returned : asyncTask'.isReturned with
    | false =>
        refine escaped (Or.inl (Frame.throwing_of_hasThrown ?_))
        simpa [Frame.left, returned] using left
    | true =>
        refine .onward run' (works.above .asyncTask) ?_
        obtain ⟨trace, ⟨data', own'⟩, run, works, ends⟩ :=
          beside data' asyncTask' (progress.run run')
        have run'' : (attempts original first last).Run
            ⟨_, .divided first' last' asyncTask' own⟩
            (trace.map fun label => (.own :: label.1, label.2))
            ⟨data', .divided first' last' asyncTask' own'⟩ := run_above .own asyncTask' run
        refine .onward run'' (works.above .own) ?_
        rcases ends with left | escapes
        · obtain ⟨frame', step, left'⟩ := exists_step_leave returned left
          exact ⟨_, _, .cons step .nil, works_singleton (by simp), Or.inl left'⟩
        · refine ⟨[], _, .nil, works_nil, Or.inr ?_⟩
          simp only [Frame.escapes, Bool.or_eq_true]
          exact Or.inr escapes
  · exact escaped (Or.inr escapes)

theorem completes (progress : Progress entry data frame.forget)
    (length : entry.length = frame.forget.last - frame.forget.first) :
    Completes original first last data frame := by
  -- by induction on the number of steps that are left
  induction rank : frame.stepsLeft using Nat.strong_induction_on
    generalizing data frame entry with
  | _ rank ih =>
      subst rank
      have onward {trace : List (List Child × Event Value)} {data' : Contents Value}
          {frame' : Frame Value} (run : (attempts original first last).Run ⟨data, frame⟩ trace
            ⟨data', frame'⟩) (works : Works trace) (less : frame'.stepsLeft < frame.stepsLeft)
          (length' : entry.length = frame'.forget.last - frame'.forget.first) :
          Completes original first last data frame :=
        .onward run works (ih _ less (progress.run run) length' rfl)
      cases frame with
      | returned | joined | threw | unwound => exact ⟨[], _, .nil, works_nil, Or.inl rfl⟩
      | entered first' last' =>
          by_cases short : last' - first' ≤ 1
          · have step : (attempts original first last).Step ⟨data, .entered first' last'⟩
                ([], .run) ⟨data, .returned first' last'⟩ :=
              exists_step_of_root (by simp [Frame.stepAt, Frame.step, short])
            exact ⟨_, _, .cons step .nil, works_singleton (by simp), Or.inl rfl⟩
          · have step : (attempts original first last).Step ⟨data, .entered first' last'⟩
                ([], .run) ⟨data, .selecting first' last' (slice data first' last')⟩ :=
              exists_step_of_root (by simp [Frame.stepAt, Frame.step, short])
            exact onward (.cons step .nil) (works_singleton (by simp)) (Nat.lt_succ_self _) length
      | selecting first' last' found =>
          cases progress with
          | selecting wide perm =>
              obtain ⟨trace, data', run, works⟩ :=
                exists_run_select wide (perm.length_eq.trans length)
              exact onward run works (by simp only [Frame.stepsLeft]; omega) length
      | selected first' last' =>
          cases progress with
          | selected wide =>
              have step : (attempts original first last).Step ⟨data, .selected first' last'⟩
                  ([], .run) ⟨data, .divided first' last'
                    (.entered first' (dividePoint first' last'))
                    (.entered (dividePoint first' last' + 1) last')⟩ := exists_step_of_root rfl
              obtain ⟨left, right⟩ := dividePoint_distances wide
              refine onward (.cons step .nil) (works_singleton (by simp)) ?_ length
              simp only [Frame.stepsLeft, left, right]
              omega
      | divided first' last' asyncTask own =>
          have child {chosen : Contents Value} {low high : Nat} {child : Frame Value}
              (atLow : child.forget.first = low) (atHigh : child.forget.last = high) :
              (slice chosen low high).length = child.forget.last - child.forget.first := by
            simp [slice, atLow, atHigh]
          refine .divided progress ?_ fun data' asyncTask' progress' => ?_
          · cases progress with
            | divided _ _ _ _ atFirst atLast _ _ below =>
                exact ih _ (by simp only [Frame.stepsLeft]; omega) below (child atFirst atLast) rfl
          · cases progress' with
            | divided _ _ _ _ _ _ atFirst atLast _ beside =>
                exact ih _ (by simp only [Frame.stepsLeft]; omega) beside (child atFirst atLast) rfl

/-! ## The whole call -/

/-- What is known of the threads after a run. -/
structure Threaded (data : Contents Value) (first last : Nat)
    (trace : List (List Child × Event Value)) (attempt : Attempt Value) : Prop where
  atMost : attempt.frame.created + attempt.frame.toCreate ≤ threadsFor (last - first)
  exactly : Works trace →
    attempt.frame.created + attempt.frame.toCreate = threadsFor (last - first) ∧
      attempt.frame.failed = false

theorem threaded_of_run
    (run : (attempts data first last).Run ⟨data, .entered first last⟩ trace final) :
    Threaded data first last trace final := by
  induction run with
  | nil => exact ⟨by simp [Frame.created, Frame.toCreate], fun _ => by
      simp [Frame.created, Frame.toCreate, Frame.failed]⟩
  | snoc earlier step ih =>
      have progress := (trying_of_reachable (earlier.reachable (.initial rfl))).1.progress
      have change := attempt_step_cases step
      obtain ⟨less, same⟩ := change.threads progress
      refine ⟨less.trans ih.atMost, fun works => ?_⟩
      have succeeds := works _ (List.mem_append_right _ List.mem_cons_self)
      obtain ⟨counted, clean⟩ := ih.exactly fun label member =>
        works label (List.mem_append_left _ member)
      exact ⟨(same succeeds).trans counted, change.failed succeeds clean⟩

/-- Apart from the writes of `std::nth_element`, a run of `multithreaded_sort` has at most five
steps for each element and one more; it never creates more threads than `threadsFor` says; and it
can always go on until the call is left or an exception has reached the bottom of a thread.  When no
thread creation fails, it can always go on to the return, and then the number of threads is exact:
about half of the number of elements at least, and two thirds of it at most. -/
theorem threads_of_run
    (run : (attempts data first last).Run ⟨data, .entered first last⟩ trace final) :
    trace.length ≤ 5 * (last - first) + 1 + trace.countP (fun label => label.2.writes) ∧
    final.frame.created ≤ threadsFor (last - first) ∧
    Completes data first last final.data final.frame ∧
    (Works trace →
      (∃ rest after, (attempts data first last).Run final rest after ∧ Works rest ∧
        after.frame.isReturned = true) ∧
      (final.frame.isReturned = true → final.frame.created = threadsFor (last - first) ∧
        (last - first) / 2 ≤ final.frame.created ∧
        3 * final.frame.created ≤ 2 * (last - first) - 1)) := by
  have reach := run.reachable (.initial rfl)
  obtain ⟨progress, atFirst, atLast, -⟩ := (trying_of_reachable reach).1
  have threaded := threaded_of_run run
  have completes : Completes data first last final.data final.frame :=
    completes progress (by simp [slice, atFirst, atLast])
  refine ⟨?_, (Nat.le_add_right _ _).trans threaded.atMost, completes, fun works => ⟨?_, ?_⟩⟩
  · have bound := (@TransitionSystem.Run.length_add_rank_le_of_noise _ _ _
      (attempts data first last).Reachable (fun attempt => attempt.frame.stepsLeft)
      (fun label => label.2.writes) 1 _ _ _ run (.initial rfl) fun reach step =>
        ⟨reach.step step,
          (attempt_step_cases step).stepsLeft (trying_of_reachable reach).1.progress⟩).2
    simp only [Frame.stepsLeft] at bound
    omega
  · obtain ⟨rest, after, run', works', ends⟩ := completes
    have clean := ((threaded_of_run (run.append run')).exactly (works.append works')).2
    exact ⟨rest, after, run', works', Frame.isReturned_of_clean clean ends⟩
  · intro returned
    have counted := (threaded.exactly works).1
    rw [Frame.toCreate_of_left (by simp [Frame.left, returned]), Nat.add_zero] at counted
    rw [counted]
    exact ⟨rfl, threadsFor_bounds _⟩

/-- Five elements take three threads. -/
theorem threads_of_run_five : ∃ rest after,
    (attempts ([1, 0, 2, 4, 3].getD · (0 : Int)) 0 5).Run
      ⟨([1, 0, 2, 4, 3].getD · (0 : Int)), .entered 0 5⟩ rest after ∧
      after.frame.isReturned = true ∧ after.frame.created = 3 := by
  let data : Contents Int := ([1, 0, 2, 4, 3].getD · 0)
  have start : (attempts data 0 5).Run ⟨data, .entered 0 5⟩ [] ⟨data, .entered 0 5⟩ := .nil
  obtain ⟨rest, after, run, works, returned⟩ := ((threads_of_run start).2.2.2 works_nil).1
  have counted := ((threads_of_run run).2.2.2 works).2 returned
  exact ⟨rest, after, run, returned, counted.1.trans (by simp [threadsFor])⟩

end Completion

end Sorting
end ConcurrencyCourse
