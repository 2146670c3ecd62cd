import ConcurrencyCourse.Sorting.Activations

/-!
# multithreaded_sort when a thread cannot be created

The construction of `asyncTask` may throw.  The exception leaves the activation and, on its way to
the caller, those that have made the recursive call; each of them joins its `asyncTask` first.  An
exception that leaves the activation at the bottom of a new thread terminates the program; what the
other threads may still do before that are steps of the model.
-/

namespace ConcurrencyCourse
namespace Sorting

open Slice

variable {Value : Type*} [LinearOrder Value]

/-- An activation of `multithreaded_sort` whose thread creations may fail. -/
inductive Frame (Value : Type*)
  | entered (first last : Nat)
  | selecting (first last : Nat) (entry : List Value)
  | selected (first last : Nat)
  | divided (first last : Nat) (asyncTask own : Frame Value)
  | returned (first last : Nat)
  | joined (first last : Nat) (asyncTask own : Frame Value)
  /-- Left by the exception of the construction of `asyncTask`. -/
  | threw (first last : Nat)
  /-- Left by the exception of the recursive call, after `asyncTask` was joined. -/
  | unwound (first last : Nat) (asyncTask own : Frame Value)
  deriving DecidableEq

/-- A step of the program, a write of `std::nth_element`, or a thread creation that fails. -/
inductive Event (Value : Type*)
  | run
  | write (index : Nat) (value : Value)
  | fail
  deriving DecidableEq

namespace Frame

/-- An activation that has returned. -/
def isReturned : Frame Value → Bool
  | .returned _ _ | .joined _ _ _ _ => true
  | _ => false

/-- An activation that has been left by an exception. -/
def hasThrown : Frame Value → Bool
  | .threw _ _ | .unwound _ _ _ _ => true
  | _ => false

/-- An activation that has returned or has been left by an exception. -/
def left (frame : Frame Value) : Bool := frame.isReturned || frame.hasThrown

/-- One step of an activation that is the last of its thread. -/
def step (event : Event Value) (data : Contents Value) :
    Frame Value → Option (Contents Value × Frame Value)
  | .entered first last =>
      match event with
      | .run => some (data, if last - first ≤ 1 then .returned first last
          else .selecting first last (slice data first last))
      | _ => none
  | .selecting first last entry =>
      match event with
      | .run =>
          if Selected entry data first (dividePoint first last) last then
            some (data, .selected first last)
          else none
      | .write index value =>
          if first ≤ index ∧ index < last then
            some (Function.update data index value, .selecting first last entry)
          else none
      | .fail => none
  | .selected first last =>
      match event with
      | .run => some (data, .divided first last (.entered first (dividePoint first last))
          (.entered (dividePoint first last + 1) last))
      | .write _ _ => none
      | .fail => some (data, .threw first last)
  | .divided first last asyncTask own =>
      match event with
      | .run =>
          if own.isReturned ∧ asyncTask.isReturned then
            some (data, .joined first last asyncTask own)
          else if own.hasThrown ∧ asyncTask.isReturned then
            some (data, .unwound first last asyncTask own)
          else none
      | _ => none
  | .returned _ _ | .joined _ _ _ _ | .threw _ _ | .unwound _ _ _ _ => none

/-- One step of the activation at a path from the root. -/
def stepAt (event : Event Value) (data : Contents Value) :
    List Child → Frame Value → Option (Contents Value × Frame Value)
  | [], frame => frame.step event data
  | .asyncTask :: path, .divided first last asyncTask own =>
      (asyncTask.stepAt event data path).map fun result =>
        (result.1, .divided first last result.2 own)
  | .own :: path, .divided first last asyncTask own =>
      (own.stepAt event data path).map fun result =>
        (result.1, .divided first last asyncTask result.2)
  | _ :: _, _ => none

end Frame

/-- The vector and the activations. -/
structure Attempt (Value : Type*) where
  data : Contents Value
  frame : Frame Value

/-- Let the activation at a path take a step. -/
def Attempt.next (label : List Child × Event Value) (attempt : Attempt Value) :
    Option (Attempt Value) :=
  (attempt.frame.stepAt label.2 attempt.data label.1).map fun result => ⟨result.1, result.2⟩

/-- A call of `multithreaded_sort` whose thread creations may fail. -/
def attempts (data : Contents Value) (first last : Nat) :
    TransitionSystem (Attempt Value) (List Child × Event Value) where
  Initial attempt := attempt = ⟨data, .entered first last⟩
  Step before label after := before.next label = some after

/-- Effects of the steps of an activation and of those below it. -/
inductive FrameCase : Event Value → Contents Value → Frame Value → Contents Value → Frame Value →
    Prop
  | short {data : Contents Value} {first last : Nat} : last - first ≤ 1 →
      FrameCase .run data (.entered first last) data (.returned first last)
  | select {data : Contents Value} {first last : Nat} : 1 < last - first →
      FrameCase .run data (.entered first last) data
        (.selecting first last (slice data first last))
  | write {data : Contents Value} {first last index : Nat} {entry : List Value} (value : Value) :
      first ≤ index → index < last → FrameCase (.write index value) data
        (.selecting first last entry) (Function.update data index value)
        (.selecting first last entry)
  | selected {data : Contents Value} {first last : Nat} {entry : List Value} :
      Selected entry data first (dividePoint first last) last →
      FrameCase .run data (.selecting first last entry) data (.selected first last)
  | divide {data : Contents Value} {first last : Nat} :
      FrameCase .run data (.selected first last) data (.divided first last
        (.entered first (dividePoint first last)) (.entered (dividePoint first last + 1) last))
  | fail {data : Contents Value} {first last : Nat} :
      FrameCase .fail data (.selected first last) data (.threw first last)
  | join {data : Contents Value} {first last : Nat} {asyncTask own : Frame Value} :
      own.isReturned = true → asyncTask.isReturned = true →
      FrameCase .run data (.divided first last asyncTask own) data
        (.joined first last asyncTask own)
  | unwind {data : Contents Value} {first last : Nat} {asyncTask own : Frame Value} :
      own.hasThrown = true → asyncTask.isReturned = true →
      FrameCase .run data (.divided first last asyncTask own) data
        (.unwound first last asyncTask own)
  | asyncTask {event : Event Value} {data data' : Contents Value} {first last : Nat}
      {asyncTask asyncTask' own : Frame Value} : FrameCase event data asyncTask data' asyncTask' →
      FrameCase event data (.divided first last asyncTask own) data'
        (.divided first last asyncTask' own)
  | own {event : Event Value} {data data' : Contents Value} {first last : Nat}
      {asyncTask own own' : Frame Value} : FrameCase event data own data' own' →
      FrameCase event data (.divided first last asyncTask own) data'
        (.divided first last asyncTask own')

namespace Frame

variable {data data' : Contents Value} {frame frame' : Frame Value} {event : Event Value}
  {path : List Child} {entry : List Value}

theorem step_cases (step : frame.step event data = some (data', frame')) :
    FrameCase event data frame data' frame' := by
  cases frame with
  | entered first last =>
      cases event with
      | run =>
          by_cases short : last - first ≤ 1
          · obtain ⟨rfl, rfl⟩ : _ ∧ _ := by simpa [Frame.step, short] using step
            exact .short short
          · obtain ⟨rfl, rfl⟩ : _ ∧ _ := by simpa [Frame.step, short] using step
            exact .select (by omega)
      | write | fail => simp [Frame.step] at step
  | selecting first last entry =>
      cases event with
      | run =>
          obtain ⟨selected, rfl, rfl⟩ : _ ∧ _ ∧ _ := by simpa [Frame.step] using step
          exact .selected selected
      | write index value =>
          obtain ⟨⟨lower, upper⟩, rfl, rfl⟩ : _ ∧ _ ∧ _ := by simpa [Frame.step] using step
          exact .write value lower upper
      | fail => simp [Frame.step] at step
  | selected first last =>
      cases event with
      | run =>
          obtain ⟨rfl, rfl⟩ : _ ∧ _ := by simpa [Frame.step] using step
          exact .divide
      | write => simp [Frame.step] at step
      | fail =>
          obtain ⟨rfl, rfl⟩ : _ ∧ _ := by simpa [Frame.step] using step
          exact .fail
  | divided first last asyncTask own =>
      cases event with
      | run =>
          simp only [Frame.step] at step
          split at step
          · next returned =>
              obtain ⟨rfl, rfl⟩ : _ ∧ _ := by simpa using step
              exact .join returned.1 returned.2
          · split at step
            · next thrown =>
                obtain ⟨rfl, rfl⟩ : _ ∧ _ := by simpa using step
                exact .unwind thrown.1 thrown.2
            · simp at step
      | write | fail => simp [Frame.step] at step
  | returned | joined | threw | unwound => simp [Frame.step] at step

theorem stepAt_cases (step : frame.stepAt event data path = some (data', frame')) :
    FrameCase event data frame data' frame' := by
  induction path generalizing frame frame' with
  | nil => exact step_cases (by simpa [stepAt] using step)
  | cons child path ih =>
      cases frame with
      | divided first last asyncTask own =>
          cases child with
          | asyncTask =>
              simp only [stepAt, Option.map_eq_some_iff, Prod.mk.injEq] at step
              obtain ⟨⟨_, asyncTask'⟩, below, rfl, rfl⟩ := step
              exact .asyncTask (ih below)
          | own =>
              simp only [stepAt, Option.map_eq_some_iff, Prod.mk.injEq] at step
              obtain ⟨⟨_, own'⟩, below, rfl, rfl⟩ := step
              exact .own (ih below)
      | _ => cases child <;> simp [stepAt] at step

/-! ## Failures are stutters of the sort -/

/-- The activation without the exceptions: one that has been left by an exception stands still. -/
def forget : Frame Value → Activation Value
  | .entered first last => .entered first last
  | .selecting first last entry => .selecting first last entry
  | .selected first last | .threw first last => .selected first last
  | .divided first last asyncTask own | .unwound first last asyncTask own =>
      .divided first last asyncTask.forget own.forget
  | .returned first last => .returned first last
  | .joined first last asyncTask own => .joined first last asyncTask.forget own.forget

omit [LinearOrder Value] in
theorem isReturned_forget (frame : Frame Value) :
    frame.forget.isReturned = frame.isReturned := by
  cases frame <;> rfl

end Frame

variable {data data' : Contents Value} {frame frame' : Frame Value} {event : Event Value}
  {path : List Child} {entry : List Value}

/-- A step is a step of the sort without failures, or none at all. -/
theorem FrameCase.forget (step : FrameCase event data frame data' frame') :
    StepCase data frame.forget data' frame'.forget ∨
      data' = data ∧ frame'.forget = frame.forget := by
  induction step with
  | short short => exact Or.inl (.short short)
  | select wide => exact Or.inl (.select wide)
  | write value lower upper => exact Or.inl (.write value lower upper)
  | selected selected => exact Or.inl (.selected selected)
  | divide => exact Or.inl .divide
  | fail => exact Or.inr ⟨rfl, rfl⟩
  | join own asyncTask =>
      exact Or.inl (.join (by rwa [Frame.isReturned_forget]) (by rwa [Frame.isReturned_forget]))
  | unwind => exact Or.inr ⟨rfl, rfl⟩
  | asyncTask _ ih =>
      rcases ih with step | ⟨rfl, same⟩
      · exact Or.inl (.asyncTask step)
      · exact Or.inr ⟨rfl, by rw [Frame.forget, Frame.forget, same]⟩
  | own _ ih =>
      rcases ih with step | ⟨rfl, same⟩
      · exact Or.inl (.own step)
      · exact Or.inr ⟨rfl, by rw [Frame.forget, Frame.forget, same]⟩

/-- What is known of an activation while its range is being sorted, with or without success. -/
structure Trying (data : Contents Value) (first last : Nat) (attempt : Attempt Value) : Prop where
  progress : Progress (slice data first last) attempt.data attempt.frame.forget
  atFirst : attempt.frame.forget.first = first
  atLast : attempt.frame.forget.last = last
  outside : ∀ index, index < first ∨ last ≤ index → attempt.data index = data index

theorem Trying.step {original : Contents Value} {first last : Nat}
    (trying : Trying original first last ⟨data, frame⟩)
    (step : FrameCase event data frame data' frame') :
    Trying original first last ⟨data', frame'⟩ := by
  obtain ⟨progress, atFirst, atLast, outside⟩ := trying
  dsimp only at progress atFirst atLast outside
  rcases step.forget with change | ⟨rfl, same⟩
  · obtain ⟨first', last'⟩ := change.range
    refine ⟨progress.step change, first'.trans atFirst, last'.trans atLast, fun index away => ?_⟩
    rw [← outside index away]
    exact progress.step_outside change (by rw [atFirst, atLast]; exact away)
  · exact ⟨same ▸ progress, same ▸ atFirst, same ▸ atLast, outside⟩

/-! ## No element is lost -/

omit [LinearOrder Value] in
/-- No `std::nth_element` is in progress. -/
def Activation.idle : Activation Value → Bool
  | .selecting _ _ _ => false
  | .divided _ _ asyncTask own => asyncTask.idle && own.idle
  | _ => true

/-- Between calls of `std::nth_element` an activation has only permuted what it found. -/
theorem Progress.perm {activation : Activation Value} (progress : Progress entry data activation)
    (idle : activation.idle = true) :
    (slice data activation.first activation.last).Perm entry := by
  induction progress with
  | entered perm => exact perm
  | selecting => simp [Activation.idle] at idle
  | selected _ selected => exact selected.perm
  | returned sorts => exact sorts.2
  | joined _ _ sorts => exact sorts.2
  | divided chosen wide selected pivot asyncFirst asyncLast ownFirst ownLast _ _ asyncTask own =>
      rw [Activation.idle, Bool.and_eq_true] at idle
      have left := asyncTask idle.1
      have right := own idle.2
      rw [asyncFirst, asyncLast] at left
      rw [ownFirst, ownLast] at right
      exact (perm_of_parts (first_lt_dividePoint wide).le (dividePoint_lt_last wide) left pivot
        right).trans selected.perm

/-! ## Nothing outlives the call -/

namespace Frame

omit [LinearOrder Value] in
/-- The activation has been left, and every thread that was started below it has returned. -/
def settled : Frame Value → Bool
  | .returned _ _ | .threw _ _ => true
  | .joined _ _ asyncTask own | .unwound _ _ asyncTask own =>
      asyncTask.isReturned && asyncTask.settled && own.settled
  | _ => false

omit [LinearOrder Value] in
/-- Every activation that has been left is settled. -/
def sound : Frame Value → Bool
  | .divided _ _ asyncTask own => asyncTask.sound && own.sound
  | .joined _ _ asyncTask own | .unwound _ _ asyncTask own =>
      asyncTask.isReturned && asyncTask.settled && own.settled
  | _ => true

omit [LinearOrder Value] in
theorem settled_of_left (sound : frame.sound = true) (left : frame.left = true) :
    frame.settled = true := by
  cases frame with
  | returned | threw => rfl
  | joined | unwound => exact sound
  | _ => simp [Frame.left, isReturned, hasThrown] at left

omit [LinearOrder Value] in
theorem idle_of_settled (settled : frame.settled = true) : frame.forget.idle = true := by
  induction frame with
  | returned | threw | joined => rfl
  | unwound first last asyncTask own asyncIh ownIh =>
      simp only [Frame.settled, Bool.and_eq_true] at settled
      rw [Frame.forget, Activation.idle, asyncIh settled.1.2, ownIh settled.2]
      rfl
  | _ => simp [Frame.settled] at settled

omit [LinearOrder Value] in
/-- An exception is on its way through the thread of the activation. -/
def throwing : Frame Value → Bool
  | .threw _ _ | .unwound _ _ _ _ => true
  | .divided _ _ _ own => own.throwing
  | _ => false

omit [LinearOrder Value] in
/-- An exception is on its way through a thread that was started below the activation. -/
def escapes : Frame Value → Bool
  | .divided _ _ asyncTask own => asyncTask.throwing || asyncTask.escapes || own.escapes
  | _ => false

omit [LinearOrder Value] in
theorem not_escapes_of_left (left : frame.left = true) : frame.escapes = false := by
  cases frame with
  | divided => simp [Frame.left, isReturned, hasThrown] at left
  | _ => rfl

omit [LinearOrder Value] in
theorem not_throwing_of_isReturned (returned : frame.isReturned = true) :
    frame.throwing = false := by
  cases frame with
  | returned | joined => rfl
  | _ => simp [isReturned] at returned

end Frame

theorem FrameCase.sound (step : FrameCase event data frame data' frame')
    (sound : frame.sound = true) : frame'.sound = true := by
  induction step with
  | short | select | write | selected | divide | fail => rfl
  | join own asyncTask =>
      simp only [Frame.sound, Bool.and_eq_true] at sound ⊢
      exact ⟨⟨asyncTask, Frame.settled_of_left sound.1 (by simp [Frame.left, asyncTask])⟩,
        Frame.settled_of_left sound.2 (by simp [Frame.left, own])⟩
  | unwind own asyncTask =>
      simp only [Frame.sound, Bool.and_eq_true] at sound ⊢
      exact ⟨⟨asyncTask, Frame.settled_of_left sound.1 (by simp [Frame.left, asyncTask])⟩,
        Frame.settled_of_left sound.2 (by simp [Frame.left, own])⟩
  | asyncTask _ ih =>
      simp only [Frame.sound, Bool.and_eq_true] at sound ⊢
      exact ⟨ih sound.1, sound.2⟩
  | own _ ih =>
      simp only [Frame.sound, Bool.and_eq_true] at sound ⊢
      exact ⟨sound.1, ih sound.2⟩

theorem FrameCase.throwing (step : FrameCase event data frame data' frame')
    (throwing : frame.throwing = true) : frame'.throwing = true := by
  induction step with
  | short | select | write | selected | divide | fail => simp [Frame.throwing] at throwing
  | join own =>
      rw [Frame.throwing, Frame.not_throwing_of_isReturned own] at throwing
      simp at throwing
  | unwind => rfl
  | asyncTask => exact throwing
  | own _ ih => exact ih throwing

/-- An exception in a thread of its own stays there: the activation above is never left. -/
theorem FrameCase.escapes (step : FrameCase event data frame data' frame')
    (escapes : frame.escapes = true) : frame'.escapes = true := by
  have left {frame : Frame Value} (leaves : frame.isReturned = true ∨ frame.hasThrown = true) :
      frame.escapes = false := Frame.not_escapes_of_left (by simpa [Frame.left] using leaves)
  induction step with
  | short | select | write | selected | divide | fail => simp [Frame.escapes] at escapes
  | join own asyncTask =>
      simp [Frame.escapes, left (Or.inl own), left (Or.inl asyncTask),
        Frame.not_throwing_of_isReturned asyncTask] at escapes
  | unwind own asyncTask =>
      simp [Frame.escapes, left (Or.inr own), left (Or.inl asyncTask),
        Frame.not_throwing_of_isReturned asyncTask] at escapes
  | asyncTask below ih =>
      simp only [Frame.escapes, Bool.or_eq_true] at escapes ⊢
      exact escapes.imp (Or.imp below.throwing ih) id
  | own _ ih =>
      simp only [Frame.escapes, Bool.or_eq_true] at escapes ⊢
      exact escapes.imp id ih

/-! ## The whole call -/

variable {first last : Nat} {attempt : Attempt Value}

theorem attempt_step_cases {label : List Child × Event Value} {before after : Attempt Value}
    (step : (attempts data first last).Step before label after) :
    FrameCase label.2 before.data before.frame after.data after.frame := by
  obtain ⟨⟨data', frame'⟩, taken, rfl⟩ := Option.map_eq_some_iff.mp step
  exact Frame.stepAt_cases taken

theorem trying_of_reachable (reach : (attempts data first last).Reachable attempt) :
    Trying data first last attempt ∧ attempt.frame.sound = true := by
  refine reach.invariant (motive := fun attempt => Trying data first last attempt ∧
    attempt.frame.sound = true) ?_ ?_
  · rintro _ rfl
    exact ⟨⟨.entered (List.Perm.refl _), rfl, rfl, fun _ _ => rfl⟩, rfl⟩
  · rintro ⟨data, frame⟩ label ⟨data', frame'⟩ - ⟨trying, sound⟩ step
    have change := attempt_step_cases step
    exact ⟨trying.step change, change.sound sound⟩

/-- A call that has been left, by its return or by an exception, has left no thread behind and has
only permuted its range, which is sorted if it has returned.  While an exception is on its way
through one of the threads that were started, the call is never left: the program terminates. -/
theorem settled_of_reachable (reach : (attempts data first last).Reachable attempt) :
    (attempt.frame.left = true → attempt.frame.settled = true ∧
      (slice attempt.data first last).Perm (slice data first last) ∧
      (∀ index, index < first ∨ last ≤ index → attempt.data index = data index) ∧
      (attempt.frame.isReturned = true → (slice attempt.data first last).SortedLE)) ∧
    (attempt.frame.escapes = true → ∀ trace after,
      (attempts data first last).Run attempt trace after → after.frame.left = false) := by
  obtain ⟨⟨progress, atFirst, atLast, outside⟩, sound⟩ := trying_of_reachable reach
  refine ⟨fun left => ?_, fun escapes trace after run => ?_⟩
  · have settled := Frame.settled_of_left sound left
    have perm := progress.perm (Frame.idle_of_settled settled)
    rw [atFirst, atLast] at perm
    refine ⟨settled, perm, outside, fun returned => ?_⟩
    have sorts := (progress.of_returned (by rwa [Frame.isReturned_forget])).2.1
    rwa [atFirst, atLast] at sorts
  · have kept : after.frame.escapes = true :=
      run.preserves (motive := fun attempt => attempt.frame.escapes = true) reach escapes
        fun _ escapes step => (attempt_step_cases step).escapes escapes
    by_contra left
    rw [Bool.not_eq_false] at left
    simp [Frame.not_escapes_of_left left] at kept

/-- The right part of five elements cannot get its thread, and the left part is sorted before the
exception reaches the caller. -/
theorem settled_of_reachable_five : ∃ attempt : Attempt Int,
    attempt.frame.hasThrown = true ∧ attempt.frame.settled = true ∧
      (slice attempt.data 0 5).Perm (slice ([1, 0, 2, 4, 3].getD · 0) 0 5) := by
  let schedule : List (List Child × Event Int) :=
    [([], .run), ([], .run), ([], .run), ([.own], .run), ([.asyncTask], .run),
      ([.own], .write 3 3), ([.own], .write 4 4), ([.own], .run), ([.asyncTask], .write 0 0),
      ([.own], .fail), ([.asyncTask], .write 1 1), ([.asyncTask], .run), ([.asyncTask], .run),
      ([.asyncTask, .own], .run), ([.asyncTask, .asyncTask], .run), ([.asyncTask], .run),
      ([], .run)]
  have passes : (schedule.foldlM (fun attempt label => Attempt.next label attempt)
      (⟨([1, 0, 2, 4, 3].getD · 0), .entered 0 5⟩ : Attempt Int)).any (fun attempt =>
        attempt.frame.hasThrown) = true := by
    decide +kernel
  obtain ⟨attempt, execution, thrown⟩ := (Option.any_eq_true _ _).mp passes
  have reach : (attempts ([1, 0, 2, 4, 3].getD · 0) 0 5).Reachable attempt :=
    (TransitionSystem.Reachable.initial rfl).of_foldlM id execution
  obtain ⟨settled, perm, -⟩ := (settled_of_reachable reach).1 (by simp [Frame.left, thrown])
  exact ⟨attempt, thrown, settled, perm⟩

end Sorting
end ConcurrencyCourse
