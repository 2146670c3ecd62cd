import ConcurrencyCourse.Sorting.SingleThreaded

/-!
# The tree of activations

Each activation sorts its own range: what it has done so far is stated relative to the elements that
it found on entry.  Its two children have the two parts of the range, so a step of one leaves the
other and the pivot alone, and when both have returned the range is sorted.
-/

namespace ConcurrencyCourse
namespace Sorting

open Slice

variable {Value : Type*} [LinearOrder Value]

/-- First index of the range of an activation. -/
def Activation.first : Activation Value → Nat
  | .entered first _ | .selecting first _ _ | .selected first _ | .divided first _ _ _
  | .returned first _ | .joined first _ _ _ => first

/-- End of the range of an activation. -/
def Activation.last : Activation Value → Nat
  | .entered _ last | .selecting _ last _ | .selected _ last | .divided _ last _ _
  | .returned _ last | .joined _ last _ _ => last

/-- Effects of the steps of an activation and of those below it. -/
inductive StepCase : Contents Value → Activation Value → Contents Value → Activation Value → Prop
  | short {data : Contents Value} {first last : Nat} : last - first ≤ 1 →
      StepCase data (.entered first last) data (.returned first last)
  | select {data : Contents Value} {first last : Nat} : 1 < last - first →
      StepCase data (.entered first last) data (.selecting first last (slice data first last))
  | write {data : Contents Value} {first last index : Nat} {entry : List Value} (value : Value) :
      first ≤ index → index < last → StepCase data (.selecting first last entry)
        (Function.update data index value) (.selecting first last entry)
  | selected {data : Contents Value} {first last : Nat} {entry : List Value} :
      Selected entry data first (dividePoint first last) last →
      StepCase data (.selecting first last entry) data (.selected first last)
  | divide {data : Contents Value} {first last : Nat} :
      StepCase data (.selected first last) data (.divided first last
        (.entered first (dividePoint first last)) (.entered (dividePoint first last + 1) last))
  | join {data : Contents Value} {first last : Nat} {asyncTask own : Activation Value} :
      own.isReturned = true → asyncTask.isReturned = true →
      StepCase data (.divided first last asyncTask own) data (.joined first last asyncTask own)
  | asyncTask {data data' : Contents Value} {first last : Nat}
      {asyncTask asyncTask' own : Activation Value} : StepCase data asyncTask data' asyncTask' →
      StepCase data (.divided first last asyncTask own) data' (.divided first last asyncTask' own)
  | own {data data' : Contents Value} {first last : Nat} {asyncTask own own' : Activation Value} :
      StepCase data own data' own' →
      StepCase data (.divided first last asyncTask own) data' (.divided first last asyncTask own')

variable {data data' : Contents Value} {activation activation' : Activation Value}
  {action : Action Value} {path : List Child}

theorem Activation.step_cases (step : activation.step action data = some (data', activation')) :
    StepCase data activation data' activation' := by
  cases activation with
  | entered first last =>
      cases action with
      | run =>
          by_cases short : last - first ≤ 1
          · obtain ⟨rfl, rfl⟩ : _ ∧ _ := by simpa [Activation.step, short] using step
            exact .short short
          · obtain ⟨rfl, rfl⟩ : _ ∧ _ := by simpa [Activation.step, short] using step
            exact .select (by omega)
      | write => simp [Activation.step] at step
  | selecting first last entry =>
      cases action with
      | run =>
          obtain ⟨selected, rfl, rfl⟩ : _ ∧ _ ∧ _ := by simpa [Activation.step] using step
          exact .selected selected
      | write index value =>
          obtain ⟨⟨lower, upper⟩, rfl, rfl⟩ : _ ∧ _ ∧ _ := by simpa [Activation.step] using step
          exact .write value lower upper
  | selected first last =>
      cases action with
      | run =>
          obtain ⟨rfl, rfl⟩ : _ ∧ _ := by simpa [Activation.step] using step
          exact .divide
      | write => simp [Activation.step] at step
  | divided first last asyncTask own =>
      cases action with
      | run =>
          obtain ⟨⟨ownReturned, asyncReturned⟩, rfl, rfl⟩ : _ ∧ _ ∧ _ := by
            simpa [Activation.step] using step
          exact .join ownReturned asyncReturned
      | write => simp [Activation.step] at step
  | returned | joined => simp [Activation.step] at step

theorem Activation.stepAt_cases
    (step : activation.stepAt action data path = some (data', activation')) :
    StepCase data activation data' activation' := by
  induction path generalizing activation activation' with
  | nil => exact step_cases (by simpa [stepAt] using step)
  | cons child path ih =>
      cases activation with
      | divided first last asyncTask own =>
          cases child with
          | asyncTask =>
              simp only [stepAt, Option.map_eq_some_iff, Prod.mk.injEq] at step
              obtain ⟨⟨_, asyncTask'⟩, below, rfl, rfl⟩ := step
              exact .asyncTask (ih below)
          | own =>
              simp only [stepAt, Option.map_eq_some_iff, Prod.mk.injEq] at step
              obtain ⟨⟨_, own'⟩, below, rfl, rfl⟩ := step
              exact .own (ih below)
      | _ => cases child <;> simp [stepAt] at step

theorem StepCase.range (step : StepCase data activation data' activation') :
    activation'.first = activation.first ∧ activation'.last = activation.last := by
  cases step with
  | short | select | write | selected | divide | join | asyncTask | own => exact ⟨rfl, rfl⟩

/-! ## What an activation has done -/

omit [LinearOrder Value] in
/-- The activation and all those below it have returned. -/
def Activation.finished : Activation Value → Bool
  | .returned _ _ => true
  | .joined _ _ asyncTask own => asyncTask.finished && own.finished
  | _ => false

/-- What an activation has done, relative to the elements that it found on entry. -/
inductive Progress : List Value → Contents Value → Activation Value → Prop
  | entered {entry : List Value} {data : Contents Value} {first last : Nat} :
      (slice data first last).Perm entry → Progress entry data (.entered first last)
  | selecting {entry found : List Value} {data : Contents Value} {first last : Nat} :
      1 < last - first → found.Perm entry → Progress entry data (.selecting first last found)
  | selected {entry : List Value} {data : Contents Value} {first last : Nat} :
      1 < last - first → Selected entry data first (dividePoint first last) last →
      Progress entry data (.selected first last)
  | divided {entry : List Value} {data : Contents Value} {first last : Nat}
      {asyncTask own : Activation Value} (chosen : Contents Value) : 1 < last - first →
      Selected entry chosen first (dividePoint first last) last →
      data (dividePoint first last) = chosen (dividePoint first last) →
      asyncTask.first = first → asyncTask.last = dividePoint first last →
      own.first = dividePoint first last + 1 → own.last = last →
      Progress (slice chosen first (dividePoint first last)) data asyncTask →
      Progress (slice chosen (dividePoint first last + 1) last) data own →
      Progress entry data (.divided first last asyncTask own)
  | returned {entry : List Value} {data : Contents Value} {first last : Nat} :
      (slice data first last).SortedLE ∧ (slice data first last).Perm entry →
      Progress entry data (.returned first last)
  | joined {entry : List Value} {data : Contents Value} {first last : Nat}
      {asyncTask own : Activation Value} : asyncTask.finished = true → own.finished = true →
      (slice data first last).SortedLE ∧ (slice data first last).Perm entry →
      Progress entry data (.joined first last asyncTask own)

variable {entry : List Value}

/-- A returned activation has sorted its range, and everything below it has returned. -/
theorem Progress.of_returned (progress : Progress entry data activation)
    (returned : activation.isReturned = true) : activation.finished = true ∧
      (slice data activation.first activation.last).SortedLE ∧
      (slice data activation.first activation.last).Perm entry := by
  cases progress with
  | returned sorts => exact ⟨rfl, sorts⟩
  | joined asyncTask own sorts => exact ⟨by simp [Activation.finished, asyncTask, own], sorts⟩
  | entered | selecting | selected | divided => simp [Activation.isReturned] at returned

/-- The contract of `std::nth_element` speaks of its range alone. -/
theorem Selected.congr {first nth last : Nat} (selected : Selected entry data first nth last)
    (lower : first ≤ nth) (upper : nth < last)
    (agree : ∀ index, first ≤ index → index < last → data index = data' index) :
    Selected entry data' first nth last := by
  obtain ⟨perm, before, after⟩ := selected
  rw [slice_congr agree] at perm
  rw [slice_congr fun index below above => agree index below (by omega),
    agree nth lower upper] at before
  rw [slice_congr fun index below above => agree index (by omega) above,
    agree nth lower upper] at after
  exact ⟨perm, before, after⟩

theorem Progress.congr (progress : Progress entry data activation)
    (agree : ∀ index, activation.first ≤ index → index < activation.last →
      data index = data' index) : Progress entry data' activation := by
  induction progress with
  | entered perm => exact .entered (slice_congr agree ▸ perm)
  | selecting wide perm => exact .selecting wide perm
  | selected wide selected =>
      exact .selected wide (selected.congr (first_lt_dividePoint wide).le (dividePoint_lt_last wide)
        agree)
  | divided chosen wide selected pivot asyncFirst asyncLast ownFirst ownLast _ _ asyncTask own =>
      have lower := first_lt_dividePoint wide
      have upper := dividePoint_lt_last wide
      refine .divided chosen wide selected ((agree _ lower.le upper).symm.trans pivot) asyncFirst
        asyncLast ownFirst ownLast (asyncTask fun index below above => ?_)
        (own fun index below above => ?_)
      · rw [asyncFirst] at below
        rw [asyncLast] at above
        exact agree index below (above.trans upper)
      · rw [ownFirst] at below
        rw [ownLast] at above
        exact agree index (by simp only [Activation.first]; omega) above
  | returned sorts => exact .returned (slice_congr agree ▸ sorts)
  | joined asyncTask own sorts => exact .joined asyncTask own (slice_congr agree ▸ sorts)

/-- A step changes the vector only inside the range of the activation. -/
theorem Progress.step_outside (progress : Progress entry data activation)
    (step : StepCase data activation data' activation') {index : Nat}
    (outside : index < activation.first ∨ activation.last ≤ index) : data' index = data index := by
  induction step generalizing entry with
  | short | select | selected | divide | join => rfl
  | write value lower upper =>
      refine Function.update_of_ne ?_ _ _
      rintro rfl
      simp only [Activation.first, Activation.last] at outside
      omega
  | asyncTask _ ih =>
      simp only [Activation.first, Activation.last] at outside
      cases progress with
      | divided chosen wide _ _ asyncFirst asyncLast _ _ asyncTask _ =>
          have upper := dividePoint_lt_last wide
          exact ih asyncTask (by omega)
  | own _ ih =>
      simp only [Activation.first, Activation.last] at outside
      cases progress with
      | divided chosen wide _ _ _ _ ownFirst ownLast _ own =>
          have lower := first_lt_dividePoint wide
          exact ih own (by omega)

theorem Progress.step (progress : Progress entry data activation)
    (step : StepCase data activation data' activation') : Progress entry data' activation' := by
  induction step generalizing entry with
  | short short =>
      cases progress with
      | entered perm => exact .returned ⟨sortedLE_of_length short, perm⟩
  | select wide =>
      cases progress with
      | entered perm => exact .selecting wide perm
  | write =>
      cases progress with
      | selecting wide perm => exact .selecting wide perm
  | selected selected =>
      cases progress with
      | selecting wide perm =>
          exact .selected wide ⟨selected.perm.trans perm, selected.before, selected.after⟩
  | divide =>
      cases progress with
      | selected wide selected =>
          exact .divided _ wide selected rfl rfl rfl rfl rfl (.entered (List.Perm.refl _))
            (.entered (List.Perm.refl _))
  | join ownReturned asyncReturned =>
      cases progress with
      | divided chosen wide selected pivot asyncFirst asyncLast ownFirst ownLast asyncTask own =>
          obtain ⟨asyncFinished, asyncSorts⟩ := asyncTask.of_returned asyncReturned
          obtain ⟨ownFinished, ownSorts⟩ := own.of_returned ownReturned
          rw [asyncFirst, asyncLast] at asyncSorts
          rw [ownFirst, ownLast] at ownSorts
          exact .joined asyncFinished ownFinished (selected.sorted_of_parts
            (first_lt_dividePoint wide).le (dividePoint_lt_last wide) pivot asyncSorts ownSorts)
  | @asyncTask next first last _ _ _ below ih =>
      cases progress with
      | divided chosen wide selected pivot asyncFirst asyncLast ownFirst ownLast asyncTask own =>
          have kept {index : Nat} (after : dividePoint first last ≤ index) :
              next index = data index :=
            asyncTask.step_outside below (Or.inr (asyncLast ▸ after))
          obtain ⟨first', last'⟩ := below.range
          exact .divided chosen wide selected ((kept le_rfl).trans pivot) (first'.trans asyncFirst)
            (last'.trans asyncLast) ownFirst ownLast (ih asyncTask)
            (own.congr fun index lower _ => (kept (by omega)).symm)
  | @own next first last _ _ _ below ih =>
      cases progress with
      | divided chosen wide selected pivot asyncFirst asyncLast ownFirst ownLast asyncTask own =>
          have kept {index : Nat} (before : index ≤ dividePoint first last) :
              next index = data index :=
            own.step_outside below (Or.inl (by rw [ownFirst]; omega))
          obtain ⟨first', last'⟩ := below.range
          exact .divided chosen wide selected ((kept le_rfl).trans pivot) asyncFirst asyncLast
            (first'.trans ownFirst) (last'.trans ownLast)
            (asyncTask.congr fun index _ upper => (kept (by omega)).symm) (ih own)

end Sorting
end ConcurrencyCourse
