import ConcurrencyCourse.Sorting.Activations

/-!
# multithreaded_sort agrees with single_threaded_sort

The activations of different threads have disjoint ranges, and when the first activation returns all
the others have returned and the vector is what `single_threaded_sort` makes of it.
-/

namespace ConcurrencyCourse
namespace Sorting

open Slice

variable {Value : Type*} [LinearOrder Value]

/-! ## Activations and their threads -/

omit [LinearOrder Value] in
/-- The activation at a path from the root. -/
def Activation.at : List Child → Activation Value → Option (Activation Value)
  | [], activation => some activation
  | .asyncTask :: path, .divided _ _ asyncTask _ | .asyncTask :: path, .joined _ _ asyncTask _ =>
      asyncTask.at path
  | .own :: path, .divided _ _ _ own | .own :: path, .joined _ _ _ own => own.at path
  | _ :: _, _ => none

/-- The path of the activation with which the thread of an activation began. -/
def threadOf : List Child → List Child
  | [] => []
  | .asyncTask :: path => .asyncTask :: threadOf path
  | .own :: path => if threadOf path = [] then [] else .own :: threadOf path

omit [LinearOrder Value] in
/-- Indices that an activation, or a call that it has made in its own thread, may read or write. -/
def Activation.mayAccess : Activation Value → Finset Nat
  | .entered first last | .selecting first last _ | .selected first last => Finset.Ico first last
  | .divided _ _ _ own => own.mayAccess
  | .returned _ _ | .joined _ _ _ _ => ∅

/-- A step writes none but the given indices, and what it does depends on their elements alone. -/
def Confined (indices : Finset Nat)
    (step : Contents Value → Option (Contents Value × Activation Value)) : Prop :=
  ∀ data data' activation', step data = some (data', activation') →
    (∀ index ∉ indices, data' index = data index) ∧
    ∀ other, (∀ index ∈ indices, other index = data index) →
      ∃ other', step other = some (other', activation') ∧
        ∀ index ∈ indices, other' index = data' index

variable {data data' : Contents Value} {activation activation' node : Activation Value}
  {action : Action Value} {path left right : List Child} {entry : List Value}

omit [LinearOrder Value] in
theorem Activation.at_of_finished (finished : activation.finished = true)
    (found : activation.at path = some node) : node.isReturned = true := by
  induction path generalizing activation with
  | nil =>
      obtain rfl := Option.some.inj found
      cases activation with
      | returned | joined => rfl
      | _ => simp [Activation.finished] at finished
  | cons child path ih =>
      cases activation with
      | joined first last asyncTask own =>
          obtain ⟨asyncFinished, ownFinished⟩ : _ ∧ _ := by
            simpa [Activation.finished] using finished
          cases child with
          | asyncTask => exact ih asyncFinished (by simpa [Activation.at] using found)
          | own => exact ih ownFinished (by simpa [Activation.at] using found)
      | returned => cases child <;> simp [Activation.at] at found
      | _ => simp [Activation.finished] at finished

omit [LinearOrder Value] in
theorem Activation.mayAccess_of_returned (returned : node.isReturned = true) :
    node.mayAccess = ∅ := by
  cases node with
  | returned | joined => rfl
  | _ => simp [Activation.isReturned] at returned

omit [LinearOrder Value] in
/-- An activation that has divided its range stands in its thread for the call it waits for. -/
theorem Activation.at_divided {first last : Nat} {asyncTask own : Activation Value}
    (found : (Activation.divided first last asyncTask own).at path = some node) :
    (∃ rest, asyncTask.at rest = some node ∧ threadOf path = .asyncTask :: threadOf rest) ∨
      ∃ rest inner, own.at rest = some inner ∧ inner.mayAccess = node.mayAccess ∧
        threadOf path = threadOf (.own :: rest) := by
  cases path with
  | nil =>
      obtain rfl := Option.some.inj found
      exact Or.inr ⟨[], own, rfl, rfl, rfl⟩
  | cons child rest =>
      cases child with
      | asyncTask => exact Or.inl ⟨rest, found, rfl⟩
      | own => exact Or.inr ⟨rest, node, found, rfl, rfl⟩

omit [LinearOrder Value] in
theorem Activation.at_leaf (leaf : ∀ child rest, activation.at (child :: rest) = none)
    (found : activation.at path = some node) : path = [] ∧ activation = node := by
  cases path with
  | nil => exact ⟨rfl, Option.some.inj found⟩
  | cons child rest => simp [leaf] at found

/-- Every activation below another one stays in the range of that one. -/
theorem Progress.mayAccess_subset (progress : Progress entry data activation)
    (found : activation.at path = some node) :
    node.mayAccess ⊆ Finset.Ico activation.first activation.last := by
  induction progress generalizing path node with
  | entered | selecting | selected =>
      obtain ⟨-, rfl⟩ := Activation.at_leaf (fun child rest => by cases child <;> rfl) found
      exact Finset.Subset.refl _
  | returned =>
      obtain ⟨-, rfl⟩ := Activation.at_leaf (fun child rest => by cases child <;> rfl) found
      exact Finset.empty_subset _
  | joined asyncFinished ownFinished sorts =>
      rw [Activation.mayAccess_of_returned (Activation.at_of_finished
        (by simp [Activation.finished, asyncFinished, ownFinished]) found)]
      exact Finset.empty_subset _
  | @divided _ _ first last _ _ chosen wide _ _ asyncFirst asyncLast ownFirst ownLast _ _ asyncTask
      own =>
      have lower := first_lt_dividePoint wide
      have upper := dividePoint_lt_last wide
      rw [asyncFirst, asyncLast] at asyncTask
      rw [ownFirst, ownLast] at own
      rcases Activation.at_divided found with ⟨rest, below, -⟩ | ⟨rest, inner, below, same, -⟩
      · exact (asyncTask below).trans (Finset.Ico_subset_Ico_right upper.le)
      · have after : first ≤ dividePoint first last + 1 := by omega
        exact same ▸ (own below).trans (Finset.Ico_subset_Ico_left after)

/-- Activations in different threads have disjoint ranges. -/
theorem Progress.disjoint {first second : Activation Value}
    (progress : Progress entry data activation) (foundLeft : activation.at left = some first)
    (foundRight : activation.at right = some second) (threads : threadOf left ≠ threadOf right) :
    Disjoint first.mayAccess second.mayAccess := by
  induction progress generalizing left right first second with
  | entered | selecting | selected | returned =>
      obtain ⟨rfl, -⟩ := Activation.at_leaf (fun child rest => by cases child <;> rfl) foundLeft
      obtain ⟨rfl, -⟩ := Activation.at_leaf (fun child rest => by cases child <;> rfl) foundRight
      exact absurd rfl threads
  | joined asyncFinished ownFinished sorts =>
      rw [Activation.mayAccess_of_returned (Activation.at_of_finished
        (by simp [Activation.finished, asyncFinished, ownFinished]) foundLeft)]
      exact Finset.disjoint_empty_left _
  | @divided _ _ _ _ asyncTask own chosen wide _ _ asyncFirst asyncLast ownFirst ownLast
      asyncProgress ownProgress asyncIh ownIh =>
      have apart {leftPath rightPath : List Child} {first second : Activation Value}
          (below : asyncTask.at leftPath = some first)
          (below' : own.at rightPath = some second) :
          Disjoint first.mayAccess second.mayAccess := by
        refine Finset.disjoint_of_subset_left (asyncProgress.mayAccess_subset below)
          (Finset.disjoint_of_subset_right (ownProgress.mayAccess_subset below') ?_)
        rw [asyncFirst, asyncLast, ownFirst, ownLast]
        refine Finset.disjoint_left.mpr fun index member member' => ?_
        rw [Finset.mem_Ico] at member member'
        omega
      rcases Activation.at_divided foundLeft with
        ⟨leftRest, below, leftThread⟩ | ⟨leftRest, inner, below, same, leftThread⟩ <;>
      rcases Activation.at_divided foundRight with
        ⟨rightRest, below', rightThread⟩ | ⟨rightRest, inner', below', same', rightThread⟩
      · exact asyncIh below below' fun equal => threads (by rw [leftThread, rightThread, equal])
      · exact same' ▸ apart below below'
      · exact same ▸ (apart below' below).symm
      · refine same ▸ same' ▸ ownIh below below' fun equal => threads ?_
        rw [leftThread, rightThread, threadOf, threadOf, equal]

/-! ## The steps of an activation -/

omit [LinearOrder Value] in
theorem Confined.map {indices : Finset Nat}
    {step : Contents Value → Option (Contents Value × Activation Value)}
    (confined : Confined indices step) (wrap : Activation Value → Activation Value) :
    Confined indices fun data => (step data).map fun result => (result.1, wrap result.2) := by
  intro data data' activation' taken
  simp only [Option.map_eq_some_iff, Prod.mk.injEq] at taken
  obtain ⟨⟨_, below⟩, taken, rfl, rfl⟩ := taken
  obtain ⟨outside, reads⟩ := confined _ _ _ taken
  refine ⟨outside, fun other agree => ?_⟩
  obtain ⟨other', taken', agree'⟩ := reads other agree
  exact ⟨other', by simp [taken'], agree'⟩

omit [LinearOrder Value] in
theorem Confined.of_silent {indices : Finset Nat}
    {step : Contents Value → Option (Contents Value × Activation Value)}
    (next : Contents Value → Option (Activation Value))
    (silent : ∀ data, step data = (next data).map fun activation' => (data, activation'))
    (reads : ∀ data other, (∀ index ∈ indices, other index = data index) → next other = next data) :
    Confined indices step := by
  intro data data' activation' taken
  simp only [silent, Option.map_eq_some_iff, Prod.mk.injEq] at taken
  obtain ⟨_, taken, rfl, rfl⟩ := taken
  refine ⟨fun _ _ => rfl, fun other agree => ⟨other, ?_, agree⟩⟩
  rw [silent, reads _ other agree, taken]
  rfl

omit [LinearOrder Value] in
theorem Confined.of_none {indices : Finset Nat}
    {step : Contents Value → Option (Contents Value × Activation Value)}
    (disabled : ∀ data, step data = none) : Confined indices step :=
  .of_silent (fun _ => none) disabled fun _ _ _ => rfl

/-- An activation reads and writes only its own range. -/
theorem Progress.step_confined (progress : Progress entry data activation) (action : Action Value) :
    Confined activation.mayAccess fun data => activation.step action data := by
  cases progress with
  | @entered _ _ first last =>
      cases action with
      | run =>
          refine .of_silent (fun data => some (if last - first ≤ 1 then .returned first last
            else .selecting first last (slice data first last))) (fun _ => rfl)
            fun data other agree => ?_
          have same : slice other first last = slice data first last :=
            slice_congr fun index lower upper => agree index (Finset.mem_Ico.mpr ⟨lower, upper⟩)
          rw [same]
      | write => exact .of_none fun _ => rfl
  | @selecting _ found _ first last wide perm =>
      have lower := first_lt_dividePoint wide
      have upper := dividePoint_lt_last wide
      cases action with
      | run =>
          refine .of_silent (fun data =>
            if Selected found data first (dividePoint first last) last then
              some (.selected first last)
            else none) (fun data => ?_) fun data other agree => ?_
          · simp only [Activation.step]
            split <;> rfl
          · have agree' (index : Nat) (below : first ≤ index) (above : index < last) :=
              agree index (Finset.mem_Ico.mpr ⟨below, above⟩)
            refine if_congr ⟨fun selected => ?_, fun selected => ?_⟩ rfl rfl
            · exact selected.congr lower.le upper agree'
            · exact selected.congr lower.le upper fun index below above =>
                (agree' index below above).symm
      | write index value =>
          intro data data' activation' taken
          obtain ⟨inside, rfl, rfl⟩ : _ ∧ _ ∧ _ := by simpa [Activation.step] using taken
          refine ⟨fun other away => Function.update_of_ne ?_ _ _, fun other agree =>
            ⟨Function.update other index value, by simp [Activation.step, inside], ?_⟩⟩
          · rintro rfl
            exact away (Finset.mem_Ico.mpr inside)
          · intro position member
            by_cases same : position = index
            · subst same
              simp
            · simp [same, agree position member]
  | @selected _ _ first last =>
      cases action with
      | run => exact .of_silent (fun _ => some _) (fun _ => rfl) fun _ _ _ => rfl
      | write => exact .of_none fun _ => rfl
  | @divided _ _ first last asyncTask own =>
      cases action with
      | run =>
          refine .of_silent (fun _ => if own.isReturned ∧ asyncTask.isReturned then
            some (.joined first last asyncTask own) else none) (fun _ => ?_) fun _ _ _ => rfl
          simp only [Activation.step]
          split <;> rfl
      | write => exact .of_none fun _ => rfl
  | returned | joined => exact .of_none fun _ => rfl

theorem Progress.stepAt_confined (progress : Progress entry data activation)
    (found : activation.at path = some node) (action : Action Value) :
    Confined node.mayAccess fun data => activation.stepAt action data path := by
  induction path generalizing entry activation with
  | nil =>
      obtain rfl := Option.some.inj found
      exact progress.step_confined action
  | cons child rest ih =>
      cases progress with
      | @divided _ _ first last asyncTask own _ _ _ _ _ _ _ _ asyncProgress ownProgress =>
          cases child with
          | asyncTask =>
              exact (ih asyncProgress found).map fun asyncTask => .divided first last asyncTask own
          | own => exact (ih ownProgress found).map fun own => .divided first last asyncTask own
      | joined => exact .of_none fun _ => by cases child <;> rfl
      | entered | selecting | selected | returned => cases child <;> simp [Activation.at] at found

/-! ## The whole call -/

variable {first last : Nat} {state : State Value}

theorem progress_of_reachable (reach : (multithreadedSort data first last).Reachable state) :
    Progress (slice data first last) state.data state.activation ∧
      (state.activation.first = first ∧ state.activation.last = last) ∧
      ∀ index, index < first ∨ last ≤ index → state.data index = data index := by
  refine reach.invariant (motive := fun state =>
    Progress (slice data first last) state.data state.activation ∧
      (state.activation.first = first ∧ state.activation.last = last) ∧
      ∀ index, index < first ∨ last ≤ index → state.data index = data index) ?_ ?_
  · rintro _ rfl
    exact ⟨.entered (List.Perm.refl _), ⟨rfl, rfl⟩, fun _ _ => rfl⟩
  · rintro before label after - ⟨progress, ⟨atFirst, atLast⟩, outside⟩ step
    obtain ⟨⟨data', activation'⟩, taken, rfl⟩ := Option.map_eq_some_iff.mp step
    have change := Activation.stepAt_cases taken
    obtain ⟨first', last'⟩ := change.range
    refine ⟨progress.step change, ⟨first'.trans atFirst, last'.trans atLast⟩, fun index away => ?_⟩
    rw [← outside index away]
    exact progress.step_outside change (by rw [atFirst, atLast]; exact away)

/-- In every state of a call of `multithreaded_sort` each activation reads and writes only the range
that it may access, and these ranges are disjoint for different threads.  When the call has
returned, so have all the activations that it has started, and the vector is what
`single_threaded_sort` leaves. -/
theorem multithreadedSort_agrees
    {nthElement : Contents Value → Nat → Nat → Nat → Contents Value}
    (lawful : LawfulNthElement nthElement)
    (reach : (multithreadedSort data first last).Reachable state) :
    (∀ path node action, state.activation.at path = some node →
      Confined node.mayAccess fun data => state.activation.stepAt action data path) ∧
    (∀ left right node node', state.activation.at left = some node →
      state.activation.at right = some node' → threadOf left ≠ threadOf right →
      Disjoint node.mayAccess node'.mayAccess) ∧
    (state.activation.isReturned = true →
      (∀ path node, state.activation.at path = some node → node.isReturned = true) ∧
      state.data = singleThreadedSort nthElement data first last) := by
  obtain ⟨progress, ⟨atFirst, atLast⟩, outside⟩ := progress_of_reachable reach
  refine ⟨fun _ _ action found => progress.stepAt_confined found action,
    fun _ _ _ _ found found' => progress.disjoint found found', fun returned => ?_⟩
  obtain ⟨finished, sorted, perm⟩ := progress.of_returned returned
  rw [atFirst, atLast] at sorted perm
  have sorts : SortedFrom data state.data first last := ⟨sorted, perm, outside⟩
  exact ⟨fun _ _ found => Activation.at_of_finished finished found,
    sorts.unique (singleThreadedSort_sortedFrom lawful data first last)⟩

/-- Four elements, sorted by three threads; the first one runs between the steps of the second. -/
theorem multithreadedSort_agrees_four : ∃ state : State Int,
    slice state.data 0 4 = [1, 2, 3, 4] ∧
      state.data = singleThreadedSort sortingNthElement ([4, 3, 2, 1].getD · 0) 0 4 := by
  let schedule : List (List Child × Action Int) :=
    [([], .run), ([], .write 0 2), ([], .write 1 1), ([], .write 2 3), ([], .write 3 4),
      ([], .run), ([], .run), ([.asyncTask], .run), ([.asyncTask], .write 0 1), ([.own], .run),
      ([.asyncTask], .write 1 2), ([.asyncTask], .run), ([.asyncTask], .run),
      ([.asyncTask, .own], .run), ([.asyncTask, .asyncTask], .run), ([.asyncTask], .run),
      ([], .run)]
  have passes : (schedule.foldlM (fun state label => State.next label state)
      (⟨([4, 3, 2, 1].getD · 0), .entered 0 4⟩ : State Int)).any (fun state =>
        state.activation.isReturned && decide (slice state.data 0 4 = [1, 2, 3, 4])) = true := by
    decide +kernel
  obtain ⟨state, execution, facts⟩ := (Option.any_eq_true _ _).mp passes
  obtain ⟨returned, sorted⟩ : _ ∧ _ := by simpa using facts
  have reach : (multithreadedSort ([4, 3, 2, 1].getD · 0) 0 4).Reachable state :=
    (TransitionSystem.Reachable.initial rfl).of_foldlM id execution
  exact ⟨state, sorted, ((multithreadedSort_agrees sortingNthElement_lawful reach).2.2 returned).2⟩

end Sorting
end ConcurrencyCourse
