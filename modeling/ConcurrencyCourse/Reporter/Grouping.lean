import ConcurrencyCourse.Reporter.Recording
import Mathlib.Data.List.SplitBy

/-!
# Benches and families

Consecutive calls whose names have the same part before the first `'/'` belong to one group.  The
reporter compares the name of its last bench with the whole new name instead, as a substring.
-/

namespace ConcurrencyCourse
namespace Reporter

open TextSearch Segments

/-- A call of `ReportRuns` with a nonempty list. -/
structure Call where
  firstReport : Run
  others : List Run

namespace Call

def reports (call : Call) : List Run := call.firstReport :: call.others

/-- The name that opens a group. -/
def name (call : Call) : Text := call.firstReport.benchmarkName

/-- The measures that a call appends. -/
def measures (call : Call) : List Measure :=
  (measuresOf (fun _ => call.firstReport.adjustedRealTime.toInt) call.reports).getD []

end Call

/-- The calls of a reporter that has been constructed. -/
def runCalls (calls : List Call) : Option Suite :=
  calls.foldlM (fun suite call => reportRuns suite call.reports) startNewSuite

/-! ## The groups of a sequence of calls -/

def sameFamily (previous call : Call) : Bool := family previous.name == family call.name

/-- The maximal stretches of consecutive calls of one family. -/
def groups (calls : List Call) : List (List Call) := calls.splitBy sameFamily

/-- The bench of a group has the name of the family and the measures of its calls. -/
def benchOf : List Call → Bench
  | [] => ⟨[], []⟩
  | call :: calls => ⟨family call.name, (call :: calls).flatMap Call.measures⟩

/-- The name that opened the group contains `"naive"`. -/
def opensNaive (group : List Call) : Bool := group.head?.any fun call => containsNaive call.name

/-- The groups started since the latest one opened by a naive name, or since the construction. -/
structure SinceNaive (earlier kept : List (List Call)) : Prop where
  opening : earlier = [] ∨ ∃ group rest, kept = group :: rest ∧ opensNaive group = true
  later : ∀ group ∈ kept.tail, opensNaive group = false

/-- The suite consists of the benches of these groups. -/
def HoldsGroups (calls : List Call) (suite : Suite) : Prop :=
  ∃ earlier kept, groups calls = earlier ++ kept ∧ SinceNaive earlier kept ∧
    suite = kept.map benchOf

/-- After each call the suite holds the groups since the latest naive one, and two consecutive calls
use the same bench exactly when they have the same family. -/
structure GroupsByFamily (calls : List Call) : Prop where
  holds : ∀ done later, calls = done ++ later → ∃ suite, runCalls done = some suite ∧
    HoldsGroups done suite
  same : ∀ done previous call later, calls = done ++ previous :: call :: later →
    ∀ suite, runCalls (done ++ [previous]) = some suite →
      (benchChanged suite call.name = false ↔ family previous.name = family call.name)

variable {calls : List Call} {call previous : Call} {suite : Suite} {group : List Call}
  {earlier kept : List (List Call)}

/-! ## Adding a call to the groups -/

theorem groups_append_of_ne
    (differs : ∀ last ∈ calls.getLast?, family last.name ≠ family call.name) :
    groups (calls ++ [call]) = groups calls ++ [[call]] := by
  refine List.splitBy_append fun last lastOf first firstOf => ?_
  obtain rfl : call = first := by simpa using firstOf
  simpa [sameFamily] using differs last lastOf

theorem getLast_of_groups {init : List (List Call)} (groups_eq : groups calls = init ++ [group]) :
    group ≠ [] ∧ group.getLast? = calls.getLast? := by
  obtain ⟨flat, nonempty, -, -⟩ := List.splitBy_eq_iff.mp groups_eq
  have filled : group ≠ [] := fun empty => nonempty (by simp [empty])
  refine ⟨filled, ?_⟩
  rw [flat, List.flatten_append, List.flatten_singleton, List.getLast?_append]
  cases last : group.getLast? with
  | none => exact absurd (List.getLast?_eq_none_iff.mp last) filled
  | some => rfl

theorem groups_append_of_eq {init : List (List Call)} (groups_eq : groups calls = init ++ [group])
    (lastOf : calls.getLast? = some previous) (same : family previous.name = family call.name) :
    groups (calls ++ [call]) = init ++ [group ++ [call]] := by
  obtain ⟨flat, nonempty, chains, apart⟩ := List.splitBy_eq_iff.mp groups_eq
  obtain ⟨filled, last⟩ := getLast_of_groups groups_eq
  obtain ⟨initApart, -, boundary⟩ := List.isChain_append.mp apart
  refine List.splitBy_eq_iff.mpr ⟨?_, ?_, ?_, ?_⟩
  · rw [flat]
    simp
  · simpa using fun inside => nonempty (List.mem_append_left _ inside)
  · intro member inside
    rcases List.mem_append.mp inside with earlier | latest
    · exact chains member (List.mem_append_left _ earlier)
    · obtain rfl := List.mem_singleton.mp latest
      refine List.isChain_append.mpr ⟨chains group (by simp), List.isChain_singleton _, ?_⟩
      intro x xLast y yFirst
      obtain rfl : previous = x := by simpa [last, lastOf] using xLast
      obtain rfl : call = y := by simpa using yFirst
      simpa [sameFamily] using same
  · refine List.isChain_append.mpr ⟨initApart, List.isChain_singleton _, ?_⟩
    intro x xLast y yFirst
    obtain rfl : group ++ [call] = y := by simpa using yFirst
    obtain ⟨xSome, _, different⟩ := boundary x xLast group (by simp)
    exact ⟨xSome, by simp, by rwa [List.head_append_of_ne_nil filled]⟩

/-- The calls of the last group have the family of the last call. -/
theorem benchOf_name {init : List (List Call)} (groups_eq : groups calls = init ++ [group])
    (lastOf : calls.getLast? = some previous) : (benchOf group).name = family previous.name := by
  obtain ⟨filled, last⟩ := getLast_of_groups groups_eq
  obtain ⟨-, -, chains, -⟩ := List.splitBy_eq_iff.mp groups_eq
  have chain := chains group (by simp)
  have transitive : IsTrans Call fun x y => sameFamily x y = true :=
    ⟨fun x y z first second => by simp_all [sameFamily]⟩
  cases group with
  | nil => exact absurd rfl filled
  | cons first rest =>
      have related := (List.pairwise_cons.mp chain.pairwise).1
      have inside := List.mem_of_getLast? (last.trans lastOf)
      rcases List.mem_cons.mp inside with rfl | later
      · rfl
      · simpa [benchOf, sameFamily] using related previous later

theorem benchOf_append (filled : group ≠ []) (call : Call) :
    benchOf (group ++ [call]) = (benchOf group).append call.measures := by
  cases group with
  | nil => exact absurd rfl filled
  | cons first rest => simp [benchOf, Bench.append]

theorem benchOf_singleton (call : Call) :
    benchOf [call] = (⟨family call.name, []⟩ : Bench).append call.measures := by
  simp [benchOf, Bench.append]

/-! ## The groups that are kept -/

theorem SinceNaive.join (since : SinceNaive earlier (kept ++ [group])) (filled : group ≠ [])
    (call : Call) : SinceNaive earlier (kept ++ [group ++ [call]]) := by
  have same : opensNaive (group ++ [call]) = opensNaive group := by
    cases group with
    | nil => exact absurd rfl filled
    | cons => rfl
  obtain ⟨opening, later⟩ := since
  cases kept with
  | nil => exact ⟨by simpa [same] using opening, by simp⟩
  | cons first rest =>
      refine ⟨by simpa using opening, ?_⟩
      simpa [or_imp, forall_and, same] using later

theorem SinceNaive.snoc (since : SinceNaive earlier kept) (filled : kept ≠ [])
    (plain : opensNaive group = false) : SinceNaive earlier (kept ++ [group]) := by
  obtain ⟨opening, later⟩ := since
  cases kept with
  | nil => exact absurd rfl filled
  | cons first rest =>
      refine ⟨by simpa using opening, ?_⟩
      simpa [or_imp, forall_and, plain] using later

theorem SinceNaive.single (naive : opensNaive group = true) : SinceNaive earlier [group] :=
  ⟨Or.inr ⟨group, [], rfl, naive⟩, by simp⟩

theorem SinceNaive.exists_last (since : SinceNaive earlier kept)
    (groups_eq : groups calls = earlier ++ kept) (begun : calls ≠ []) :
    ∃ init group, kept = init ++ [group] := by
  rcases List.eq_nil_or_concat kept with rfl | ⟨init, group, rfl⟩
  · have empty : earlier = [] := by simpa using since.opening
    exact absurd (by simpa [groups, empty] using groups_eq) begun
  · exact ⟨init, group, List.concat_eq_append⟩

/-! ## What a call does to the suite -/

theorem family_begins (name : Text) : family name <+: name := by
  rw [family]
  split
  · exact List.take_prefix ..
  · exact List.prefix_rfl

theorem benchChanged_append_iff {init : Suite} {bench : Bench} (name : Text) :
    benchChanged (init ++ [bench]) name = false ↔ bench.name <:+: name := by
  rw [← isSome_find_iff]
  simp [benchChanged]

theorem checkForBenchChanges_of_changed {name : Text} (changed : benchChanged suite name = true) :
    checkForBenchChanges suite name =
      (if containsNaive name then [] else suite) ++ [⟨family name, []⟩] := by
  rw [checkForBenchChanges, if_pos changed]
  rfl

theorem reportRuns_of_measures {init : Suite} {bench : Bench} {measures : List Measure}
    (defined : measuresOf (fun _ => call.firstReport.adjustedRealTime.toInt) call.reports =
      some measures)
    (opened : checkForBenchChanges suite call.name = init ++ [bench]) :
    reportRuns suite call.reports = some (init ++ [bench.append call.measures]) := by
  rw [Call.reports, reportRuns_eq _ _ opened]
  simp only [Call.reports] at defined
  simp [defined, Call.measures, Call.reports]

theorem HoldsGroups.exists_last (holds : HoldsGroups calls suite)
    (lastOf : calls.getLast? = some previous) :
    ∃ earlier init group, groups calls = earlier ++ init ++ [group] ∧ group ≠ [] ∧
      SinceNaive earlier (init ++ [group]) ∧ (benchOf group).name = family previous.name ∧
      suite = init.map benchOf ++ [benchOf group] := by
  obtain ⟨earlier, kept, groups_eq, since, rfl⟩ := holds
  obtain ⟨init, group, rfl⟩ := since.exists_last groups_eq (by rintro rfl; simp at lastOf)
  rw [← List.append_assoc] at groups_eq
  exact ⟨earlier, init, group, groups_eq, (getLast_of_groups groups_eq).1, since,
    benchOf_name groups_eq lastOf, by simp⟩

/-- What decides whether two consecutive calls use the same bench. -/
theorem HoldsGroups.benchChanged_iff (holds : HoldsGroups calls suite)
    (lastOf : calls.getLast? = some previous) (call : Call) :
    benchChanged suite call.name = false ↔ family previous.name <:+: call.name := by
  obtain ⟨earlier, init, group, -, -, -, bench_name, rfl⟩ := holds.exists_last lastOf
  rw [benchChanged_append_iff, bench_name]

section Step

variable {measures : List Measure} (holds : HoldsGroups calls suite)
  (defined : measuresOf (fun _ => call.firstReport.adjustedRealTime.toInt) call.reports =
    some measures)
include holds defined

theorem HoldsGroups.first (empty : calls = []) : ∃ suite',
    reportRuns suite call.reports = some suite' ∧ HoldsGroups (calls ++ [call]) suite' := by
  obtain ⟨earlier, kept, groups_eq, -, rfl⟩ := holds
  subst empty
  obtain ⟨rfl, rfl⟩ : earlier = [] ∧ kept = [] := by simpa [groups] using groups_eq.symm
  have opened : checkForBenchChanges [] call.name = [] ++ [⟨family call.name, []⟩] := by
    rw [checkForBenchChanges_of_changed rfl]
    simp
  refine ⟨_, reportRuns_of_measures defined opened, [], [[call]], rfl, ⟨Or.inl rfl, by simp⟩, ?_⟩
  rw [List.map_singleton, benchOf_singleton]
  rfl

theorem HoldsGroups.join (lastOf : calls.getLast? = some previous)
    (same : family previous.name = family call.name) : ∃ suite',
    reportRuns suite call.reports = some suite' ∧ HoldsGroups (calls ++ [call]) suite' := by
  have contained : family previous.name <:+: call.name :=
    same ▸ (family_begins call.name).isInfix
  have unchanged := (holds.benchChanged_iff lastOf call).mpr contained
  obtain ⟨earlier, init, group, groups_eq, filled, since, -, rfl⟩ := holds.exists_last lastOf
  have opened : checkForBenchChanges (init.map benchOf ++ [benchOf group]) call.name =
      init.map benchOf ++ [benchOf group] := by
    rw [checkForBenchChanges, unchanged]
    rfl
  refine ⟨_, reportRuns_of_measures defined opened, earlier, init ++ [group ++ [call]], ?_,
    since.join filled call, ?_⟩
  · rw [groups_append_of_eq groups_eq lastOf same, List.append_assoc]
  · rw [List.map_append, List.map_singleton, benchOf_append filled]

/-- A call whose name does not contain the previous family opens a group; before a naive one the
earlier groups are dropped. -/
theorem HoldsGroups.enter (lastOf : calls.getLast? = some previous)
    (differs : family previous.name ≠ family call.name)
    (absent : ¬ family previous.name <:+: call.name) : ∃ suite',
    reportRuns suite call.reports = some suite' ∧ HoldsGroups (calls ++ [call]) suite' := by
  have changed : benchChanged suite call.name = true := by
    rwa [← Bool.not_eq_false, holds.benchChanged_iff lastOf]
  have opened := checkForBenchChanges_of_changed changed
  obtain ⟨earlier, init, group, groups_eq, -, since, -, rfl⟩ := holds.exists_last lastOf
  have groups_eq' : groups (calls ++ [call]) = earlier ++ (init ++ [group]) ++ [[call]] := by
    rw [groups_append_of_ne (by simpa [lastOf] using differs), groups_eq]
    simp
  refine ⟨_, reportRuns_of_measures defined opened, ?_⟩
  by_cases naive : containsNaive call.name = true
  · refine ⟨earlier ++ (init ++ [group]), [[call]], groups_eq', .single (by simpa), ?_⟩
    rw [if_pos naive, List.map_singleton, benchOf_singleton]
    rfl
  · refine ⟨earlier, init ++ [group] ++ [[call]], by simpa using groups_eq',
      since.snoc (by simp) (by simpa [opensNaive] using naive), ?_⟩
    rw [if_neg naive, List.map_append, List.map_append, List.map_singleton,
      List.map_singleton, benchOf_singleton]

/-- A call keeps the groups, unless it mistakes its family for the previous one. -/
theorem HoldsGroups.step (separate : ∀ last ∈ calls.getLast?,
      family last.name <:+: call.name → family call.name = family last.name) : ∃ suite',
    reportRuns suite call.reports = some suite' ∧ HoldsGroups (calls ++ [call]) suite' := by
  cases lastOf : calls.getLast? with
  | none => exact holds.first defined (List.getLast?_eq_none_iff.mp lastOf)
  | some previous =>
      by_cases same : family previous.name = family call.name
      · exact holds.join defined lastOf same
      · exact holds.enter defined lastOf same fun contained =>
          same (separate previous lastOf contained).symm

end Step

/-! ## When the reporter groups by family -/

theorem runCalls_append : runCalls (calls ++ [call]) =
    (runCalls calls).bind fun suite => reportRuns suite call.reports := by
  simp [runCalls, List.foldlM_append]

/-- A new name contains the family of the previous name only where it has that family. -/
def Separate (previous call : Call) : Prop :=
  family previous.name <:+: call.name → family call.name = family previous.name

/-- Something is left of the name of every plain run. -/
def Named (call : Call) : Prop :=
  ∀ r ∈ call.reports, r.plain = true → ¬ Vanishing (parts '/' r.benchmarkName)

theorem named_iff (call : Call) : Named call ↔ ∃ measures,
    measuresOf (fun _ => call.firstReport.adjustedRealTime.toInt) call.reports = some measures := by
  have defined := exists_measuresOf_iff (fun _ => call.firstReport.adjustedRealTime.toInt)
    (fun _ => call.firstReport.adjustedRealTime.toInt) call.reports
  simpa [Named] using defined.symm

theorem named_of_reportRuns {suite' : Suite}
    (reported : reportRuns suite call.reports = some suite') : Named call := by
  obtain ⟨init, bench, opened⟩ := exists_checkForBenchChanges suite call.name
  rw [Call.reports, reportRuns_eq _ _ opened] at reported
  obtain ⟨measures, defined, -⟩ := Option.map_eq_some_iff.mp reported
  exact (named_iff call).mpr ⟨measures, defined⟩

theorem exists_suite_of_separate (named : ∀ call ∈ calls, Named call)
    (separate : calls.IsChain Separate) :
    ∃ suite, runCalls calls = some suite ∧ HoldsGroups calls suite := by
  induction calls using List.reverseRecOn with
  | nil => exact ⟨[], rfl, [], [], rfl, ⟨Or.inl rfl, by simp⟩, rfl⟩
  | append_singleton calls call ih =>
      obtain ⟨earlier, latest⟩ := List.forall_mem_append.mp named
      obtain ⟨chain, -, boundary⟩ := List.isChain_append.mp separate
      obtain ⟨suite, run, holds⟩ := ih earlier chain
      obtain ⟨measures, defined⟩ := (named_iff call).mp (latest call (by simp))
      obtain ⟨suite', reported, holds'⟩ := holds.step defined fun last lastOf =>
        boundary last lastOf call (by simp)
      exact ⟨suite', by rw [runCalls_append, run]; exact reported, holds'⟩

/-- The reporter groups by family exactly when something is left of the names and no name contains
the previous family without having it.  The runs have at most one report flag, and times in the
range of `int`. -/
theorem groupsByFamily_iff (calls : List Call) :
    GroupsByFamily calls ↔ (∀ call ∈ calls, Named call) ∧ calls.IsChain Separate := by
  constructor
  · intro grouped
    refine ⟨fun call member => ?_, List.isChain_iff_forall_rel_of_append_cons_cons.mpr ?_⟩
    · obtain ⟨done, later, rfl⟩ := List.append_of_mem member
      obtain ⟨suite', run, -⟩ := grouped.holds (done ++ [call]) later (by simp)
      obtain ⟨suite, -, reported⟩ := Option.bind_eq_some_iff.mp (runCalls_append.symm.trans run)
      exact named_of_reportRuns reported
    · intro previous call done later split
      obtain ⟨suite, run, holds⟩ :=
        grouped.holds (done ++ [previous]) (call :: later) (by simp [split])
      have same := grouped.same done previous call later split suite run
      have decided := holds.benchChanged_iff List.getLast?_concat call
      exact fun contained => (same.mp (decided.mpr contained)).symm
  · rintro ⟨named, separate⟩
    have reached (done later : List Call) (split : calls = done ++ later) :
        ∃ suite, runCalls done = some suite ∧ HoldsGroups done suite := by
      subst split
      exact exists_suite_of_separate (fun call member => named call (List.mem_append_left _ member))
        separate.left_of_append
    refine ⟨reached, ?_⟩
    rintro done previous call later split suite run
    obtain ⟨suite', run', holds⟩ := reached (done ++ [previous]) (call :: later) (by simp [split])
    obtain rfl := Option.some.inj (run'.symm.trans run)
    rw [holds.benchChanged_iff List.getLast?_concat]
    have apart := List.isChain_iff_forall_rel_of_append_cons_cons.mp separate split
    exact ⟨fun contained => (apart contained).symm,
      fun same => same ▸ (family_begins call.name).isInfix⟩

/-- A call that reports one run of the given name. -/
def callOf (benchmarkName : Text) : Call := ⟨plainRun benchmarkName oneTime, []⟩

theorem reportRuns_callOf {benchmarkName label : Text} {init : Suite} {bench : Bench}
    (named : measureName benchmarkName = some label)
    (opened : checkForBenchChanges suite benchmarkName = init ++ [bench]) :
    reportRuns suite (callOf benchmarkName).reports =
      some (init ++ [bench.append [⟨label, 1, .oNone⟩]]) := by
  refine (reportRuns_eq _ _ opened).trans ?_
  simp [measuresOf, measureAt, callOf, plainRun, named, oneTime, AdjustedTime.toInt]

/-- The measures of `unoptimized` are appended to the bench of `optimized`. -/
theorem mixed_families :
    ¬ GroupsByFamily [callOf "optimized/8".toList, callOf "unoptimized/8".toList] ∧
    runCalls [callOf "optimized/8".toList, callOf "unoptimized/8".toList] =
      some [⟨"optimized".toList,
        [⟨"optimized/8".toList, 1, .oNone⟩, ⟨"unoptimized/8".toList, 1, .oNone⟩]⟩] := by
  have opened : checkForBenchChanges [] "optimized/8".toList =
      [] ++ [⟨"optimized".toList, []⟩] := by
    decide
  have kept : checkForBenchChanges [⟨"optimized".toList, [⟨"optimized/8".toList, 1, .oNone⟩]⟩]
      "unoptimized/8".toList =
        [] ++ [⟨"optimized".toList, [⟨"optimized/8".toList, 1, .oNone⟩]⟩] := by
    decide
  have label : measureName "optimized/8".toList = some "optimized/8".toList := by
    rw [measureName_eq]
    decide
  have label' : measureName "unoptimized/8".toList = some "unoptimized/8".toList := by
    rw [measureName_eq]
    decide
  have first := reportRuns_callOf label opened
  have second := reportRuns_callOf label' kept
  refine ⟨fun grouped => ?_, ?_⟩
  · have same := grouped.same [] (callOf "optimized/8".toList) (callOf "unoptimized/8".toList) []
      rfl _ first
    exact absurd (same.mp (by decide)) (by decide)
  · rw [runCalls, List.foldlM_cons, startNewSuite, first]
    exact second

end Reporter
end ConcurrencyCourse
