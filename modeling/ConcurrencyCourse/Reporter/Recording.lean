import ConcurrencyCourse.Reporter.Normalisation
import Mathlib.Tactic.NormNum

/-!
# What a call of `ReportRuns` records

A call appends one measure for each run that is not an RMS run.  The time of a measure is that of
the first run of the list, and the name of a run may leave nothing after the normalisation.
-/

namespace ConcurrencyCourse
namespace Reporter

open TextSearch Segments

/-! ## Names of which nothing is left -/

/-- The parts of a name of which the erasures leave nothing. -/
inductive Vanishing : List Text → Prop
  | nil : Vanishing []
  | iterations {part : Text} : iterationsWord <+: part → Vanishing [part]
  | minTime {part : Text} : minTimeWord <+: part → Vanishing [part]
  | iterationsMinTime {part part' : Text} : iterationsWord <+: part → minTimeWord <+: part' →
      Vanishing [part, part']
  | minTimeIterations {part part' : Text} : minTimeWord <+: part → ¬ iterationsWord <:+: part →
      iterationsWord <+: part' → Vanishing [part, part']

/-- The two words do not overlap. -/
theorem find_iterationsWord_append (rest : Text) :
    find iterationsWord (minTimeWord ++ rest) = (find iterationsWord rest).map (· + 8) := by
  have letters : iterationsWord = 'i' :: 't' :: "erations".toList := by decide
  have letters' : minTimeWord = ['m', 'i', 'n', '_', 't', 'i', 'm', 'e'] := by decide
  rw [letters, letters']
  simp only [List.cons_append, List.nil_append, find, List.cons_prefix_cons, Char.reduceEq,
    false_and, and_false, if_false, Option.map_map]
  rfl

theorem keptParts_of_vanishing {parts : List Text} (vanishing : Vanishing parts) :
    keptParts parts = [] := by
  have noWord : ¬ minTimeWord <:+: ([] : Text) := by decide
  cases vanishing with
  | nil => rfl
  | iterations begins =>
      rw [keptParts, cutFirst_of_begins begins, cutFirst_cons_of_absent noWord]
      rfl
  | minTime begins =>
      obtain ⟨rest, rfl⟩ := begins
      have shortened : ∃ rest', cutFirst iterationsWord [minTimeWord ++ rest] =
          [minTimeWord ++ rest'] := by
        rw [cutFirst, find_iterationsWord_append]
        cases find iterationsWord rest with
        | none => exact ⟨rest, rfl⟩
        | some index => exact ⟨rest.take index, rfl⟩
      obtain ⟨rest', cut⟩ := shortened
      rw [keptParts, cut, cutFirst_of_begins (List.prefix_append ..)]
      rfl
  | iterationsMinTime begins begins' =>
      rw [keptParts, cutFirst_of_begins begins, cutFirst_cons_of_absent noWord,
        cutFirst_of_begins begins']
      rfl
  | minTimeIterations begins absent begins' =>
      rw [keptParts, cutFirst_cons_of_absent absent, cutFirst_of_begins begins',
        cutFirst_of_begins begins]
      rfl

theorem vanishing_of_keptParts {parts : List Text} (proper : ∀ part ∈ parts, part ≠ [])
    (empty : keptParts parts = []) : Vanishing parts := by
  rw [keptParts_eq] at empty
  have cut := cutDrop_cases iterationsWord_ne_nil proper
  have proper' (part) (member : part ∈ cutDrop iterationsWord parts) : part ≠ [] := by
    simpa using (List.mem_filter.mp member).2
  have cut' := cutDrop_cases minTimeWord_ne_nil proper'
  rw [empty] at cut'
  generalize cutDrop iterationsWord parts = between at cut cut'
  -- The second cut leaves nothing of no part, or of one part that begins with its word.
  have last : between = [] ∨ ∃ part, between = [part] ∧ minTimeWord <+: part := by
    generalize rest_eq : ([] : List Text) = rest at cut'
    cases cut' with
    | absent => exact Or.inl rfl
    | @removed before after part _ begins =>
        obtain ⟨rfl, rfl⟩ : before = [] ∧ after = [] := by simpa using rest_eq.symm
        exact Or.inr ⟨part, rfl, begins⟩
    | shortened => simp at rest_eq
  rcases last with rfl | ⟨part, rfl, begins⟩
  · generalize rest_eq : ([] : List Text) = rest at cut
    cases cut with
    | absent => rw [← rest_eq]; exact .nil
    | @removed before after part _ begins =>
        obtain ⟨rfl, rfl⟩ : before = [] ∧ after = [] := by simpa using rest_eq.symm
        exact .iterations begins
    | shortened => simp at rest_eq
  · generalize rest_eq : [part] = rest at cut
    cases cut with
    | absent => rw [← rest_eq]; exact .minTime begins
    | @removed before after removed none begins' =>
        rcases List.append_eq_singleton_iff.mp rest_eq.symm with ⟨rfl, rfl⟩ | ⟨rfl, rfl⟩
        · exact .iterationsMinTime begins' begins
        · exact .minTimeIterations begins (none part (by simp)) begins'
    | @shortened before after whole short _ _ _ _ shorter =>
        obtain ⟨rfl, rfl, rfl⟩ : before = [] ∧ short = part ∧ after = [] := by
          simpa [List.append_eq_singleton_iff] using rest_eq.symm
        exact .minTime (begins.trans shorter)

/-- The normalisation is undefined exactly for the names of which nothing is left. -/
theorem measureName_eq_none_iff (name : Text) :
    measureName name = none ↔ Vanishing (parts '/' name) := by
  rw [measureName_eq]
  constructor
  · intro undefined
    refine vanishing_of_keptParts (fun part member => (mem_parts member).2) ?_
    by_contra some
    simp [some] at undefined
  · intro vanishing
    rw [if_pos (keptParts_of_vanishing vanishing)]

/-! ## The measures of a call -/

/-- Neither a complexity run nor an RMS run. -/
def Run.plain (r : Run) : Bool := !r.reportBigO && !r.reportRms

/-- The measure of a run that is not an RMS run, with the time that is to be recorded. -/
def measureAt (t : Int) (r : Run) : Option Measure :=
  if r.reportBigO then some ⟨"BigO".toList, 0, r.complexity⟩
  else (measureName r.benchmarkName).map fun name => ⟨name, t, .oNone⟩

/-- The measures of a list of runs, with the time that is to be recorded for each. -/
def measuresOf (time : Run → Int) (reports : List Run) : Option (List Measure) :=
  (reports.filter fun r => !r.reportRms).mapM fun r => measureAt (time r) r

/-- The suite to which a call appends its measures. -/
def openedSuite (suite : Suite) (reports : List Run) : Suite :=
  match reports with
  | [] => suite
  | firstReport :: _ => checkForBenchChanges suite firstReport.benchmarkName

/-- The call is defined, and it appends, in order, one measure for each run that is not an RMS run,
with the name and the time of that run or with its complexity. -/
def RecordsFaithfully (suite : Suite) (reports : List Run) : Prop :=
  ∃ measures suite', measuresOf (fun r => r.adjustedRealTime.toInt) reports = some measures ∧
    reportRuns suite reports = some suite' ∧
    measures.foldlM pushMeasure (openedSuite suite reports) = some suite'

variable {suite earlier : Suite} {bench : Bench} {measure : Measure} {time time' : Run → Int}
  {reports : List Run}

/-- A bench with measures behind its own. -/
def Bench.append (bench : Bench) (measures : List Measure) : Bench :=
  { bench with measures := bench.measures ++ measures }

@[simp] theorem pushMeasure_append (earlier : Suite) (bench : Bench) (measure : Measure) :
    pushMeasure (earlier ++ [bench]) measure = some (earlier ++ [bench.append [measure]]) := by
  simp [pushMeasure, Bench.append]

@[simp] theorem Bench.append_append (left right : List Measure) :
    (bench.append left).append right = bench.append (left ++ right) := by
  simp [Bench.append]

theorem foldlM_pushMeasure (earlier : Suite) (bench : Bench) (measures : List Measure) :
    measures.foldlM pushMeasure (earlier ++ [bench]) =
      some (earlier ++ [bench.append measures]) := by
  induction measures generalizing bench with
  | nil => simp [Bench.append]
  | cons measure measures ih =>
      rw [List.foldlM_cons, pushMeasure_append]
      exact (ih _).trans (by simp)

theorem measuresOf_cons (r : Run) : measuresOf time (r :: reports) =
    if r.reportRms then measuresOf time reports
    else (measureAt (time r) r).bind fun measure =>
      (measuresOf time reports).map (measure :: ·) := by
  cases rms : r.reportRms with
  | true => simp [measuresOf, rms]
  | false =>
      simp only [measuresOf, rms, List.filter_cons, Bool.not_false, if_true, List.mapM_cons,
        Bool.false_eq_true, if_false]
      cases measureAt (time r) r with
      | none => rfl
      | some measure =>
          cases (reports.filter fun r => !r.reportRms).mapM fun r => measureAt (time r) r <;> rfl

theorem length_le_of_measuresOf {measures : List Measure}
    (defined : measuresOf time reports = some measures) : measures.length ≤ reports.length := by
  induction reports generalizing measures with
  | nil =>
      obtain rfl : [] = measures := by simpa [measuresOf] using defined
      rfl
  | cons r reports ih =>
      rw [measuresOf_cons] at defined
      split at defined
      · exact (ih defined).trans (by simp)
      · obtain ⟨measure, -, more⟩ := Option.bind_eq_some_iff.mp defined
        obtain ⟨later, others, rfl⟩ := Option.map_eq_some_iff.mp more
        simpa using ih others

theorem reportRun_append (firstReport r : Run) (earlier : Suite) (bench : Bench) :
    reportRun firstReport (earlier ++ [bench]) r =
      if r.reportRms then some (earlier ++ [bench])
      else (measureAt firstReport.adjustedRealTime.toInt r).map fun measure =>
        earlier ++ [bench.append [measure]] := by
  have exclusive := r.exclusive
  cases rms : r.reportRms with
  | true =>
      have bigO : r.reportBigO = false := by simpa [rms] using exclusive
      simp [reportRun, rms, bigO]
  | false =>
      cases bigO : r.reportBigO with
      | true => simp [reportRun, rms, bigO, measureAt, addBigOMeasureToLastBenchmark]
      | false =>
          cases name : measureName r.benchmarkName <;>
            simp [reportRun, rms, bigO, measureAt, addTimeMeasureToLastBenchmark, name]

/-- The loop of `ReportRuns` records the time of the first run for every run. -/
theorem foldlM_reportRun (firstReport : Run) (reports : List Run) (earlier : Suite)
    (bench : Bench) :
    reports.foldlM (reportRun firstReport) (earlier ++ [bench]) =
      (measuresOf (fun _ => firstReport.adjustedRealTime.toInt) reports).map fun measures =>
        earlier ++ [bench.append measures] := by
  induction reports generalizing bench with
  | nil => simp [measuresOf, Bench.append]
  | cons r reports ih =>
      rw [List.foldlM_cons, measuresOf_cons, reportRun_append]
      split
      · exact ih bench
      · cases measureAt firstReport.adjustedRealTime.toInt r with
        | none => rfl
        | some measure =>
            refine (ih _).trans ?_
            simp [Function.comp_def]

theorem exists_checkForBenchChanges (suite : Suite) (benchmarkName : Text) :
    ∃ earlier bench, checkForBenchChanges suite benchmarkName = earlier ++ [bench] := by
  rw [checkForBenchChanges]
  split
  · exact ⟨_, _, rfl⟩
  · rename_i same
    cases last : suite.getLast? with
    | none => simp [benchChanged, last] at same
    | some bench => exact ⟨_, bench, (List.dropLast_append_getLast? bench last).symm⟩

theorem reportRuns_eq (firstReport : Run) (others : List Run)
    (opened : checkForBenchChanges suite firstReport.benchmarkName = earlier ++ [bench]) :
    reportRuns suite (firstReport :: others) =
      (measuresOf (fun _ => firstReport.adjustedRealTime.toInt) (firstReport :: others)).map
        fun measures => earlier ++ [bench.append measures] := by
  rw [reportRuns, opened, foldlM_reportRun]

/-! ## When a call records its runs faithfully -/

theorem exists_measureAt_iff (r : Run) (included : r.reportRms = false) (t t' : Int) :
    (∃ measure, measureAt t r = some measure ∧ measureAt t' r = some measure) ↔
      (r.plain = true → t = t' ∧ ¬ Vanishing (parts '/' r.benchmarkName)) := by
  cases bigO : r.reportBigO with
  | true => simp [measureAt, bigO, Run.plain]
  | false =>
      rw [← measureName_eq_none_iff]
      cases name : measureName r.benchmarkName <;>
        simp [measureAt, bigO, Run.plain, included, name, eq_comm]

/-- Two ways to record the time give the same measures when they agree on the plain runs, and there
are measures when the names of these do not vanish. -/
theorem exists_measuresOf_iff (time time' : Run → Int) (reports : List Run) :
    (∃ measures, measuresOf time reports = some measures ∧
      measuresOf time' reports = some measures) ↔
      ∀ r ∈ reports, r.plain = true →
        time r = time' r ∧ ¬ Vanishing (parts '/' r.benchmarkName) := by
  induction reports with
  | nil => simp [measuresOf]
  | cons r reports ih =>
      rw [List.forall_mem_cons, ← ih]
      simp only [measuresOf_cons]
      cases rms : r.reportRms with
      | true => simp [Run.plain, rms]
      | false =>
          rw [← exists_measureAt_iff r rms]
          cases measureAt (time r) r with
          | none => simp
          | some measure =>
              cases measureAt (time' r) r with
              | none => simp
              | some measure' =>
                  cases measuresOf time reports <;> cases measuresOf time' reports <;>
                    simp [eq_comm]

/-- A call records its runs faithfully exactly when its list is not empty, every plain run has the
time of the first run, and something is left of the name of every plain run.  The runs have at most
one report flag, and times in the range of `int`. -/
theorem recordsFaithfully_iff (suite : Suite) (reports : List Run) :
    RecordsFaithfully suite reports ↔
      ∃ firstReport, reports.head? = some firstReport ∧ ∀ r ∈ reports, r.plain = true →
        r.adjustedRealTime.toInt = firstReport.adjustedRealTime.toInt ∧
          ¬ Vanishing (parts '/' r.benchmarkName) := by
  cases reports with
  | nil => simp [RecordsFaithfully, reportRuns]
  | cons firstReport others =>
      obtain ⟨earlier, bench, opened⟩ :=
        exists_checkForBenchChanges suite firstReport.benchmarkName
      have same := exists_measuresOf_iff (fun r => r.adjustedRealTime.toInt)
        (fun _ => firstReport.adjustedRealTime.toInt) (firstReport :: others)
      simp only [List.head?_cons, Option.some.injEq, exists_eq_left', ← same, RecordsFaithfully,
        reportRuns_eq firstReport others opened, openedSuite, opened, foldlM_pushMeasure]
      constructor
      · rintro ⟨measures, suite', own, recorded, rfl⟩
        obtain ⟨measures', first, appended⟩ := Option.map_eq_some_iff.mp recorded
        obtain rfl : measures' = measures := by simpa [Bench.append] using appended
        exact ⟨measures', own, first⟩
      · rintro ⟨measures, own, first⟩
        exact ⟨measures, _, own, by rw [first]; rfl, rfl⟩

theorem inRange_one : -(2 ^ 31) - 1 < (1 : ℚ) ∧ (1 : ℚ) < 2 ^ 31 := by norm_num

theorem inRange_two : -(2 ^ 31) - 1 < (2 : ℚ) ∧ (2 : ℚ) < 2 ^ 31 := by norm_num

def oneTime : AdjustedTime := ⟨1, inRange_one.1, inRange_one.2⟩

def twoTime : AdjustedTime := ⟨2, inRange_two.1, inRange_two.2⟩

/-- A plain run with the given name and time. -/
def plainRun (benchmarkName : Text) (time : AdjustedTime) : Run :=
  ⟨benchmarkName, time, .oNone, false, false, fun both => Bool.false_ne_true both.1⟩

/-- Two repetitions of a benchmark, with the times 1 and 2. -/
def repetitions : List Run :=
  [plainRun "sort/8".toList oneTime, plainRun "sort/8".toList twoTime]

/-- The empty list is undefined, and of two repetitions the second gets the time of the first. -/
theorem wrong_records : ¬ RecordsFaithfully [] [] ∧ ¬ RecordsFaithfully [] repetitions ∧
    repetitions.map (fun r => r.adjustedRealTime.toInt) = [1, 2] ∧
    reportRuns [] repetitions = some [⟨"sort".toList,
      [⟨"sort/8".toList, 1, .oNone⟩, ⟨"sort/8".toList, 1, .oNone⟩]⟩] := by
  have name : measureName ['s', 'o', 'r', 't', '/', '8'] =
      some ['s', 'o', 'r', 't', '/', '8'] := by
    rw [measureName_eq]
    decide
  have own : measuresOf (fun r => r.adjustedRealTime.toInt) repetitions =
      some [⟨"sort/8".toList, 1, .oNone⟩, ⟨"sort/8".toList, 2, .oNone⟩] := by
    simp [measuresOf, repetitions, plainRun, measureAt, name, oneTime, twoTime, AdjustedTime.toInt]
  have recorded : reportRuns [] repetitions = some [⟨"sort".toList,
      [⟨"sort/8".toList, 1, .oNone⟩, ⟨"sort/8".toList, 1, .oNone⟩]⟩] := by
    have opened : checkForBenchChanges [] "sort/8".toList = [] ++ [⟨"sort".toList, []⟩] := by
      decide
    refine (reportRuns_eq _ _ opened).trans ?_
    simp [measuresOf, plainRun, measureAt, name, oneTime, AdjustedTime.toInt, Bench.append]
  refine ⟨?_, ?_, by simp [repetitions, plainRun, oneTime, twoTime, AdjustedTime.toInt], recorded⟩
  · rintro ⟨_, _, -, undefined, -⟩
    cases undefined
  · rintro ⟨measures, suite', own', recorded', appended⟩
    obtain rfl := Option.some.inj (own.symm.trans own')
    obtain rfl := Option.some.inj (recorded.symm.trans recorded')
    exact absurd appended (by decide)

end Reporter
end ConcurrencyCourse
