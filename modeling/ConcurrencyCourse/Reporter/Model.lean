import ConcurrencyCourse.Library.Segments
import Mathlib.Algebra.Order.Field.Rat
import Mathlib.Algebra.Order.Ring.Unbundled.Rat
import Mathlib.Tactic.Linarith

/-!
# The comparing reporter

`SuiteComparingConsoleReporter` collects the runs that the benchmark library reports.  Benchmarks
that are compared with each other form a suite, and each of them has a list of measures.  A call
that reads the first or the last element of something empty is undefined, and the loop of
`PrintSuiteInfo` may not end; such calls yield `none`.
-/

namespace ConcurrencyCourse
namespace Reporter

open TextSearch

/-- The characters of a `std::string`. -/
abbrev Text := List Char

/-- `benchmark::BigO`. -/
inductive BigO
  | oNone
  | o1
  | oN
  | oNSquared
  | oNCubed
  | oLogN
  | oNLogN
  | oAuto
  | oLambda
  deriving DecidableEq

/-- A value of `GetAdjustedRealTime` in the range of `int`, outside of which the conversion is
undefined. -/
structure AdjustedTime where
  value : ℚ
  lower : -(2 ^ 31) - 1 < value
  upper : value < 2 ^ 31

/-- The conversion to `int` truncates towards zero. -/
def AdjustedTime.toInt (time : AdjustedTime) : Int := time.value.num.tdiv time.value.den

/-- The conversion stays in the range of `int`. -/
theorem AdjustedTime.toInt_range (time : AdjustedTime) :
    -(2 ^ 31) ≤ time.toInt ∧ time.toInt < 2 ^ 31 := by
  obtain ⟨value, lower, upper⟩ := time
  have positive : (0 : Int) < value.den := by exact_mod_cast value.den_pos
  have positive' : (0 : ℚ) < value.den := by exact_mod_cast value.den_pos
  have below : value.num < 2 ^ 31 * value.den := by
    rw [← Rat.num_div_den value, div_lt_iff₀ positive'] at upper
    exact_mod_cast upper
  have above : -value.num < (2 ^ 31 + 1) * value.den := by
    rw [← Rat.num_div_den value, lt_div_iff₀ positive'] at lower
    have lower : (-(2 ^ 31) - 1) * (value.den : Int) < value.num := by exact_mod_cast lower
    linarith
  simp only [toInt]
  by_cases sign : 0 ≤ value.num
  · rw [Int.tdiv_eq_ediv_of_nonneg sign]
    have nonneg := Int.ediv_nonneg sign positive.le
    exact ⟨by omega, Int.ediv_lt_of_lt_mul positive below⟩
  · have negated : 0 ≤ -value.num := by omega
    rw [← neg_neg value.num, Int.neg_tdiv, Int.tdiv_eq_ediv_of_nonneg negated]
    have nonneg := Int.ediv_nonneg negated positive.le
    have bound := Int.ediv_lt_of_lt_mul positive above
    omega

/-- `BenchmarkReporter::Run`.  The library reports the complexity and the error of the fit as two
runs, each with a flag of its own, so that no run has both flags. -/
structure Run where
  benchmarkName : Text
  /-- The value of `GetAdjustedRealTime`. -/
  adjustedRealTime : AdjustedTime
  complexity : BigO
  reportBigO : Bool
  reportRms : Bool
  exclusive : ¬ (reportBigO = true ∧ reportRms = true)

/-- `measure_t`. -/
structure Measure where
  name : Text
  time : Int
  complexity : BigO
  deriving DecidableEq

/-- `bench_t`. -/
structure Bench where
  name : Text
  measures : List Measure
  deriving DecidableEq

/-- `suite_`. -/
abbrev Suite := List Bench

/-- The text up to and without the first `'/'`. -/
def family (benchmarkName : Text) : Text :=
  match find ['/'] benchmarkName with
  | some pos => benchmarkName.take pos
  | none => benchmarkName

def addNewBenchmarkToSuite (suite : Suite) (benchmarkName : Text) : Suite :=
  suite ++ [⟨family benchmarkName, []⟩]

def startNewSuite : Suite := []

/-! ## The name of a measure -/

/-- `"iterations"`. -/
def iterationsWord : Text := "iterations".toList

/-- `"min_time"`. -/
def minTimeWord : Text := "min_time".toList

/-- Erase from the first occurrence of a word to the next `'/'`, or to the end. -/
def eraseModifier (skip measureName : Text) : Text :=
  match find skip measureName with
  | some posIter =>
      let stop := (findFrom ['/'] measureName posIter).map (· - posIter)
      erase measureName posIter stop
  | none => measureName

/-- `erase(begin())` while `front()` is `'/'`. -/
def eraseFront : Text → Option Text
  | [] => none
  | symbol :: measureName =>
      if symbol = '/' then eraseFront measureName else some (symbol :: measureName)

/-- `pop_back()` while `back()` is `'/'`: the same loop at the other end. -/
def popBack (measureName : Text) : Option Text :=
  (eraseFront measureName.reverse).map List.reverse

/-- Erase one `'/'` of the first `"//"` until there is none. -/
def eraseDoubles (measureName : Text) : Text :=
  match _ : find ['/', '/'] measureName with
  | some posDbl => eraseDoubles (erase measureName posDbl (some 1))
  | none => measureName
termination_by measureName.length
decreasing_by
  have within := length_le_of_find ‹find _ _ = some _›
  simp only [erase, List.length_append, List.length_take, List.length_drop]
  simp only [List.length_cons, List.length_nil] at within
  omega

/-- The text that `AddTimeMeasureToLastBenchmark` erases the modifiers from. -/
def eraseModifiers (benchmarkName : Text) : Text :=
  [iterationsWord, minTimeWord].foldl (fun measureName skip => eraseModifier skip measureName)
    benchmarkName

/-- The name that `AddTimeMeasureToLastBenchmark` gives to a measure. -/
def measureName (benchmarkName : Text) : Option Text := do
  let measureName ← popBack (eraseModifiers benchmarkName)
  let measureName ← eraseFront measureName
  return eraseDoubles measureName

/-! ## Reporting runs -/

/-- `suite_.back().measures.push_back`. -/
def pushMeasure (suite : Suite) (measure : Measure) : Option Suite :=
  match suite.getLast? with
  | some bench =>
      some (suite.dropLast ++ [{ bench with measures := bench.measures ++ [measure] }])
  | none => none

def addTimeMeasureToLastBenchmark (suite : Suite) (benchmarkName : Text) (t : Int) :
    Option Suite := do
  let name ← measureName benchmarkName
  pushMeasure suite ⟨name, t, .oNone⟩

def addBigOMeasureToLastBenchmark (suite : Suite) (bigO : BigO) : Option Suite :=
  pushMeasure suite ⟨"BigO".toList, 0, bigO⟩

/-- `bench_changed`. -/
def benchChanged (suite : Suite) (benchmarkName : Text) : Bool :=
  match suite.getLast? with
  | some bench => (find bench.name benchmarkName).isNone
  | none => true

/-- The text contains `"naive"`. -/
def containsNaive (benchmarkName : Text) : Bool := (find "naive".toList benchmarkName).isSome

def checkForBenchChanges (suite : Suite) (benchmarkName : Text) : Suite :=
  if benchChanged suite benchmarkName then
    addNewBenchmarkToSuite (if containsNaive benchmarkName then startNewSuite else suite)
      benchmarkName
  else suite

/-- One iteration of the loop of `ReportRuns`. -/
def reportRun (firstReport : Run) (suite : Suite) (r : Run) : Option Suite :=
  if !r.reportBigO && !r.reportRms then
    addTimeMeasureToLastBenchmark suite r.benchmarkName firstReport.adjustedRealTime.toInt
  else if r.reportBigO then addBigOMeasureToLastBenchmark suite r.complexity
  else some suite

def reportRuns (suite : Suite) (reports : List Run) : Option Suite :=
  match reports with
  | [] => none
  | firstReport :: _ =>
      reports.foldlM (reportRun firstReport) (checkForBenchChanges suite firstReport.benchmarkName)

end Reporter
end ConcurrencyCourse
