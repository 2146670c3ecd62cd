import ConcurrencyCourse.Reporter.Model
import ConcurrencyCourse.Library.Columns

/-!
# The table of a suite

`PrintSuiteInfo` compares the benchmarks of a suite with the first one: a line with their names, and
a line for every measure that all of them have.  The table is defined when one of the benchmarks has
fewer measures than an `unsigned` has values, and it can be read back when its entries have no
blanks and are narrower than their columns.
-/

namespace ConcurrencyCourse
namespace Reporter

open Segments Columns

/-- `benchmark::GetBigOString`. -/
def getBigOString : BigO → Text
  | .oN => "N".toList
  | .oNSquared => "N^2".toList
  | .oNCubed => "N^3".toList
  | .oLogN => "lgN".toList
  | .oNLogN => "NlgN".toList
  | .o1 => "(1)".toList
  | _ => "f(N)".toList

/-- `gap_between_columns`. -/
def gapBetweenColumns : Nat := 3

def firstColumnWidth (front : Bench) : Nat :=
  (front.measures.map fun m => m.name.length).foldl max "measure".length + gapBetweenColumns

def maxColumnWidth (suite : Suite) : Nat :=
  (suite.map fun bench => bench.name.length).foldl max 0 + gapBetweenColumns

/-- `min_measures`, which begins with the greatest `size_t`. -/
def minMeasures (suite : Suite) : Nat :=
  (suite.map fun bench => bench.measures.length).foldl min (2 ^ 64 - 1)

/-- What is printed for a measure of a bench; `relative` is the quotient of two times as the stream
writes it.  Reading behind the last measure is undefined. -/
def entry (relative : Int → Int → Text) (front bench : Bench) (i : Nat) : Option Text := do
  let measure ← bench.measures[i]?
  if measure.complexity = .oNone then
    let base ← front.measures[i]?
    return relative base.time measure.time
  else return getBigOString measure.complexity

/-- The line of a measure. -/
def measureLine (relative : Int → Int → Text) (suite : Suite) (front : Bench) (i : Nat) :
    Option Text := do
  let measure ← front.measures[i]?
  let entries ← suite.mapM fun bench => entry relative front bench i
  return line ' ' (firstColumnWidth front) (maxColumnWidth suite) measure.name entries ++ ['\n']

/-- The loop over the measures from the `unsigned i` on.  After `2 ^ 32` iterations `i` is `0`
again, and the loop does not end. -/
def measureLines (relative : Int → Int → Text) (suite : Suite) (front : Bench) :
    (left i : Nat) → Option (List Text)
  | 0, _ => none
  | left + 1, i =>
      if i < minMeasures suite then do
        let line ← measureLine relative suite front i
        let lines ← measureLines relative suite front left ((i + 1) % 2 ^ 32)
        return line :: lines
      else some []

/-- `PrintSuiteInfo`. -/
def printSuiteInfo (relative : Int → Int → Text) (suite : Suite) : Option Text :=
  match suite with
  | [] => some []
  | front :: _ => do
      let header := line ' ' (firstColumnWidth front) (maxColumnWidth suite) "measure".toList
        (suite.map fun bench => bench.name)
      let lines ← measureLines relative suite front (2 ^ 32) 0
      return "*** Results:\n".toList ++ header ++ ['\n'] ++ lines.flatten ++ "***\n\n".toList

/-! ## When the table is defined -/

variable {relative : Int → Int → Text} {suite : Suite} {front bench : Bench} {i : Nat}

theorem foldl_min_le (start : Nat) (lengths : List Nat) :
    lengths.foldl min start ≤ start ∧ ∀ length ∈ lengths, lengths.foldl min start ≤ length := by
  induction lengths generalizing start with
  | nil => exact ⟨le_rfl, nofun⟩
  | cons first lengths ih =>
      obtain ⟨below, each⟩ := ih (min start first)
      refine ⟨below.trans (min_le_left _ _), fun length member => ?_⟩
      rcases List.mem_cons.mp member with rfl | member
      · exact below.trans (min_le_right _ _)
      · exact each length member

theorem le_foldl_max (start : Nat) (lengths : List Nat) :
    start ≤ lengths.foldl max start ∧ ∀ length ∈ lengths, length ≤ lengths.foldl max start := by
  induction lengths generalizing start with
  | nil => exact ⟨le_rfl, nofun⟩
  | cons first lengths ih =>
      obtain ⟨above, each⟩ := ih (max start first)
      refine ⟨(le_max_left _ _).trans above, fun length member => ?_⟩
      rcases List.mem_cons.mp member with rfl | member
      · exact (le_max_right _ _).trans above
      · exact each length member

theorem lt_length_of_minMeasures (member : bench ∈ suite) (shown : i < minMeasures suite) :
    i < bench.measures.length :=
  shown.trans_le ((foldl_min_le _ _).2 _ (List.mem_map_of_mem member))

/-- What a table shows for a measure of a bench. -/
def shownEntry (relative : Int → Int → Text) (front bench : Bench) (i : Nat) : Text :=
  (entry relative front bench i).getD []

theorem entry_eq (inside : i < front.measures.length) (inside' : i < bench.measures.length) :
    entry relative front bench i = some (shownEntry relative front bench i) := by
  have defined : (entry relative front bench i).isSome = true := by
    simp only [entry, List.getElem?_eq_getElem inside, List.getElem?_eq_getElem inside',
      Option.bind_eq_bind, Option.bind_some]
    split <;> rfl
  obtain ⟨text, same⟩ := Option.isSome_iff_exists.mp defined
  rw [shownEntry, same]
  rfl

/-- The names of the benches, and for every measure that all of them have its name at the first
bench and what is shown for each bench. -/
def grid (relative : Int → Int → Text) (suite : Suite) : List (Text × List Text) :=
  match suite with
  | [] => []
  | front :: _ => ("measure".toList, suite.map fun bench => bench.name) ::
      (List.range (minMeasures suite)).map fun i =>
        ((front.measures[i]?.map Measure.name).getD [],
          suite.map fun bench => shownEntry relative front bench i)

/-- The lines of a table. -/
def tableLines (relative : Int → Int → Text) (suite : Suite) (front : Bench) : List Text :=
  "*** Results:".toList ::
    (grid relative suite).map (fun row =>
      line ' ' (firstColumnWidth front) (maxColumnWidth suite) row.1 row.2) ++ ["***".toList]

theorem mapM_eq_some {Source Target : Type*} {next : Source → Option Target}
    {result : Source → Target} {sources : List Source}
    (defined : ∀ source ∈ sources, next source = some (result source)) :
    sources.mapM next = some (sources.map result) := by
  induction sources with
  | nil => rfl
  | cons source sources ih =>
      obtain ⟨own, others⟩ := List.forall_mem_cons.mp defined
      rw [List.mapM_cons, own, ih others]
      rfl

theorem measureLine_eq (member : front ∈ suite) (shown : i < minMeasures suite) :
    measureLine relative suite front i =
      some (line ' ' (firstColumnWidth front) (maxColumnWidth suite)
        ((front.measures[i]?.map Measure.name).getD [])
        (suite.map fun bench => shownEntry relative front bench i) ++ ['\n']) := by
  have inside := lt_length_of_minMeasures member shown
  have entries : (suite.mapM fun bench => entry relative front bench i) =
      some (suite.map fun bench => shownEntry relative front bench i) :=
    mapM_eq_some fun bench member' => entry_eq inside (lt_length_of_minMeasures member' shown)
  simp only [measureLine, List.getElem?_eq_getElem inside, entries]
  rfl

/-- As long as `i` does not wrap, the loop never reads behind the last measure of a bench. -/
theorem measureLines_eq {left : Nat} (member : front ∈ suite) (few : minMeasures suite < 2 ^ 32)
    (reached : i ≤ minMeasures suite) (enough : minMeasures suite < i + left) :
    measureLines relative suite front left i =
      some ((List.range' i (minMeasures suite - i)).map fun i =>
        line ' ' (firstColumnWidth front) (maxColumnWidth suite)
          ((front.measures[i]?.map Measure.name).getD [])
          (suite.map fun bench => shownEntry relative front bench i) ++ ['\n']) := by
  induction left generalizing i with
  | zero => omega
  | succ left ih =>
      rw [measureLines]
      split
      case isTrue shown =>
        have next : (i + 1) % 2 ^ 32 = i + 1 := Nat.mod_eq_of_lt (by omega)
        have remaining : minMeasures suite - i = minMeasures suite - (i + 1) + 1 := by omega
        rw [measureLine_eq member shown, next, ih shown (by omega), remaining, List.range'_succ]
        rfl
      case isFalse past =>
        rw [show minMeasures suite - i = 0 by omega]
        rfl

/-- With `2 ^ 32` measures in every bench the test of the loop never fails. -/
theorem measureLines_eq_none (many : 2 ^ 32 ≤ minMeasures suite) (left : Nat) (small : i < 2 ^ 32) :
    measureLines relative suite front left i = none := by
  induction left generalizing i with
  | zero => rfl
  | succ left ih =>
      rw [measureLines, if_pos (small.trans_le many), ih (Nat.mod_lt _ (by decide))]
      cases measureLine relative suite front i <;> rfl

theorem printSuiteInfo_eq {others : Suite} (few : minMeasures (front :: others) < 2 ^ 32) :
    printSuiteInfo relative (front :: others) =
      some ((tableLines relative (front :: others) front).flatMap (· ++ ['\n']) ++ ['\n']) := by
  have lines : measureLines relative (front :: others) front (2 ^ 32) 0 = some _ :=
    measureLines_eq List.mem_cons_self few (Nat.zero_le _) (by omega)
  simp only [printSuiteInfo, lines, tableLines, grid, Nat.sub_zero, ← List.range_eq_range']
  have first : "*** Results:\n".toList = "*** Results:".toList ++ ['\n'] := rfl
  have last : "***\n\n".toList = "***".toList ++ ['\n'] ++ ['\n'] := rfl
  simp [first, last, List.flatMap_def, List.map_map, Function.comp_def]

theorem foldl_min_lt_iff {bound : Nat} (start : Nat) (lengths : List Nat) :
    lengths.foldl min start < bound ↔ start < bound ∨ ∃ length ∈ lengths, length < bound := by
  induction lengths generalizing start with
  | nil => simp
  | cons first lengths ih => simp [ih, or_assoc]

theorem minMeasures_lt_iff : minMeasures suite < 2 ^ 32 ↔
    ∃ bench ∈ suite, bench.measures.length < 2 ^ 32 := by
  rw [minMeasures, foldl_min_lt_iff]
  simp

/-- The table is defined exactly when some bench has fewer than `2 ^ 32` measures. -/
theorem exists_printSuiteInfo_iff {others : Suite} :
    (∃ table, printSuiteInfo relative (front :: others) = some table) ↔
      ∃ bench ∈ front :: others, bench.measures.length < 2 ^ 32 := by
  rw [← minMeasures_lt_iff]
  refine ⟨fun ⟨table, printed⟩ => ?_, fun few => ⟨_, printSuiteInfo_eq few⟩⟩
  by_contra many
  rw [printSuiteInfo, measureLines_eq_none (Nat.le_of_not_lt many) _ (by decide)] at printed
  simp at printed

/-! ## Reading a table -/

/-- The words of the lines between the first and the last one. -/
def readTable (table : Text) : List (List Text) :=
  ((parts '\n' table).drop 1).dropLast.map (parts ' ')

/-- A text that is neither empty nor broken by a blank or a line break. -/
def Plain (text : Text) : Prop := Word ' ' text ∧ '\n' ∉ text

instance (text : Text) : Decidable (Plain text) :=
  inferInstanceAs (Decidable ((' ' ∉ text ∧ text ≠ []) ∧ '\n' ∉ text))

/-- What reading a table back takes. -/
structure Legible (relative : Int → Int → Text) (suite : Suite) (front : Bench) : Prop where
  names : ∀ bench ∈ suite, Plain bench.name
  measures : ∀ measure ∈ front.measures, Plain measure.name
  entries : ∀ bench ∈ suite, ∀ i < minMeasures suite,
    Plain (shownEntry relative front bench i) ∧
      (shownEntry relative front bench i).length < maxColumnWidth suite

theorem length_name_lt (member : bench ∈ suite) : bench.name.length < maxColumnWidth suite := by
  have inside : bench.name.length ∈ suite.map fun bench => bench.name.length :=
    List.mem_map.mpr ⟨bench, member, rfl⟩
  have above := (le_foldl_max 0 _).2 _ inside
  simp only [maxColumnWidth, gapBetweenColumns]
  omega

/-- Every row of a legible table consists of plain entries that are narrower than the columns. -/
theorem Legible.row {others : Suite} (legible : Legible relative (front :: others) front)
    {row : Text × List Text} (inside : row ∈ grid relative (front :: others)) :
    Plain row.1 ∧
      ∀ entry ∈ row.2, Plain entry ∧ entry.length < maxColumnWidth (front :: others) := by
  rcases List.mem_cons.mp inside with rfl | below
  · have plain : Plain "measure".toList := ⟨⟨by decide, by decide⟩, by decide⟩
    refine ⟨plain, fun entry inside => ?_⟩
    obtain ⟨bench, member, rfl⟩ := List.mem_map.mp inside
    exact ⟨legible.names bench member, length_name_lt member⟩
  · obtain ⟨i, member, rfl⟩ := List.mem_map.mp below
    have shown := List.mem_range.mp member
    have fits : i < front.measures.length := lt_length_of_minMeasures List.mem_cons_self shown
    refine ⟨?_, fun entry inside => ?_⟩
    · simpa [List.getElem?_eq_getElem fits] using
        legible.measures _ (List.getElem_mem fits)
    · obtain ⟨bench, member', rfl⟩ := List.mem_map.mp inside
      exact legible.entries bench member' i shown

theorem word_line {firstWidth width : Nat} {first : Text} {entries : List Text}
    (plain : Plain first) (plains : ∀ entry ∈ entries, Plain entry) :
    Word '\n' (line ' ' firstWidth width first entries) := by
  refine ⟨notMem_line (by decide) plain.2 fun entry member => (plains entry member).2, ?_⟩
  intro empty
  have nothing := congrArg List.length empty
  have some := List.length_pos_of_ne_nil plain.1.2
  simp only [line, padRight, List.length_append, List.length_nil] at nothing
  omega

end Reporter
end ConcurrencyCourse
