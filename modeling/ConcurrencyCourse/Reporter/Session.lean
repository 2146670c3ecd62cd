import ConcurrencyCourse.Reporter.Grouping
import ConcurrencyCourse.Reporter.Table

/-!
# What the reporter prints

A reporter prints the table of a suite when a naive benchmark opens the next one, and the last table
when it is destroyed.  Every call that it has been given is in exactly one table: the calls form
stretches, one for each bench, and the stretches form suites.  Between the tables stands what
`ConsoleReporter::ReportRuns` writes to the same stream for each call.
-/

namespace ConcurrencyCourse
namespace Reporter

open TextSearch

/-- What is written: a line break before every new bench, the tables, and for every call the rows of
`ConsoleReporter::ReportRuns`. -/
inductive Piece
  | lineBreak
  | table (text : Text)
  | rows (call : Call)

/-- The suite and the pieces written so far. -/
structure Console where
  suite : Suite
  written : List Piece

/-- `PrintSuiteInfo` prints nothing for an empty suite. -/
def printPieces (relative : Int → Int → Text) (suite : Suite) : Option (List Piece) :=
  if suite = [] then some []
  else (printSuiteInfo relative suite).map fun text => [.table text]

/-- What `CheckForBenchChanges` prints. -/
def changePieces (relative : Int → Int → Text) (suite : Suite) (benchmarkName : Text) :
    Option (List Piece) :=
  if benchChanged suite benchmarkName then
    if containsNaive benchmarkName then
      (printPieces relative suite).map fun pieces => .lineBreak :: pieces
    else some [.lineBreak]
  else some []

/-- `ReportRuns` with what it prints. -/
def Console.reportRuns (relative : Int → Int → Text) (console : Console) (call : Call) :
    Option Console := do
  let pieces ← changePieces relative console.suite call.name
  let suite ← Reporter.reportRuns console.suite call.reports
  return ⟨suite, console.written ++ (pieces ++ [.rows call])⟩

/-- The calls of a reporter that has been constructed, and its destruction. -/
def session (relative : Int → Int → Text) (calls : List Call) : Option (List Piece) := do
  let console ← calls.foldlM (Console.reportRuns relative) ⟨startNewSuite, []⟩
  let pieces ← printPieces relative console.suite
  return console.written ++ pieces

/-! ## Stretches and suites -/

/-- The name of a call contains the name of the bench of a stretch. -/
def Joins (stretch : List Call) (call : Call) : Prop := (benchOf stretch).name <:+: call.name

/-- Maximal stretches of calls whose names contain the name of the bench that the first one
opens. -/
structure Stretches (calls : List Call) (stretches : List (List Call)) : Prop where
  whole : stretches.flatten = calls
  filled : [] ∉ stretches
  together : ∀ stretch ∈ stretches, ∀ call ∈ stretch, Joins stretch call
  apart : stretches.IsChain fun stretch next => ∀ call ∈ next.head?, ¬ Joins stretch call

/-- Maximal suites of stretches of which only the first one is opened by a naive name. -/
structure Suites (stretches : List (List Call)) (suites : List (List (List Call))) : Prop where
  whole : suites.flatten = stretches
  filled : [] ∉ suites
  later : ∀ suite ∈ suites, ∀ stretch ∈ suite.tail, opensNaive stretch = false
  opening : ∀ suite ∈ suites.tail, ∀ stretch ∈ suite.head?, opensNaive stretch = true

/-- The pieces of a suite: the table of the suite before stands behind the first line break. -/
def suitePieces (previous : List Piece) : List (List Call) → List Piece
  | [] => previous
  | first :: later => .lineBreak :: previous ++ first.map .rows ++
      later.flatMap fun stretch => .lineBreak :: stretch.map .rows

/-- The pieces of some suites with the tables of all but the last one; an empty last suite adds
nothing but the table of the suite before. -/
def layout (texts : List Text) (suites : List (List (List Call))) : List Piece :=
  (List.zipWith suitePieces ([] :: texts.map fun text => [.table text]) suites).flatten

variable {calls : List Call} {call : Call} {stretch : List Call} {init : List (List Call)}
  {stretches suite : List (List Call)} {earlier suites : List (List (List Call))}
  {texts : List Text}

theorem joins_self (filled : stretch ≠ []) : ∀ call ∈ stretch.head?, Joins stretch call := by
  cases stretch with
  | nil => exact absurd rfl filled
  | cons first rest =>
      intro call same
      obtain rfl := Option.some.inj same
      exact (family_begins _).isInfix

theorem benchOf_append_name (filled : stretch ≠ []) :
    (benchOf (stretch ++ [call])).name = (benchOf stretch).name := by
  rw [benchOf_append filled]
  rfl

theorem Stretches.join (arranged : Stretches calls (init ++ [stretch])) (filled : stretch ≠ [])
    (joins : Joins stretch call) : Stretches (calls ++ [call]) (init ++ [stretch ++ [call]]) := by
  obtain ⟨whole, nonempty, together, apart⟩ := arranged
  have name : (benchOf (stretch ++ [call])).name = (benchOf stretch).name :=
    benchOf_append_name filled
  refine ⟨?_, ?_, ?_, ?_⟩
  · rw [← whole]
    simp
  · simpa [filled] using nonempty
  · intro other member inner inside
    rcases List.mem_append.mp member with member | member
    · exact together other (List.mem_append_left _ member) inner inside
    · obtain rfl := List.mem_singleton.mp member
      rw [Joins, name]
      rcases List.mem_append.mp inside with inside | inside
      · exact together stretch (List.mem_append_right _ (List.mem_singleton_self _)) inner inside
      · obtain rfl := List.mem_singleton.mp inside
        exact joins
  · rw [List.isChain_append] at apart ⊢
    refine ⟨apart.1, List.isChain_singleton _, fun left member next same => ?_⟩
    obtain rfl := Option.some.inj same
    rw [List.head?_append_of_ne_nil _ filled]
    exact apart.2.2 left member stretch rfl

theorem Stretches.open (arranged : Stretches calls stretches)
    (differs : ∀ stretch ∈ stretches.getLast?, ¬ Joins stretch call) :
    Stretches (calls ++ [call]) (stretches ++ [[call]]) := by
  obtain ⟨whole, nonempty, together, apart⟩ := arranged
  refine ⟨by rw [← whole]; simp, by simpa using nonempty, ?_, ?_⟩
  · intro other member inner inside
    rcases List.mem_append.mp member with member | member
    · exact together other member inner inside
    · obtain rfl := List.mem_singleton.mp member
      obtain rfl := List.mem_singleton.mp inside
      exact joins_self (by simp) _ rfl
  · rw [List.isChain_append]
    refine ⟨apart, List.isChain_singleton _, fun left member next same => ?_⟩
    obtain rfl := Option.some.inj same
    intro inner same
    obtain rfl := Option.some.inj same
    exact differs left member

/-- Another last suite that is opened by the same name. -/
theorem Suites.replace {old : List (List Call)} (arranged : Suites stretches (earlier ++ [old]))
    (filled : suite ≠ [])
    (same : ∀ stretch ∈ suite.head?, ∃ first ∈ old.head?, opensNaive stretch = opensNaive first)
    (plain : ∀ stretch ∈ suite.tail, opensNaive stretch = false) :
    Suites (earlier.flatten ++ suite) (earlier ++ [suite]) := by
  obtain ⟨-, nonempty, later, opening⟩ := arranged
  refine ⟨by simp, by simp_all, ?_, ?_⟩
  · intro other member
    rcases List.mem_append.mp member with member | member
    · exact later other (List.mem_append_left _ member)
    · obtain rfl := List.mem_singleton.mp member
      exact plain
  · intro other member inner inside
    cases earlier with
    | nil => simp at member
    | cons first rest =>
        rcases List.mem_append.mp member with member | member
        · exact opening other (List.mem_append_left _ member) inner inside
        · obtain rfl := List.mem_singleton.mp member
          obtain ⟨front, atFront, alike⟩ := same inner inside
          rw [alike]
          exact opening old (List.mem_append_right _ (List.mem_singleton_self _)) front atFront

theorem opensNaive_append (filled : stretch ≠ []) :
    opensNaive (stretch ++ [call]) = opensNaive stretch := by
  cases stretch with
  | nil => exact absurd rfl filled
  | cons => rfl

theorem Suites.join (arranged : Suites stretches (earlier ++ [init ++ [stretch]]))
    (filled : stretch ≠ []) (call : Call) :
    Suites (earlier.flatten ++ (init ++ [stretch ++ [call]]))
      (earlier ++ [init ++ [stretch ++ [call]]]) := by
  have later := arranged.later (init ++ [stretch]) (by simp)
  refine arranged.replace (by simp) ?_ ?_ <;> cases init with
  | nil => simp [opensNaive_append filled]
  | cons first rest => simp_all [opensNaive_append filled, or_imp, forall_and]

theorem Suites.enter (arranged : Suites stretches (earlier ++ [suite])) (filled : suite ≠ [])
    (plain : opensNaive stretch = false) :
    Suites (earlier.flatten ++ (suite ++ [stretch])) (earlier ++ [suite ++ [stretch]]) := by
  have later := arranged.later suite (by simp)
  obtain ⟨first, rest, rfl⟩ := List.exists_cons_of_ne_nil filled
  refine arranged.replace (by simp) (by simp) ?_
  simpa [or_imp, forall_and, plain] using later

theorem Suites.open (arranged : Suites stretches suites)
    (naive : suites ≠ [] → opensNaive stretch = true) :
    Suites (stretches ++ [stretch]) (suites ++ [[stretch]]) := by
  obtain ⟨whole, nonempty, later, opening⟩ := arranged
  refine ⟨by rw [← whole]; simp, by simpa using nonempty, ?_, ?_⟩
  · intro other member inner inside
    rcases List.mem_append.mp member with member | member
    · exact later other member inner inside
    · obtain rfl := List.mem_singleton.mp member
      simp at inside
  · intro other member inner inside
    cases suites with
    | nil => simp at member
    | cons first rest =>
        rcases List.mem_append.mp member with member | member
        · exact opening other member inner inside
        · obtain rfl := List.mem_singleton.mp member
          obtain rfl := Option.some.inj inside
          exact naive (List.cons_ne_nil _ _)

/-! ## What a call prints -/

/-- The earlier suites have been printed, and the last one is held. -/
structure Printed (relative : Int → Int → Text) (calls : List Call) (console : Console)
    (texts : List Text) (earlier : List (List (List Call))) (suite : List (List Call)) :
    Prop where
  stretches : Stretches calls (earlier.flatten ++ suite)
  suites : Suites (earlier.flatten ++ suite) (earlier ++ [suite])
  held : console.suite = suite.map benchOf
  printed : texts.map some = earlier.map fun suite => printSuiteInfo relative (suite.map benchOf)
  written : console.written = layout texts (earlier ++ [suite])

variable {relative : Int → Int → Text} {console : Console}

theorem suitePieces_join (previous : List Piece) :
    suitePieces previous (init ++ [stretch ++ [call]]) =
      suitePieces previous (init ++ [stretch]) ++ [.rows call] := by
  cases init <;> simp [suitePieces]

theorem suitePieces_enter (previous : List Piece) (filled : suite ≠ []) :
    suitePieces previous (suite ++ [[call]]) =
      suitePieces previous suite ++ [.lineBreak, .rows call] := by
  obtain ⟨first, later, rfl⟩ := List.exists_cons_of_ne_nil filled
  simp [suitePieces]

/-- The last suite stands behind what has been written before it. -/
theorem exists_layout_eq (same : texts.length = earlier.length) : ∃ front previous,
    ∀ suite, layout texts (earlier ++ [suite]) = front ++ suitePieces previous suite := by
  obtain ⟨before, previous, split⟩ : ∃ before previous,
      ([] :: texts.map fun text => [Piece.table text]) = before ++ [previous] := by
    simpa using (List.eq_nil_or_concat ([] :: texts.map fun text => [Piece.table text]))
  refine ⟨(List.zipWith suitePieces before earlier).flatten, previous, fun suite => ?_⟩
  have lengths := congrArg List.length split
  rw [layout, split, List.zipWith_append (by simpa [same] using lengths.symm)]
  simp

theorem layout_append (text : Text) (suite : List (List Call))
    (same : suites.length = texts.length + 1) :
    layout (texts ++ [text]) (suites ++ [suite]) =
      layout texts suites ++ suitePieces [.table text] suite := by
  rw [layout, List.map_append, ← List.cons_append, List.zipWith_append (by simp [same])]
  simp [layout]

theorem Printed.length_texts (printed : Printed relative calls console texts earlier suite) :
    texts.length = earlier.length := by
  simpa using congrArg List.length printed.printed

theorem length_measures_le (call : Call) : call.measures.length ≤ call.reports.length := by
  rw [Call.measures]
  cases defined : measuresOf (fun _ => call.firstReport.adjustedRealTime.toInt) call.reports with
  | none => exact Nat.zero_le _
  | some measures => exact length_le_of_measuresOf defined

/-- A bench has no more measures than runs have been reported. -/
theorem Stretches.length_benchOf_le (arranged : Stretches calls stretches)
    (member : stretch ∈ stretches) :
    (benchOf stretch).measures.length ≤ (calls.flatMap Call.reports).length := by
  have shorter (own : List Call) :
      (own.flatMap Call.measures).length ≤ (own.flatMap Call.reports).length := by
    induction own with
    | nil => exact le_rfl
    | cons call own ih =>
        simp only [List.flatMap_cons, List.length_append]
        exact Nat.add_le_add (length_measures_le call) ih
  have inside : List.Sublist stretch calls :=
    arranged.whole ▸ List.sublist_flatten_of_mem member
  have bench : (benchOf stretch).measures = stretch.flatMap Call.measures := by
    cases stretch <;> rfl
  rw [bench]
  exact (shorter stretch).trans (inside.flatMap Call.reports).length_le

/-- A suite with a bench is printed as one table. -/
theorem Printed.exists_printPieces (printed : Printed relative calls console texts earlier suite)
    (few : (calls.flatMap Call.reports).length < 2 ^ 32) (filled : suite ≠ []) : ∃ text,
    printSuiteInfo relative console.suite = some text ∧
      printPieces relative console.suite = some [.table text] := by
  obtain ⟨stretch, others, rfl⟩ := List.exists_cons_of_ne_nil filled
  have member : stretch ∈ earlier.flatten ++ stretch :: others := by simp
  have fewer := (printed.stretches.length_benchOf_le member).trans_lt few
  rw [printed.held, List.map_cons]
  obtain ⟨text, shown⟩ := exists_printSuiteInfo_iff.mpr ⟨_, List.mem_cons_self, fewer⟩
  refine ⟨text, shown, ?_⟩
  rw [printPieces, if_neg (List.cons_ne_nil _ _), shown]
  rfl

theorem reportRuns_eq_some {pieces : List Piece} {before : Suite} {bench : Bench}
    (named : Named call) (changes : changePieces relative console.suite call.name = some pieces)
    (opened : checkForBenchChanges console.suite call.name = before ++ [bench]) :
    console.reportRuns relative call =
      some ⟨before ++ [bench.append call.measures],
        console.written ++ (pieces ++ [.rows call])⟩ := by
  obtain ⟨measures, defined⟩ := (named_iff call).mp named
  rw [Console.reportRuns, changes, reportRuns_of_measures defined opened]
  rfl

theorem Printed.changed (printed : Printed relative calls console texts earlier suite)
    (filled : suite ≠ []) (differs : ∀ stretch ∈ suite.getLast?, ¬ Joins stretch call) :
    benchChanged console.suite call.name = true := by
  obtain ⟨init, stretch, rfl⟩ := (List.eq_nil_or_concat suite).resolve_left filled
  rw [List.concat_eq_append] at printed differs
  rw [← Bool.not_eq_false, printed.held, List.map_append, List.map_singleton,
    benchChanged_append_iff]
  exact differs stretch (by simp)

section Step

variable (printed : Printed relative calls console texts earlier suite) (named : Named call)
include printed named

/-- A call that joins the last bench only prints its rows. -/
theorem Printed.join (last : suite = init ++ [stretch]) (joins : Joins stretch call) :
    ∃ console', console.reportRuns relative call = some console' ∧
      Printed relative (calls ++ [call]) console' texts earlier
        (init ++ [stretch ++ [call]]) := by
  subst last
  obtain ⟨front, previous, layouts⟩ := exists_layout_eq printed.length_texts
  obtain ⟨stretches, suites, held, shown, written⟩ := printed
  have filled : stretch ≠ [] := by
    rintro rfl
    exact stretches.filled (by simp)
  rw [List.map_append, List.map_singleton] at held
  have unchanged : benchChanged console.suite call.name = false := by
    rw [held]
    exact (benchChanged_append_iff call.name).mpr joins
  have changes : changePieces relative console.suite call.name = some [] := by
    rw [changePieces, unchanged]
    rfl
  have opened : checkForBenchChanges console.suite call.name =
      init.map benchOf ++ [benchOf stretch] := by
    rw [checkForBenchChanges, unchanged, ← held]
    rfl
  refine ⟨_, reportRuns_eq_some named changes opened, ?_, suites.join filled call, ?_, shown, ?_⟩
  · rw [← List.append_assoc] at stretches ⊢
    exact stretches.join filled joins
  · rw [List.map_append, List.map_singleton, benchOf_append filled]
  · rw [layouts, suitePieces_join, ← List.append_assoc front, ← layouts, ← written]
    rfl

/-- A call that opens a bench in the suite prints a line break. -/
theorem Printed.enter (filled : suite ≠ [])
    (differs : ∀ stretch ∈ suite.getLast?, ¬ Joins stretch call)
    (plain : containsNaive call.name = false) :
    ∃ console', console.reportRuns relative call = some console' ∧
      Printed relative (calls ++ [call]) console' texts earlier (suite ++ [[call]]) := by
  have changed := printed.changed filled differs
  obtain ⟨front, previous, layouts⟩ := exists_layout_eq printed.length_texts
  obtain ⟨stretches, suites, held, shown, written⟩ := printed
  have changes : changePieces relative console.suite call.name = some [.lineBreak] := by
    simp [changePieces, changed, plain]
  have opened := checkForBenchChanges_of_changed changed
  rw [if_neg (by simp [plain])] at opened
  refine ⟨_, reportRuns_eq_some named changes opened, ?_, suites.enter filled plain, ?_, shown, ?_⟩
  · rw [← List.append_assoc]
    refine stretches.open fun stretch member => differs stretch ?_
    rwa [List.getLast?_append_of_ne_nil _ filled] at member
  · rw [List.map_append, List.map_singleton, benchOf_singleton, held]
  · rw [layouts, suitePieces_enter previous filled, ← List.append_assoc front, ← layouts,
      ← written]
    rfl

/-- A naive call that opens a bench prints the table of the suite. -/
theorem Printed.open (few : (calls.flatMap Call.reports).length < 2 ^ 32) (filled : suite ≠ [])
    (differs : ∀ stretch ∈ suite.getLast?, ¬ Joins stretch call)
    (naive : containsNaive call.name = true) :
    ∃ console' text, console.reportRuns relative call = some console' ∧
      Printed relative (calls ++ [call]) console' (texts ++ [text]) (earlier ++ [suite])
        [[call]] := by
  have changed := printed.changed filled differs
  have same := printed.length_texts
  obtain ⟨text, shown, pieces⟩ := printed.exists_printPieces few filled
  obtain ⟨stretches, suites, held, earlierShown, written⟩ := printed
  have changes : changePieces relative console.suite call.name =
      some [.lineBreak, .table text] := by
    simp [changePieces, changed, naive, pieces]
  have opened := checkForBenchChanges_of_changed changed
  rw [if_pos naive] at opened
  refine ⟨_, text, reportRuns_eq_some named changes opened, ?_, ?_, ?_, ?_, ?_⟩
  · rw [List.flatten_append, List.flatten_singleton]
    refine stretches.open fun stretch member => differs stretch ?_
    rwa [List.getLast?_append_of_ne_nil _ filled] at member
  · rw [List.flatten_append, List.flatten_singleton]
    exact suites.open fun _ => naive
  · rw [List.map_singleton, benchOf_singleton]
    rfl
  · rw [List.map_append, earlierShown, List.map_append, List.map_singleton, List.map_singleton,
      ← held, shown]
  · rw [layout_append text _ (by simp [same]), ← written]
    rfl

end Step

theorem exists_printed_first (named : Named call) :
    ∃ console', Console.reportRuns relative ⟨startNewSuite, []⟩ call = some console' ∧
      Printed relative [call] console' [] [] [[call]] := by
  have changed : benchChanged startNewSuite call.name = true := rfl
  have changes : changePieces relative startNewSuite call.name = some [.lineBreak] := by
    rw [changePieces, changed]
    cases containsNaive call.name <;> rfl
  have opened : checkForBenchChanges startNewSuite call.name = [] ++ [⟨family call.name, []⟩] := by
    rw [checkForBenchChanges_of_changed changed]
    cases containsNaive call.name <;> rfl
  have empty : Stretches [] [] := ⟨rfl, by simp, nofun, List.isChain_nil⟩
  have empty' : Suites [] [] := ⟨rfl, by simp, nofun, nofun⟩
  refine ⟨_, reportRuns_eq_some named changes opened, empty.open nofun,
    empty'.open fun filled => absurd rfl filled, ?_, rfl, rfl⟩
  rw [List.map_singleton, benchOf_singleton]
  rfl

/-- After at least one call the earlier suites have been printed and a last one is held. -/
theorem exists_printed (named : ∀ call ∈ calls, Named call)
    (few : (calls.flatMap Call.reports).length < 2 ^ 32) (begun : calls ≠ []) :
    ∃ console texts earlier suite, suite ≠ [] ∧
      calls.foldlM (Console.reportRuns relative) ⟨startNewSuite, []⟩ = some console ∧
        Printed relative calls console texts earlier suite := by
  induction calls using List.reverseRecOn with
  | nil => exact absurd rfl begun
  | append_singleton calls call ih =>
      obtain ⟨before, latest⟩ := List.forall_mem_append.mp named
      have fewer : (calls.flatMap Call.reports).length < 2 ^ 32 :=
        Nat.lt_of_le_of_lt (by simp) few
      have own := latest call (List.mem_singleton_self call)
      rw [List.foldlM_append]
      by_cases first : calls = []
      · subst first
        obtain ⟨console, reported, printed⟩ := exists_printed_first own
        exact ⟨console, [], [], [[call]], by simp, by simpa using reported, printed⟩
      · obtain ⟨console, texts, earlier, suite, filled, run, printed⟩ := ih before fewer first
        obtain ⟨console', texts', earlier', suite', filled', reported, printed'⟩ :
            ∃ console' texts' earlier' suite', suite' ≠ [] ∧
              console.reportRuns relative call = some console' ∧
              Printed relative (calls ++ [call]) console' texts' earlier' suite' := by
          by_cases differs : ∀ stretch ∈ suite.getLast?, ¬ Joins stretch call
          · cases naive : containsNaive call.name with
            | true =>
                obtain ⟨console', text, reported, printed'⟩ :=
                  printed.open own fewer filled differs naive
                exact ⟨console', _, _, _, by simp, reported, printed'⟩
            | false =>
                obtain ⟨console', reported, printed'⟩ := printed.enter own filled differs naive
                exact ⟨console', _, _, _, by simp, reported, printed'⟩
          · push Not at differs
            obtain ⟨stretch, last, joins⟩ := differs
            have whole := (List.dropLast_append_getLast? stretch last).symm
            obtain ⟨console', reported, printed'⟩ := printed.join own whole joins
            exact ⟨console', _, _, _, by simp, reported, printed'⟩
        exact ⟨console', texts', earlier', suite', filled', by rw [run]; simpa using reported,
          printed'⟩

theorem named_of_foldlM {console console' : Console}
    (run : calls.foldlM (Console.reportRuns relative) console = some console') :
    ∀ call ∈ calls, Named call := by
  induction calls generalizing console with
  | nil => exact nofun
  | cons call calls ih =>
      rw [List.foldlM_cons, Option.bind_eq_bind, Option.bind_eq_some_iff] at run
      obtain ⟨middle, reported, later⟩ := run
      refine List.forall_mem_cons.mpr ⟨?_, ih later⟩
      rw [Console.reportRuns, Option.bind_eq_bind, Option.bind_eq_some_iff] at reported
      obtain ⟨pieces, -, reported⟩ := reported
      rw [Option.bind_eq_bind, Option.bind_eq_some_iff] at reported
      obtain ⟨suite, recorded, -⟩ := reported
      exact named_of_reportRuns recorded

theorem exists_session (named : ∀ call ∈ calls, Named call)
    (few : (calls.flatMap Call.reports).length < 2 ^ 32) : ∃ pieces stretches suites texts,
    session relative calls = some pieces ∧ Stretches calls stretches ∧ Suites stretches suites ∧
      texts.map some = suites.map (fun suite => printSuiteInfo relative (suite.map benchOf)) ∧
      pieces = layout texts (suites ++ [[]]) := by
  by_cases begun : calls = []
  · subst begun
    exact ⟨[], [], [], [], rfl, ⟨rfl, by simp, nofun, List.isChain_nil⟩,
      ⟨rfl, by simp, nofun, nofun⟩, rfl, rfl⟩
  · obtain ⟨console, texts, earlier, suite, filled, run, printed⟩ :
        ∃ console texts earlier suite, suite ≠ [] ∧
          calls.foldlM (Console.reportRuns relative) ⟨startNewSuite, []⟩ = some console ∧
            Printed relative calls console texts earlier suite := exists_printed named few begun
    have same := printed.length_texts
    obtain ⟨text, shown, pieces⟩ := printed.exists_printPieces few filled
    obtain ⟨stretches, suites, held, earlierShown, written⟩ := printed
    refine ⟨console.written ++ [.table text], _, _, texts ++ [text], ?_, stretches, suites, ?_, ?_⟩
    · rw [session, run]
      simp [pieces]
    · rw [List.map_append, earlierShown, List.map_append, List.map_singleton, List.map_singleton,
        ← held, shown]
    · rw [layout_append text _ (by simp [same]), ← written]
      rfl

/-- With fewer than `2 ^ 32` reported runs the session is defined exactly when something is left of
the name of every plain run (the runs have at most one report flag, and times in the range of
`int`).  Every suite that the calls form is then printed as one table: behind the first line break
of the next suite, and the last one at the end. -/
theorem session_prints (relative : Int → Int → Text) (calls : List Call)
    (few : (calls.flatMap Call.reports).length < 2 ^ 32) :
    ((∃ pieces, session relative calls = some pieces) ↔ ∀ call ∈ calls, Named call) ∧
      ∀ pieces, session relative calls = some pieces → ∃ stretches suites texts,
        Stretches calls stretches ∧ Suites stretches suites ∧
          texts.map some = suites.map (fun suite => printSuiteInfo relative (suite.map benchOf)) ∧
          pieces = layout texts (suites ++ [[]]) := by
  have named {pieces : List Piece} (printed : session relative calls = some pieces) :
      ∀ call ∈ calls, Named call := by
    rw [session, Option.bind_eq_bind, Option.bind_eq_some_iff] at printed
    obtain ⟨console, run, -⟩ := printed
    exact named_of_foldlM run
  refine ⟨⟨fun ⟨_, printed⟩ => named printed, fun all => ?_⟩, fun pieces printed => ?_⟩
  · obtain ⟨pieces, _, _, _, printed, -⟩ := @exists_session _ relative all few
    exact ⟨pieces, printed⟩
  · obtain ⟨pieces', stretches, suites, texts, printed', facts⟩ :=
      @exists_session _ relative (named printed) few
    obtain rfl := Option.some.inj (printed'.symm.trans printed)
    exact ⟨stretches, suites, texts, facts⟩

theorem named_callOf {benchmarkName label : Text}
    (named : measureName benchmarkName = some label) : Named (callOf benchmarkName) := by
  intro r member _ vanishing
  obtain rfl := List.mem_singleton.mp member
  exact absurd (named.symm.trans ((measureName_eq_none_iff _).mpr vanishing)) nofun

/-- A session with two benchmarks. -/
theorem session_prints_two : ∃ pieces stretches suites texts,
    session (fun _ _ => "1.00".toList)
      [callOf "naive/8".toList, callOf "fast/8".toList] = some pieces ∧
    Stretches [callOf "naive/8".toList, callOf "fast/8".toList] stretches ∧
    Suites stretches suites ∧ pieces = layout texts (suites ++ [[]]) := by
  have naive : measureName "naive/8".toList = some "naive/8".toList := by
    rw [measureName_eq]
    decide
  have fast : measureName "fast/8".toList = some "fast/8".toList := by
    rw [measureName_eq]
    decide
  obtain ⟨defined, shows⟩ := session_prints (fun _ _ => "1.00".toList)
    [callOf "naive/8".toList, callOf "fast/8".toList] (by decide)
  obtain ⟨pieces, printed⟩ := defined.mpr (by
    simpa using ⟨named_callOf naive, named_callOf fast⟩)
  obtain ⟨stretches, suites, texts, formed, arranged, -, same⟩ := shows pieces printed
  exact ⟨pieces, stretches, suites, texts, printed, formed, arranged, same⟩

end Reporter
end ConcurrencyCourse
