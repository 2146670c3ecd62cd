import ConcurrencyCourse.Reporter.Normalisation
import Mathlib.Data.List.Perm.Basic

/-!
# Labels without the run modifiers

The library writes the name of a benchmark as its family, its arguments and the modifiers
`min_time:X` and `iterations:N`, joined by `'/'`.  The normalisation takes the first part with each
of the two words for the modifier.
-/

namespace ConcurrencyCourse
namespace Reporter

open TextSearch Segments

/-- A family name or an argument as the library writes it. -/
structure Part where
  text : Text
  nonempty : text ≠ []
  noSlash : '/' ∉ text

/-- A number as `%d` and `%0.3f` print it. -/
structure Number where
  text : Text
  noSlash : '/' ∉ text
  noIterations : ¬ iterationsWord <:+: text
  noMinTime : ¬ minTimeWord <:+: text

/-- The name of a benchmark. -/
structure BenchmarkName where
  family : Part
  args : List Part
  minTime : Option Number
  iterations : Option Number

namespace BenchmarkName

/-- The family and the arguments. -/
def plainParts (name : BenchmarkName) : List Text :=
  (name.family :: name.args).map Part.text

def minTimePart (x : Number) : Text := minTimeWord ++ ':' :: x.text

def iterationsPart (n : Number) : Text := iterationsWord ++ ':' :: n.text

/-- The modifiers, in the order in which the library writes them. -/
def modifiers (name : BenchmarkName) : List Text :=
  name.minTime.toList.map minTimePart ++ name.iterations.toList.map iterationsPart

/-- The name of a run. -/
def text (name : BenchmarkName) : Text := join '/' (name.plainParts ++ name.modifiers)

/-- Each part with one of the words is a copy of a modifier of the name, and when the first copy of
each modifier is left out, the family and the arguments remain. -/
def KeepsParts (name : BenchmarkName) : Prop :=
  (∀ part ∈ name.plainParts, iterationsWord <:+: part ∨ minTimeWord <:+: part →
    part ∈ name.modifiers) ∧
  (name.plainParts ++ name.modifiers).diff name.modifiers = name.plainParts

end BenchmarkName

open BenchmarkName

variable {name : BenchmarkName} {part : Text}

/-! ## The parts of a name -/

theorem minTimePart_begins (x : Number) : minTimeWord <+: minTimePart x := List.prefix_append ..

theorem iterationsPart_begins (n : Number) : iterationsWord <+: iterationsPart n :=
  List.prefix_append ..

theorem not_infix_minTimePart (x : Number) : ¬ iterationsWord <:+: minTimePart x := by
  rw [minTimePart, infix_append_cons_iff (by decide) (by decide), not_or]
  exact ⟨by decide, x.noIterations⟩

theorem not_infix_iterationsPart (n : Number) : ¬ minTimeWord <:+: iterationsPart n := by
  rw [iterationsPart, infix_append_cons_iff (by decide) (by decide), not_or]
  exact ⟨by decide, n.noMinTime⟩

theorem containing_modifiers (name : BenchmarkName) :
    containing iterationsWord name.modifiers = name.iterations.toList.map iterationsPart ∧
      containing minTimeWord name.modifiers = name.minTime.toList.map minTimePart := by
  obtain ⟨-, -, minTime, iterations⟩ := name
  have minTimes (x : Number) := not_infix_minTimePart x
  have iterations' (n : Number) := not_infix_iterationsPart n
  have minTimes' (x : Number) := (minTimePart_begins x).isInfix
  have iterations'' (n : Number) := (iterationsPart_begins n).isInfix
  cases minTime <;> cases iterations <;> simp_all [containing, modifiers]

theorem plainParts_proper (member : part ∈ name.plainParts) : '/' ∉ part ∧ part ≠ [] := by
  obtain ⟨own, -, rfl⟩ := List.mem_map.mp member
  exact ⟨own.noSlash, own.nonempty⟩

theorem modifiers_proper (member : part ∈ name.modifiers) : '/' ∉ part ∧ part ≠ [] := by
  rcases List.mem_append.mp member with within | within
  · obtain ⟨x, -, rfl⟩ := List.mem_map.mp within
    refine ⟨fun slash => ?_, by simp [minTimePart]⟩
    rcases List.mem_append.mp slash with word | number
    · exact absurd word (by decide)
    · exact x.noSlash (by simpa using number)
  · obtain ⟨n, -, rfl⟩ := List.mem_map.mp within
    refine ⟨fun slash => ?_, by simp [iterationsPart]⟩
    rcases List.mem_append.mp slash with word | number
    · exact absurd word (by decide)
    · exact n.noSlash (by simpa using number)

theorem allParts_proper (member : part ∈ name.plainParts ++ name.modifiers) :
    '/' ∉ part ∧ part ≠ [] :=
  (List.mem_append.mp member).elim plainParts_proper modifiers_proper

/-- The label is the family and the arguments when these are the parts that are left. -/
theorem measureName_text_iff (name : BenchmarkName) :
    measureName name.text = some (join '/' name.plainParts) ↔
      cutDrop minTimeWord (cutDrop iterationsWord (name.plainParts ++ name.modifiers)) =
        name.plainParts := by
  have parts_eq : parts '/' name.text = name.plainParts ++ name.modifiers := by
    rw [text, parts_join fun _ member => (allParts_proper member).1]
    exact List.filter_eq_self.mpr fun part member => by simpa using (allParts_proper member).2
  rw [measureName_eq, parts_eq, keptParts_eq]
  constructor
  · intro label
    split at label
    · simp at label
    · exact join_injective
        (fun _ => cutDrop_proper fun _ => cutDrop_proper fun _ => allParts_proper)
        (fun _ => plainParts_proper) (Option.some.inj label)
  · intro same
    rw [same, if_neg]
    simp [plainParts]

/-! ## The two cuts -/

/-- A list that stays the same when its first element is moved out and a value in. -/
theorem forall_eq_of_eq_tail {Value : Type*} {values : List Value} {value : Value}
    (same : values = (values ++ [value]).tail) : ∀ other ∈ values, other = value := by
  induction values with
  | nil => simp
  | cons first values ih =>
      have shifted : first :: values = values ++ [value] := same
      cases values with
      | nil => simpa using shifted
      | cons next values =>
          obtain ⟨rfl, rest⟩ : first = next ∧ next :: values = values ++ [value] := by
            simpa using shifted
          have later := ih rest
          simpa using later

section Cuts

variable {plain minTimes iterations before after : List Text} {word value : Text}

/-- When the first text with a word is removed, and one was added behind the others, every text with
the word is a copy of the added one. -/
theorem eq_of_removed (removed : after = before.eraseP (word <:+: ·))
    (added : containing word before = containing word plain ++ [value])
    (kept : (containing word plain).Sublist (containing word after)) :
    ∀ part ∈ plain, word <:+: part → part = value := by
  have tail_eq : containing word after = (containing word plain ++ [value]).tail := by
    rw [removed, containing_eraseP, added]
  have same : containing word plain = (containing word plain ++ [value]).tail :=
    tail_eq ▸ kept.eq_of_length (by rw [tail_eq]; simp)
  intro part member contains
  exact forall_eq_of_eq_tail same part (List.mem_filter.mpr ⟨member, by simpa using contains⟩)

/-- The two cuts of a name leave its plain parts. -/
structure LeavePlain (plain minTimes iterations between : List Text) : Prop where
  first : CutCase iterationsWord (plain ++ (minTimes ++ iterations)) between
  second : CutCase minTimeWord between plain
  iterations_eq : containing iterationsWord (minTimes ++ iterations) = iterations
  minTimes_eq : containing minTimeWord (minTimes ++ iterations) = minTimes

namespace LeavePlain

variable {between : List Text} (cuts : LeavePlain plain minTimes iterations between)
include cuts

theorem iterations_all : containing iterationsWord (plain ++ (minTimes ++ iterations)) =
    containing iterationsWord plain ++ iterations := by
  rw [containing_append, cuts.iterations_eq]

theorem minTimes_all : containing minTimeWord (plain ++ (minTimes ++ iterations)) =
    containing minTimeWord plain ++ minTimes := by
  rw [containing_append, cuts.minTimes_eq]

theorem minTimes_between : (containing minTimeWord plain).length =
      (containing minTimeWord between).length - 1 ∧
    (containing minTimeWord between).length ≤
      (containing minTimeWord plain).length + minTimes.length := by
  have upper := (cuts.first.length_containing minTimeWord).2
  rw [cuts.minTimes_all, List.length_append] at upper
  exact ⟨(cuts.second.length_containing minTimeWord).1, upper⟩

theorem lengths : plain.length + (minTimes.length + iterations.length) ≤ between.length + 1 ∧
    between.length ≤ plain.length + 1 := by
  have upper := cuts.first.length_le.2
  simp only [List.length_append] at upper
  exact ⟨upper, cuts.second.length_le.2⟩

theorem iterationsFree (empty : iterations = []) : ∀ part ∈ plain, ¬ iterationsWord <:+: part := by
  have lower := (cuts.second.length_containing iterationsWord).2
  have count := (cuts.first.length_containing iterationsWord).1
  rw [cuts.iterations_all, empty, List.append_nil] at count
  exact containing_eq_nil_iff.mp (List.length_eq_zero_iff.mp (by omega))

theorem minTimeFree (empty : minTimes = []) : ∀ part ∈ between, ¬ minTimeWord <:+: part := by
  have count := cuts.minTimes_between
  rw [empty, List.length_nil] at count
  exact containing_eq_nil_iff.mp (List.length_eq_zero_iff.mp (by omega))

theorem first_eq (empty : iterations = []) : between = plain ++ (minTimes ++ iterations) := by
  refine cuts.first.eq_of_absent (containing_eq_nil_iff.mp ?_)
  rw [cuts.iterations_all, empty, containing_eq_nil_iff.mpr (cuts.iterationsFree empty)]
  rfl

theorem second_eq (empty : minTimes = []) : plain = between :=
  cuts.second.eq_of_absent (cuts.minTimeFree empty)

/-- With a modifier, the cut removes a text. -/
theorem first_removes (filled : iterations ≠ []) :
    between = (plain ++ (minTimes ++ iterations)).eraseP (iterationsWord <:+: ·) := by
  refine cuts.first.eraseP ?_
  have lengths := cuts.lengths
  have positive := List.length_pos_iff.mpr filled
  simp only [List.length_append]
  cases minTimes with
  | nil =>
      have same := congrArg List.length (cuts.second_eq rfl)
      omega
  | cons =>
      simp only [List.length_cons] at lengths ⊢
      omega

theorem second_removes (filled : minTimes ≠ []) :
    plain = between.eraseP (minTimeWord <:+: ·) := by
  refine cuts.second.eraseP ?_
  have lengths := cuts.lengths
  have positive := List.length_pos_iff.mpr filled
  cases iterations with
  | nil =>
      have same := congrArg List.length (cuts.first_eq rfl)
      simp only [List.length_append, List.length_nil] at same
      omega
  | cons =>
      simp only [List.length_cons] at lengths
      omega

theorem first_sublist : between.Sublist (plain ++ (minTimes ++ iterations)) := by
  by_cases empty : iterations = []
  · rw [cuts.first_eq empty]
  · rw [cuts.first_removes empty]
    exact List.eraseP_sublist

theorem second_sublist : plain.Sublist between := by
  by_cases empty : minTimes = []
  · rw [cuts.second_eq empty]
  · conv_lhs => rw [cuts.second_removes empty]
    exact List.eraseP_sublist

theorem iterations_mem (single : iterations.length ≤ 1) :
    ∀ part ∈ plain, iterationsWord <:+: part → part ∈ iterations := by
  intro part member contains
  match iterations, single, cuts with
  | [], _, cuts => exact absurd contains (cuts.iterationsFree rfl part member)
  | [value], _, cuts =>
      exact List.mem_singleton.mpr (eq_of_removed (cuts.first_removes (by simp))
        cuts.iterations_all (containing_sublist cuts.second_sublist) part member contains)

theorem minTimes_mem (single : minTimes.length ≤ 1) :
    ∀ part ∈ plain, minTimeWord <:+: part → part ∈ minTimes := by
  intro part member contains
  match minTimes, single, cuts with
  | [], _, cuts =>
      exact absurd contains (cuts.minTimeFree rfl part (cuts.second_eq rfl ▸ member))
  | [value], _, cuts =>
      have positive : 0 < (containing minTimeWord plain).length :=
        List.length_pos_of_mem (List.mem_filter.mpr ⟨member, by simpa using contains⟩)
      have added : containing minTimeWord between = containing minTimeWord plain ++ [value] := by
        refine (cuts.minTimes_all ▸ containing_sublist cuts.first_sublist).eq_of_length ?_
        have count := cuts.minTimes_between
        simp only [List.length_append, List.length_singleton] at count ⊢
        omega
      exact List.mem_singleton.mpr (eq_of_removed (cuts.second_removes (by simp)) added
        (List.Sublist.refl _) part member contains)

end LeavePlain

/-- When every text with the word is a copy of the modifier with it, the cut removes a copy. -/
theorem diff_of_cut {modifiers : List Text} (cut : CutCase word before after)
    (copies : ∀ part ∈ before, word <:+: part → part ∈ modifiers)
    (begins : ∀ part ∈ modifiers, word <+: part) (single : modifiers.length ≤ 1) :
    after = before.diff modifiers := by
  match modifiers, single with
  | [], _ =>
      exact cut.eq_of_absent fun part member contains => by simpa using copies part member contains
  | [value], _ =>
      rw [List.diff_cons, List.diff_nil]
      exact cut.erase_of_forall_eq (begins value (by simp)) fun part member contains =>
        List.mem_singleton.mp (copies part member contains)

end Cuts

/-! ## When the label is the family and the arguments -/

theorem cutDrop_iterations_cases (name : BenchmarkName) :
    CutCase iterationsWord (name.plainParts ++ name.modifiers)
      (cutDrop iterationsWord (name.plainParts ++ name.modifiers)) :=
  cutDrop_cases iterationsWord_ne_nil fun _ member => (allParts_proper member).2

theorem cutDrop_minTime_cases (name : BenchmarkName) :
    CutCase minTimeWord (cutDrop iterationsWord (name.plainParts ++ name.modifiers))
      (cutDrop minTimeWord (cutDrop iterationsWord (name.plainParts ++ name.modifiers))) :=
  cutDrop_cases minTimeWord_ne_nil fun _ member =>
    (cutDrop_proper (fun _ => allParts_proper) member).2

theorem length_iterations_le (name : BenchmarkName) :
    (name.iterations.toList.map iterationsPart).length ≤ 1 := by
  cases name.iterations <;> simp

theorem length_minTime_le (name : BenchmarkName) :
    (name.minTime.toList.map minTimePart).length ≤ 1 := by
  cases name.minTime <;> simp

/-- When only copies of the modifiers contain one of the words, the cuts take out one copy of each
modifier. -/
theorem cutDrop_eq_diff (copies : ∀ part ∈ name.plainParts,
      iterationsWord <:+: part ∨ minTimeWord <:+: part → part ∈ name.modifiers) :
    cutDrop minTimeWord (cutDrop iterationsWord (name.plainParts ++ name.modifiers)) =
      (name.plainParts ++ name.modifiers).diff name.modifiers := by
  have all (part) (member : part ∈ name.plainParts ++ name.modifiers)
      (contains : iterationsWord <:+: part ∨ minTimeWord <:+: part) : part ∈ name.modifiers :=
    (List.mem_append.mp member).elim (copies part · contains) id
  have first : cutDrop iterationsWord (name.plainParts ++ name.modifiers) =
      (name.plainParts ++ name.modifiers).diff (name.iterations.toList.map iterationsPart) := by
    refine diff_of_cut (cutDrop_iterations_cases name) (fun part member contains => ?_) ?_
      (length_iterations_le name)
    · rw [← (containing_modifiers name).1]
      exact List.mem_filter.mpr ⟨all part member (Or.inl contains), by simpa using contains⟩
    · exact List.forall_mem_map.mpr fun n _ => iterationsPart_begins n
  have second : cutDrop minTimeWord (cutDrop iterationsWord (name.plainParts ++ name.modifiers)) =
      (cutDrop iterationsWord (name.plainParts ++ name.modifiers)).diff
        (name.minTime.toList.map minTimePart) := by
    refine diff_of_cut (cutDrop_minTime_cases name) (fun part member contains => ?_) ?_
      (length_minTime_le name)
    · rw [← (containing_modifiers name).2]
      have inside := List.diff_subset _ _ (first ▸ member)
      exact List.mem_filter.mpr ⟨all part inside (Or.inr contains), by simpa using contains⟩
    · exact List.forall_mem_map.mpr fun x _ => minTimePart_begins x
  rw [second, first, ← List.diff_append]
  exact List.perm_append_comm.diff_left _

/-- The normalisation of a name is defined and yields the family and the arguments exactly when the
parts with one of the words are copies of the modifiers and stand where they do no harm. -/
theorem measureName_text_iff_keepsParts (name : BenchmarkName) :
    measureName name.text = some (join '/' name.plainParts) ↔ name.KeepsParts := by
  rw [measureName_text_iff]
  constructor
  · intro same
    have cuts : LeavePlain name.plainParts (name.minTime.toList.map minTimePart)
        (name.iterations.toList.map iterationsPart)
        (cutDrop iterationsWord (name.plainParts ++ name.modifiers)) := by
      refine ⟨cutDrop_iterations_cases name, ?_, (containing_modifiers name).1,
        (containing_modifiers name).2⟩
      simpa only [same] using cutDrop_minTime_cases name
    have copies (part) (member : part ∈ name.plainParts)
        (contains : iterationsWord <:+: part ∨ minTimeWord <:+: part) : part ∈ name.modifiers :=
      contains.elim
        (fun word => List.mem_append_right _
          (cuts.iterations_mem (length_iterations_le name) part member word))
        (fun word => List.mem_append_left _
          (cuts.minTimes_mem (length_minTime_le name) part member word))
    exact ⟨copies, (cutDrop_eq_diff copies).symm.trans same⟩
  · rintro ⟨copies, rest⟩
    exact (cutDrop_eq_diff copies).trans rest

theorem append_diff_of_disjoint {left right : List Text} (disjoint : ∀ part ∈ right, part ∉ left) :
    (left ++ right).diff right = left := by
  induction right with
  | nil => simp
  | cons part right ih =>
      obtain ⟨fresh, later⟩ := List.forall_mem_cons.mp disjoint
      rw [List.diff_cons, List.erase_append_right _ fresh, List.erase_cons_head, ih later]

theorem keepsParts_of_forall_not (iterationsFree : ∀ part ∈ name.plainParts,
    ¬ iterationsWord <:+: part) (minTimeFree : ∀ part ∈ name.plainParts, ¬ minTimeWord <:+: part) :
    name.KeepsParts := by
  refine ⟨fun part member contains => ?_, ?_⟩
  · exact (contains.elim (iterationsFree part member) (minTimeFree part member)).elim
  · refine append_diff_of_disjoint fun part modifier plain => ?_
    rcases List.mem_append.mp modifier with within | within
    · obtain ⟨x, -, rfl⟩ := List.mem_map.mp within
      exact minTimeFree _ plain (minTimePart_begins x).isInfix
    · obtain ⟨n, -, rfl⟩ := List.mem_map.mp within
      exact iterationsFree _ plain (iterationsPart_begins n).isInfix

/-- The family `iterations_bench` leaves nothing of the name, and `foo_min_time_bar` loses its end
and not its modifier. -/
theorem label_wrong : ∃ undefined wrong : BenchmarkName,
    measureName undefined.text = none ∧
    measureName wrong.text = some "foo_/8".toList ∧
      join '/' wrong.plainParts = "foo_min_time_bar/8".toList := by
  refine ⟨⟨⟨"iterations_bench".toList, by decide, by decide⟩, [], none, none⟩,
    ⟨⟨"foo_min_time_bar".toList, by decide, by decide⟩,
      [⟨"8".toList, by decide, by decide⟩], none, none⟩, ?_, ?_, by decide⟩
  · rw [measureName_eq]
    decide
  · rw [measureName_eq]
    decide

end Reporter
end ConcurrencyCourse
