import Mathlib.Data.List.Infix
import Mathlib.Tactic.Common

/-!
# Searching a text

The first occurrence of a pattern, and the removal of a stretch of symbols.  A pattern without the
separator occurs in a text on one side of a separator.
-/

namespace TextSearch

variable {Symbol : Type*} [DecidableEq Symbol] {pattern text left right : List Symbol}
  {separator : Symbol} {index : Nat}

/-- Index of the first occurrence of a pattern. -/
def find (pattern : List Symbol) : List Symbol → Option Nat
  | [] => if pattern = [] then some 0 else none
  | symbol :: text =>
      if pattern <+: symbol :: text then some 0 else (find pattern text).map (· + 1)

/-- Index of the first occurrence that does not begin before `start`. -/
def findFrom (pattern text : List Symbol) (start : Nat) : Option Nat :=
  (find pattern (text.drop start)).map (· + start)

omit [DecidableEq Symbol] in
/-- Remove so many symbols from an index on; without a number, all of them. -/
def erase (text : List Symbol) (start : Nat) (count : Option Nat) : List Symbol :=
  text.take start ++ match count with
    | some count => text.drop (start + count)
    | none => []

omit [DecidableEq Symbol] in
theorem erase_append (left middle right : List Symbol) :
    erase (left ++ (middle ++ right)) left.length (some middle.length) = left ++ right := by
  simp [erase, List.drop_append]

omit [DecidableEq Symbol] in
theorem erase_append_of_length_le {start : Nat} (above : left.length ≤ start)
    (count : Option Nat) :
    erase (left ++ right) start count = left ++ erase right (start - left.length) count := by
  cases count with
  | none => simp [erase, List.take_append, List.take_of_length_le above]
  | some count =>
      have past : left.length ≤ start + count := by omega
      have shift : start + count - left.length = start - left.length + count := by omega
      simp [erase, List.take_append, List.drop_append, List.take_of_length_le above,
        List.drop_of_length_le past, shift]

theorem find_eq_none_iff : find pattern text = none ↔ ¬ pattern <:+: text := by
  induction text with
  | nil => simp [find]
  | cons symbol text ih =>
      rw [find, List.infix_cons_iff]
      split <;> simp_all

theorem isSome_find_iff : (find pattern text).isSome = true ↔ pattern <:+: text := by
  rw [Option.isSome_iff_ne_none, ne_eq, find_eq_none_iff, not_not]

theorem exists_of_find (found : find pattern text = some index) :
    ∃ before after, text = before ++ (pattern ++ after) ∧ before.length = index := by
  induction text generalizing index with
  | nil =>
      obtain ⟨rfl, rfl⟩ : pattern = [] ∧ 0 = index := by simpa [find] using found
      exact ⟨[], [], rfl, rfl⟩
  | cons symbol text ih =>
      rw [find] at found
      split at found
      · obtain rfl := Option.some.inj found
        obtain ⟨after, whole⟩ := ‹pattern <+: symbol :: text›
        exact ⟨[], after, whole.symm, rfl⟩
      · obtain ⟨later, found', rfl⟩ := Option.map_eq_some_iff.mp found
        obtain ⟨before, after, rfl, rfl⟩ := ih found'
        exact ⟨symbol :: before, after, rfl, rfl⟩

theorem length_le_of_find (found : find pattern text = some index) :
    index + pattern.length ≤ text.length := by
  obtain ⟨before, after, rfl, rfl⟩ := exists_of_find found
  simp only [List.length_append]
  omega

/-- A pattern does not occur in what stands before its first occurrence. -/
theorem not_infix_take_of_find (nonempty : pattern ≠ []) (found : find pattern text = some index) :
    ¬ pattern <:+: text.take index := by
  induction text generalizing index with
  | nil => simpa using nonempty
  | cons symbol text ih =>
      rw [find] at found
      split at found
      · obtain rfl := Option.some.inj found
        simpa using nonempty
      · rename_i later
        obtain ⟨next, found', rfl⟩ := Option.map_eq_some_iff.mp found
        rw [List.take_succ_cons, List.infix_cons_iff, not_or]
        refine ⟨fun begins => later ?_, ih found'⟩
        exact begins.trans ⟨text.drop next, by simp⟩

theorem find_of_begins (begins : pattern <+: text) : find pattern text = some 0 := by
  cases text with
  | nil => simp [find, List.prefix_nil.mp begins]
  | cons symbol text => rw [find, if_pos begins]

theorem find_eq_zero_iff : find pattern text = some 0 ↔ pattern <+: text := by
  refine ⟨fun found => ?_, find_of_begins⟩
  obtain ⟨before, after, rfl, empty⟩ := exists_of_find found
  obtain rfl := List.length_eq_zero_iff.mp empty
  exact List.prefix_append ..

omit [DecidableEq Symbol] in
/-- A pattern without the separator begins a text before the separator or not at all. -/
theorem prefix_append_cons_iff (absent : separator ∉ pattern) :
    pattern <+: left ++ separator :: right ↔ pattern <+: left := by
  induction left generalizing pattern with
  | nil =>
      cases pattern with
      | nil => simp
      | cons symbol pattern =>
          have other : symbol ≠ separator := by
            rintro rfl
            exact absent List.mem_cons_self
          simp [List.cons_prefix_cons, other]
  | cons symbol left ih =>
      cases pattern with
      | nil => simp
      | cons first pattern =>
          simp only [List.cons_append, List.cons_prefix_cons]
          rw [ih fun member => absent (List.mem_cons_of_mem _ member)]

/-- A search falls into the part before a separator, or else into the part after it. -/
theorem find_append_cons (absent : separator ∉ pattern) (nonempty : pattern ≠ []) :
    find pattern (left ++ separator :: right) =
      (find pattern left).or ((find pattern right).map (· + (left.length + 1))) := by
  induction left with
  | nil =>
      have begins : pattern <+: [] ++ separator :: right ↔ pattern <+: [] :=
        prefix_append_cons_iff absent
      have later : ¬ pattern <+: separator :: right := by simpa [nonempty] using begins.not
      simp [find, later, nonempty]
  | cons symbol left ih =>
      rw [List.cons_append, find, find, ← List.cons_append, ih]
      simp only [prefix_append_cons_iff absent]
      split
      · rfl
      · cases find pattern left with
        | some => rfl
        | none => simp [Function.comp_def, Nat.add_assoc]

theorem infix_append_cons_iff (absent : separator ∉ pattern) (nonempty : pattern ≠ []) :
    pattern <:+: left ++ separator :: right ↔ pattern <:+: left ∨ pattern <:+: right := by
  simp only [← isSome_find_iff, find_append_cons absent nonempty]
  cases find pattern left <;> simp

theorem find_singleton_append (absent : separator ∉ left) :
    find [separator] (left ++ separator :: right) = some left.length := by
  induction left with
  | nil => simp [find]
  | cons symbol left ih =>
      obtain ⟨other, absent⟩ := List.ne_and_not_mem_of_not_mem_cons absent
      rw [List.cons_append, find, if_neg (by simpa using other), ih absent]
      rfl

theorem find_singleton_eq_none_iff : find [separator] text = none ↔ separator ∉ text := by
  rw [find_eq_none_iff, List.singleton_infix_iff]

end TextSearch
