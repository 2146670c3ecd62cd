import ConcurrencyCourse.Library.Segments

/-!
# Lines of padded cells

A line has a first cell that is filled up with blanks behind it, and further cells that are filled
up with blanks before them.  The cells can be read back when they have no blanks and each further
cell is narrower than its column; lines without breaks can be read back from the text.
-/

namespace Columns

open Segments

variable {Symbol : Type*} [DecidableEq Symbol] {blank newline : Symbol} {text left : List Symbol}
  {width : Nat}

omit [DecidableEq Symbol] in
/-- Fill up behind the text. -/
def padRight (blank : Symbol) (width : Nat) (text : List Symbol) : List Symbol :=
  text ++ List.replicate (width - text.length) blank

omit [DecidableEq Symbol] in
/-- Fill up before the text. -/
def padLeft (blank : Symbol) (width : Nat) (text : List Symbol) : List Symbol :=
  List.replicate (width - text.length) blank ++ text

omit [DecidableEq Symbol] in
/-- A first cell and further cells, each in a column of its width. -/
def line (blank : Symbol) (firstWidth width : Nat) (first : List Symbol)
    (cells : List (List Symbol)) : List Symbol :=
  padRight blank firstWidth first ++ cells.flatMap (padLeft blank width)

/-- A text that can be told from the symbols around it. -/
def Word (separator : Symbol) (text : List Symbol) : Prop := separator ∉ text ∧ text ≠ []

theorem parts_word (word : Word blank text) : parts blank text = [text] := by
  have single : join blank [text] = text := by simp [join]
  have read : parts blank (join blank [text]) = [text].filter (· ≠ []) :=
    parts_join (by simpa using word.1)
  rw [single] at read
  simpa [word.2] using read

theorem parts_padRight (word : Word blank text) :
    parts blank (padRight blank width text) = [text] := by
  rw [padRight, parts_append_replicate, parts_word word]

theorem parts_append_padLeft (word : Word blank text) (narrow : text.length < width) :
    parts blank (left ++ padLeft blank width text) = parts blank left ++ [text] := by
  obtain ⟨gap, wide⟩ := Nat.exists_eq_add_of_lt narrow
  have blanks : width - text.length = gap + 1 := by omega
  rw [padLeft, blanks, List.replicate_succ, List.cons_append, parts_append_cons,
    parts_replicate_append, parts_word word]

theorem parts_line {firstWidth : Nat} {first : List Symbol} {cells : List (List Symbol)}
    (word : Word blank first) (words : ∀ cell ∈ cells, Word blank cell ∧ cell.length < width) :
    parts blank (line blank firstWidth width first cells) = first :: cells := by
  induction cells using List.reverseRecOn with
  | nil => simpa [line] using parts_padRight word
  | append_singleton cells cell ih =>
      obtain ⟨earlier, latest⟩ := List.forall_mem_append.mp words
      obtain ⟨own, narrow⟩ := latest cell (List.mem_singleton_self cell)
      rw [line, List.flatMap_append, List.flatMap_singleton, ← List.append_assoc,
        parts_append_padLeft own narrow]
      exact congrArg (· ++ [cell]) (ih earlier)

omit [DecidableEq Symbol] in
theorem notMem_line {firstWidth : Nat} {first : List Symbol} {cells : List (List Symbol)}
    (differs : newline ≠ blank) (absent : newline ∉ first)
    (absent' : ∀ cell ∈ cells, newline ∉ cell) :
    newline ∉ line blank firstWidth width first cells := by
  intro member
  simp only [line, padRight, padLeft, List.mem_append, List.mem_flatMap, List.mem_replicate]
    at member
  rcases member with (member | ⟨-, same⟩) | ⟨cell, inside, ⟨-, same⟩ | member⟩
  · exact absent member
  · exact differs same
  · exact differs same
  · exact absent' cell inside member

/-- Lines that are not empty and have no breaks are read back from the text. -/
theorem parts_lines {lines : List (List Symbol)} (words : ∀ text ∈ lines, Word newline text) :
    parts newline (lines.flatMap (· ++ [newline])) = lines := by
  induction lines with
  | nil => simp
  | cons text lines ih =>
      obtain ⟨own, others⟩ := List.forall_mem_cons.mp words
      rw [List.flatMap_cons, List.append_assoc, List.singleton_append, parts_append_cons,
        parts_word own, ih others]
      rfl

end Columns
