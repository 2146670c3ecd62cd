import ConcurrencyCourse.Library.TextSearch

/-!
# The parts of a text between separators

A text is read as the list of its parts, the nonempty stretches without the separator.  A text that
neither begins nor ends with a separator and has no two in a row is the list of its parts, joined.
-/

namespace Segments

open TextSearch

variable {Symbol : Type*} [DecidableEq Symbol] {separator : Symbol} {text left right : List Symbol}
  {texts : List (List Symbol)}

/-- The texts with a separator between any two. -/
abbrev join (separator : Symbol) (texts : List (List Symbol)) : List Symbol :=
  [separator].intercalate texts

/-- The nonempty stretches without the separator. -/
def parts (separator : Symbol) (text : List Symbol) : List (List Symbol) :=
  (text.splitOn separator).filter (· ≠ [])

@[simp] theorem parts_nil : parts separator [] = [] := by
  simp [parts]

theorem parts_append_cons : parts separator (left ++ separator :: right) =
    parts separator left ++ parts separator right := by
  rw [parts, List.splitOn_append_cons_self, List.filter_append]
  rfl

@[simp] theorem parts_cons_separator :
    parts separator (separator :: text) = parts separator text := by
  have split : parts separator ([] ++ separator :: text) = _ := parts_append_cons
  simpa using split

@[simp] theorem parts_append_separator :
    parts separator (text ++ [separator]) = parts separator text := by
  have split : parts separator (text ++ separator :: []) = _ := parts_append_cons
  simpa using split

@[simp] theorem parts_replicate_append (count : Nat) :
    parts separator (List.replicate count separator ++ text) = parts separator text := by
  induction count with
  | zero => rfl
  | succ count ih => rw [List.replicate_succ, List.cons_append, parts_cons_separator, ih]

@[simp] theorem parts_append_replicate (count : Nat) :
    parts separator (text ++ List.replicate count separator) = parts separator text := by
  induction count with
  | zero => simp
  | succ count ih =>
      rw [List.replicate_succ', ← List.append_assoc, parts_append_separator, ih]

theorem parts_join (absent : ∀ text ∈ texts, separator ∉ text) :
    parts separator (join separator texts) = texts.filter (· ≠ []) := by
  cases texts with
  | nil => simp [join]
  | cons text texts => rw [parts, join, List.splitOn_intercalate _ absent (by simp)]

omit [DecidableEq Symbol] in
theorem join_cons_cons (text next : List Symbol) : join separator (text :: next :: texts) =
    text ++ separator :: join separator (next :: texts) := by
  simp [join, List.intercalate_cons_cons]

theorem join_injective {texts' : List (List Symbol)}
    (proper : ∀ text ∈ texts, separator ∉ text ∧ text ≠ [])
    (proper' : ∀ text ∈ texts', separator ∉ text ∧ text ≠ [])
    (same : join separator texts = join separator texts') : texts = texts' := by
  have read (texts : List (List Symbol)) (proper : ∀ text ∈ texts, separator ∉ text ∧ text ≠ []) :
      parts separator (join separator texts) = texts := by
    rw [parts_join fun text member => (proper text member).1]
    exact List.filter_eq_self.mpr fun text member => by simp [(proper text member).2]
  rw [← read texts proper, ← read texts' proper', same]

omit [DecidableEq Symbol] in
theorem join_append {texts' : List (List Symbol)} (nonempty : texts ≠ [])
    (nonempty' : texts' ≠ []) : join separator (texts ++ texts') =
      join separator texts ++ separator :: join separator texts' := by
  induction texts with
  | nil => exact absurd rfl nonempty
  | cons text texts ih =>
      cases texts with
      | nil =>
          obtain ⟨next, rest, rfl⟩ := List.exists_cons_of_ne_nil nonempty'
          simp [join, List.intercalate_cons_cons]
      | cons next texts =>
          calc join separator (text :: (next :: texts) ++ texts')
              = text ++ separator :: join separator (next :: texts ++ texts') :=
                join_cons_cons text next
            _ = join separator (text :: next :: texts) ++ separator :: join separator texts' := by
                rw [ih (by simp), join_cons_cons]
                simp

theorem notMem_of_mem_splitOn {piece : List Symbol} (member : piece ∈ text.splitOn separator) :
    separator ∉ piece := by
  induction text generalizing piece with
  | nil =>
      obtain rfl : piece = [] := by simpa using member
      exact List.not_mem_nil
  | cons symbol text ih =>
      rw [List.splitOn_cons_eq_if_modifyHead] at member
      split at member
      · rcases List.mem_cons.mp member with rfl | later
        · exact List.not_mem_nil
        · exact ih later
      · rename_i other
        obtain ⟨first, rest, split_eq⟩ :=
          List.exists_cons_of_ne_nil (List.splitOn_ne_nil separator text)
        rw [split_eq, List.modifyHead_cons] at member
        rcases List.mem_cons.mp member with rfl | later
        · have absent : separator ∉ first := ih (split_eq ▸ List.mem_cons_self)
          have foreign : separator ≠ symbol := by
            rintro rfl
            simp at other
          exact List.not_mem_cons_of_ne_of_not_mem foreign absent
        · exact ih (split_eq ▸ List.mem_cons_of_mem _ later)

theorem mem_parts {part : List Symbol} (member : part ∈ parts separator text) :
    separator ∉ part ∧ part ≠ [] := by
  obtain ⟨piece, nonempty⟩ := List.mem_filter.mp member
  exact ⟨notMem_of_mem_splitOn piece, by simpa using nonempty⟩

theorem parts_eq_nil_iff : parts separator text = [] ↔ ∀ symbol ∈ text, symbol = separator := by
  induction text with
  | nil => simp
  | cons symbol text ih =>
      by_cases same : symbol = separator
      · subst same
        simpa using ih
      · have nonempty : parts separator (symbol :: text) ≠ [] := by
          obtain ⟨first, rest, split_eq⟩ :=
            List.exists_cons_of_ne_nil (List.splitOn_ne_nil separator text)
          simp [parts, List.splitOn_cons_eq_if_modifyHead, same, split_eq]
        simp [nonempty, same]

/-- Neither begins nor ends with a separator. -/
structure Trimmed (separator : Symbol) (text : List Symbol) : Prop where
  nonempty : text ≠ []
  front : text.head? ≠ some separator
  back : text.getLast? ≠ some separator

omit [DecidableEq Symbol] in
/-- One of two separators in a row can be left out. -/
theorem Trimmed.of_double
    (trimmed : Trimmed separator (left ++ separator :: separator :: right)) :
    Trimmed separator (left ++ separator :: right) := by
  obtain ⟨-, front, back⟩ := trimmed
  refine ⟨by simp, ?_, ?_⟩
  · cases left with
    | nil => simp at front
    | cons first left => simpa using front
  · simpa [List.getLast?_cons_cons] using back

/-- Trimmed, and no two separators in a row. -/
structure Tight (separator : Symbol) (text : List Symbol) : Prop
    extends Trimmed separator text where
  double : ¬ [separator, separator] <:+: text

theorem Tight.nil_notMem_splitOn (tight : Tight separator text) :
    [] ∉ text.splitOn separator := by
  intro member
  obtain ⟨before, after, split_eq⟩ := List.append_of_mem member
  have whole : join separator (before ++ [] :: after) = text := by
    rw [← split_eq]
    exact List.intercalate_splitOn separator
  cases before with
  | nil =>
      cases after with
      | nil => exact tight.nonempty (by simpa [join] using whole.symm)
      | cons next after =>
          refine tight.front ?_
          rw [← whole, List.nil_append, join_cons_cons]
          rfl
  | cons first before =>
      rw [join_append (by simp) (by simp)] at whole
      cases after with
      | nil =>
          refine tight.back ?_
          rw [← whole]
          simp [join]
      | cons next after =>
          refine tight.double ⟨join separator (first :: before), join separator (next :: after), ?_⟩
          rw [← whole, join_cons_cons]
          simp

theorem Tight.join_parts (tight : Tight separator text) :
    join separator (parts separator text) = text := by
  have all : parts separator text = text.splitOn separator :=
    List.filter_eq_self.mpr fun piece member => by
      simpa using fun empty : piece = [] => tight.nil_notMem_splitOn (empty ▸ member)
  rw [all]
  exact List.intercalate_splitOn separator

/-! ## Cutting the first part with a word -/

/-- Cut the first text that contains the word, where the word begins. -/
def cutFirst (word : List Symbol) : List (List Symbol) → List (List Symbol)
  | [] => []
  | text :: texts =>
      match find word text with
      | some index => text.take index :: texts
      | none => text :: cutFirst word texts

variable {word : List Symbol}

theorem cutFirst_ne_nil (nonempty : texts ≠ []) : cutFirst word texts ≠ [] := by
  cases texts with
  | nil => exact absurd rfl nonempty
  | cons text texts =>
      rw [cutFirst]
      split <;> simp

theorem cutFirst_of_begins (begins : word <+: text) :
    cutFirst word (text :: texts) = [] :: texts := by
  rw [cutFirst, find_of_begins begins]
  rfl

theorem cutFirst_cons_of_absent (absent : ¬ word <:+: text) :
    cutFirst word (text :: texts) = text :: cutFirst word texts := by
  rw [cutFirst, find_eq_none_iff.mpr absent]

theorem cutFirst_of_absent (absent : ∀ text ∈ texts, ¬ word <:+: text) :
    cutFirst word texts = texts := by
  induction texts with
  | nil => rfl
  | cons text texts ih =>
      obtain ⟨first, rest⟩ := List.forall_mem_cons.mp absent
      rw [cutFirst_cons_of_absent first, ih rest]

/-- The texts before the first one with the word stay as they are. -/
theorem cutFirst_append_cons {before after : List (List Symbol)} {index : Nat}
    (absent : ∀ other ∈ before, ¬ word <:+: other) (found : find word text = some index) :
    cutFirst word (before ++ text :: after) = before ++ text.take index :: after := by
  induction before with
  | nil => simp [cutFirst, found]
  | cons other before ih =>
      obtain ⟨first, rest⟩ := List.forall_mem_cons.mp absent
      rw [List.cons_append, cutFirst_cons_of_absent first, ih rest, List.cons_append]

theorem notMem_of_mem_cutFirst (absent : ∀ text ∈ texts, separator ∉ text)
    (member : text ∈ cutFirst word texts) : separator ∉ text := by
  induction texts with
  | nil => simp [cutFirst] at member
  | cons first texts ih =>
      obtain ⟨here, rest⟩ := List.forall_mem_cons.mp absent
      rw [cutFirst] at member
      split at member
      · rcases List.mem_cons.mp member with rfl | later
        · exact fun inside => here (List.mem_of_mem_take inside)
        · exact rest text later
      · rcases List.mem_cons.mp member with rfl | later
        · exact here
        · exact ih rest later

/-- Empty texts may be left out before the cut. -/
theorem filter_cutFirst (nonempty : word ≠ []) : (cutFirst word texts).filter (· ≠ []) =
    (cutFirst word (texts.filter (· ≠ []))).filter (· ≠ []) := by
  induction texts with
  | nil => rfl
  | cons text texts ih =>
      by_cases empty : text = []
      · subst empty
        have absent : find word [] = none := by simp [find, nonempty]
        simpa [cutFirst, absent] using ih
      · rw [List.filter_cons_of_pos (by simpa using empty), cutFirst, cutFirst]
        split
        · simp [List.filter_cons]
        · rw [List.filter_cons, List.filter_cons, ih]

/-- Cut the first text that contains the word, and leave out empty texts. -/
def cutDrop (word : List Symbol) (texts : List (List Symbol)) : List (List Symbol) :=
  (cutFirst word texts).filter (· ≠ [])

theorem cutDrop_proper (proper : ∀ text ∈ texts, separator ∉ text ∧ text ≠ [])
    (member : text ∈ cutDrop word texts) : separator ∉ text ∧ text ≠ [] := by
  obtain ⟨cut, nonempty⟩ := List.mem_filter.mp member
  exact ⟨notMem_of_mem_cutFirst (fun other inside => (proper other inside).1) cut,
    by simpa using nonempty⟩

/-- The texts that contain the word. -/
def containing (word : List Symbol) (texts : List (List Symbol)) : List (List Symbol) :=
  texts.filter (word <:+: ·)

/-- What happens to the first text that contains the word. -/
inductive CutCase (word : List Symbol) : List (List Symbol) → List (List Symbol) → Prop
  | absent {texts : List (List Symbol)} : (∀ text ∈ texts, ¬ word <:+: text) →
      CutCase word texts texts
  | removed {before after : List (List Symbol)} {text : List Symbol} :
      (∀ other ∈ before, ¬ word <:+: other) → word <+: text →
      CutCase word (before ++ text :: after) (before ++ after)
  | shortened {before after : List (List Symbol)} {text short : List Symbol} :
      (∀ other ∈ before, ¬ word <:+: other) → word <:+: text → ¬ word <+: text →
      ¬ word <:+: short → short <+: text →
      CutCase word (before ++ text :: after) (before ++ short :: after)

theorem cutDrop_cases (nonempty : word ≠ []) (proper : ∀ text ∈ texts, text ≠ []) :
    CutCase word texts (cutDrop word texts) := by
  have whole (texts : List (List Symbol)) (proper : ∀ text ∈ texts, text ≠ []) :
      texts.filter (· ≠ []) = texts :=
    List.filter_eq_self.mpr fun text member => by simpa using proper text member
  by_cases absent : ∀ text ∈ texts, ¬ word <:+: text
  · rw [cutDrop, cutFirst_of_absent absent, whole texts proper]
    exact .absent absent
  · push Not at absent
    obtain ⟨_, member, contained⟩ := absent
    obtain ⟨text, before, after, none, contains, rfl, -⟩ :=
      List.exists_of_eraseP (p := fun text => decide (word <:+: text)) member (by simpa)
    simp only [decide_eq_true_eq] at none contains
    obtain ⟨index, found⟩ := Option.isSome_iff_exists.mp (isSome_find_iff.mpr contains)
    have properBefore := whole before fun other member =>
      proper other (List.mem_append_left _ member)
    have properAfter := whole after fun other member =>
      proper other (List.mem_append_right _ (List.mem_cons_of_mem _ member))
    rw [cutDrop, cutFirst_append_cons none found, List.filter_append, properBefore]
    by_cases begins : word <+: text
    · obtain rfl : 0 = index := by simpa [find_of_begins begins] using found
      rw [List.take_zero, List.filter_cons_of_neg (by simp), properAfter]
      exact .removed none begins
    · have short : text.take index ≠ [] := by
        intro empty
        rcases List.take_eq_nil_iff.mp empty with rfl | rfl
        · exact begins (find_eq_zero_iff.mp found)
        · exact proper [] (by simp) rfl
      rw [List.filter_cons_of_pos (by simpa using short), properAfter]
      exact .shortened none contains begins (not_infix_take_of_find nonempty found)
        (List.take_prefix ..)

omit [DecidableEq Symbol] in
theorem CutCase.eq_of_absent {texts' : List (List Symbol)} (cut : CutCase word texts texts')
    (none : ∀ text ∈ texts, ¬ word <:+: text) : texts' = texts := by
  cases cut with
  | absent => rfl
  | removed _ begins => exact absurd begins.isInfix (none _ (by simp))
  | shortened _ contains => exact absurd contains (none _ (by simp))

theorem CutCase.eraseP {texts' : List (List Symbol)} (cut : CutCase word texts texts')
    (shorter : texts'.length < texts.length) :
    texts' = texts.eraseP (word <:+: ·) := by
  cases cut with
  | absent => omega
  | removed none begins =>
      rw [List.eraseP_append_right _ (by simpa using none),
        List.eraseP_cons_of_pos (by simpa using begins.isInfix)]
  | shortened => simp at shorter

omit [DecidableEq Symbol] in
theorem CutCase.length_le {texts' : List (List Symbol)} (cut : CutCase word texts texts') :
    texts'.length ≤ texts.length ∧ texts.length ≤ texts'.length + 1 := by
  cases cut with
  | absent => omega
  | removed | shortened => simp only [List.length_append, List.length_cons]; omega

/-- A cut takes one text with the word away, and adds no text with another word. -/
theorem CutCase.length_containing {texts' : List (List Symbol)} (cut : CutCase word texts texts')
    (other : List Symbol) :
    (containing word texts').length = (containing word texts).length - 1 ∧
      (containing other texts').length ≤ (containing other texts).length := by
  cases cut with
  | absent none =>
      have empty : containing word texts = [] :=
        List.filter_eq_nil_iff.mpr fun text member => by simpa using none text member
      simp [empty]
  | @removed before after text none begins =>
      simp only [containing, List.filter_append, List.length_append,
        List.filter_cons_of_pos (p := fun text => decide (word <:+: text))
          (by simpa using begins.isInfix), List.length_cons, List.filter_cons]
      refine ⟨by omega, ?_⟩
      split <;> simp
  | @shortened before after text short none contains begins without shorter =>
      simp only [containing, List.filter_append, List.length_append, List.filter_cons,
        decide_eq_true_eq, if_pos contains, if_neg without, List.length_cons]
      refine ⟨by omega, ?_⟩
      by_cases within : other <:+: short
      · simp [within, within.trans shorter.isInfix]
      · simp only [if_neg within]
        split <;> simp

theorem containing_append {texts' : List (List Symbol)} :
    containing word (texts ++ texts') = containing word texts ++ containing word texts' :=
  List.filter_append ..

theorem containing_eq_nil_iff : containing word texts = [] ↔ ∀ text ∈ texts, ¬ word <:+: text := by
  simp [containing, List.filter_eq_nil_iff]

theorem containing_sublist {texts' : List (List Symbol)} (sublist : texts.Sublist texts') :
    (containing word texts).Sublist (containing word texts') :=
  sublist.filter _

theorem containing_eraseP : containing word (texts.eraseP (word <:+: ·)) =
    (containing word texts).tail := by
  induction texts with
  | nil => rfl
  | cons text texts ih =>
      by_cases contains : word <:+: text
      · simp [containing, contains]
      · simpa [containing, contains] using ih

/-- When every text that contains the word is one and begins with it, the cut removes a copy. -/
theorem CutCase.erase_of_forall_eq {texts' : List (List Symbol)} (cut : CutCase word texts texts')
    (begins : word <+: text) (copies : ∀ other ∈ texts, word <:+: other → other = text) :
    texts' = texts.erase text := by
  cases cut with
  | absent none =>
      rw [List.erase_of_not_mem fun member => none text member begins.isInfix]
  | @removed before after found none begins' =>
      obtain rfl := copies found (by simp) begins'.isInfix
      rw [List.erase_append_right _ fun member => none found member begins'.isInfix,
        List.erase_cons_head]
  | @shortened before after found short none contains ends _ _ =>
      obtain rfl := copies found (by simp) contains
      exact absurd begins ends

end Segments
