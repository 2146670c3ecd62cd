import ConcurrencyCourse.Reporter.Model

/-!
# What the normalisation of a name does

On the parts of a name, the erasures cut the first part with `"iterations"` and then the first part
with `"min_time"`, and the loops drop the parts that have become empty.
-/

namespace ConcurrencyCourse
namespace Reporter

open TextSearch Segments

variable {text rest skip : Text} {texts : List Text}

/-! ## The erasures -/

/-- An erasure does not go beyond a `'/'`. -/
theorem eraseModifier_append_cons (absent : '/' ∉ skip) (nonempty : skip ≠ [])
    (plain : '/' ∉ text) :
    eraseModifier skip (text ++ '/' :: rest) =
      match find skip text with
      | some pos => text.take pos ++ '/' :: rest
      | none => text ++ '/' :: eraseModifier skip rest := by
  cases found : find skip text with
  | some pos =>
      obtain ⟨before, after, rfl, rfl⟩ := exists_of_find found
      have later : '/' ∉ skip ++ after := fun member => plain (List.mem_append_right _ member)
      have stop : findFrom ['/'] (before ++ (skip ++ after) ++ '/' :: rest) before.length =
          some ((skip ++ after).length + before.length) := by
        rw [findFrom, List.append_assoc, List.drop_left, find_singleton_append later]
        rfl
      have position : find skip (before ++ (skip ++ after) ++ '/' :: rest) =
          some before.length := by
        rw [find_append_cons absent nonempty, found, Option.some_or]
      simp only [eraseModifier, position, stop, Option.map_some, Nat.add_sub_cancel, List.take_left]
      rw [List.append_assoc, erase_append]
  | none =>
      cases found' : find skip rest with
      | none => simp [eraseModifier, find_append_cons absent nonempty, found, found']
      | some pos =>
          have shift : (text ++ '/' :: rest).drop (pos + (text.length + 1)) = rest.drop pos := by
            have past : pos + (text.length + 1) - text.length = pos + 1 := by omega
            rw [List.drop_append, List.drop_of_length_le (by omega), past]
            rfl
          have front : (text ++ ['/']).length = text.length + 1 := by simp
          have whole : text ++ '/' :: rest = (text ++ ['/']) ++ rest := by simp
          simp only [eraseModifier, find_append_cons absent nonempty, found, found',
            Option.none_or, Option.map_some, findFrom, shift, Option.map_map]
          rw [whole, erase_append_of_length_le (by omega), front, Nat.add_sub_cancel]
          simp [Function.comp_def]

/-- An erasure cuts the first part that contains the word. -/
theorem eraseModifier_join (absent : '/' ∉ skip) (nonempty : skip ≠ [])
    (plain : ∀ text ∈ texts, '/' ∉ text) :
    eraseModifier skip (join '/' texts) = join '/' (cutFirst skip texts) := by
  induction texts with
  | nil => simp [join, eraseModifier, find, nonempty, cutFirst]
  | cons text texts ih =>
      obtain ⟨here, later⟩ := List.forall_mem_cons.mp plain
      cases texts with
      | nil =>
          cases found : find skip text with
          | none => simp [join, eraseModifier, found, cutFirst]
          | some pos =>
              have stop : find ['/'] (text.drop pos) = none :=
                find_singleton_eq_none_iff.mpr fun member => here (List.mem_of_mem_drop member)
              simp [join, eraseModifier, found, cutFirst, findFrom, stop, erase]
      | cons next texts =>
          rw [join_cons_cons, eraseModifier_append_cons absent nonempty here, ih later]
          cases found : find skip text with
          | some pos =>
              have cut : cutFirst skip (text :: next :: texts) =
                  text.take pos :: next :: texts := by
                rw [cutFirst, found]
              rw [cut, join_cons_cons]
          | none =>
              have cut : cutFirst skip (text :: next :: texts) =
                  text :: cutFirst skip (next :: texts) := by
                rw [cutFirst, found]
              have filled : cutFirst skip (next :: texts) ≠ [] := cutFirst_ne_nil (by simp)
              obtain ⟨first, others, cut_eq⟩ := List.exists_cons_of_ne_nil filled
              rw [cut, cut_eq, join_cons_cons]

/-! ## The loops -/

theorem eraseFront_eq_none_iff : eraseFront text = none ↔ ∀ symbol ∈ text, symbol = '/' := by
  induction text with
  | nil => simp [eraseFront]
  | cons symbol text ih =>
      by_cases same : symbol = '/'
      · simp [eraseFront, same, ih]
      · simp [eraseFront, same]

theorem exists_of_eraseFront (erased : eraseFront text = some rest) : ∃ count,
    text = List.replicate count '/' ++ rest ∧ rest ≠ [] ∧ rest.head? ≠ some '/' := by
  induction text with
  | nil => simp [eraseFront] at erased
  | cons symbol text ih =>
      rw [eraseFront] at erased
      split at erased
      · rename_i same
        obtain ⟨count, rfl, nonempty, front⟩ := ih erased
        exact ⟨count + 1, by rw [same]; rfl, nonempty, front⟩
      · rename_i other
        obtain rfl := Option.some.inj erased
        exact ⟨0, rfl, by simp, by simpa using other⟩

theorem popBack_eq_none_iff : popBack text = none ↔ ∀ symbol ∈ text, symbol = '/' := by
  simp [popBack, eraseFront_eq_none_iff]

theorem exists_of_popBack (popped : popBack text = some rest) : ∃ count,
    text = rest ++ List.replicate count '/' ∧ rest ≠ [] ∧ rest.getLast? ≠ some '/' := by
  obtain ⟨reversed, erased, rfl⟩ := Option.map_eq_some_iff.mp popped
  obtain ⟨count, whole, nonempty, front⟩ := exists_of_eraseFront erased
  refine ⟨count, ?_, by simpa using nonempty, by simpa using front⟩
  rw [← List.reverse_reverse text, whole]
  simp

theorem eraseDoubles_spec (trimmed : Trimmed '/' text) :
    Tight '/' (eraseDoubles text) ∧ parts '/' (eraseDoubles text) = parts '/' text := by
  induction text using eraseDoubles.induct with
  | case1 text pos found ih =>
      obtain ⟨before, after, rfl, rfl⟩ := exists_of_find found
      have shorter : erase (before ++ (['/', '/'] ++ after)) before.length (some 1) =
          before ++ '/' :: after := erase_append before ['/'] ('/' :: after)
      have step : eraseDoubles (before ++ (['/', '/'] ++ after)) =
          eraseDoubles (before ++ '/' :: after) := by
        rw [eraseDoubles]
        split
        · rename_i pos found'
          obtain rfl := Option.some.inj (found.symm.trans found')
          rw [shorter]
        · rename_i missing
          exact absurd (found.symm.trans missing) (by simp)
      rw [shorter] at ih
      obtain ⟨tight, same⟩ := ih trimmed.of_double
      rw [step]
      refine ⟨tight, same.trans ?_⟩
      rw [parts_append_cons, List.cons_append, parts_append_cons]
      simp
  | case2 text found =>
      have stays : eraseDoubles text = text := by
        rw [eraseDoubles]
        split
        · rename_i pos found'
          simp [found] at found'
        · rfl
      rw [stays]
      exact ⟨⟨trimmed, find_eq_none_iff.mp found⟩, rfl⟩

/-! ## The whole normalisation -/

theorem iterationsWord_ne_nil : iterationsWord ≠ [] := by decide

theorem minTimeWord_ne_nil : minTimeWord ≠ [] := by decide

/-- The loops leave the parts, joined; they meet an empty text when there is none. -/
theorem clean_eq (text : Text) :
    ((popBack text).bind fun text => (eraseFront text).bind fun text => some (eraseDoubles text)) =
      if parts '/' text = [] then none else some (join '/' (parts '/' text)) := by
  split
  · rename_i empty
    rw [popBack_eq_none_iff.mpr (parts_eq_nil_iff.mp empty)]
    rfl
  · rename_i nonempty
    cases popped : popBack text with
    | none => exact absurd (parts_eq_nil_iff.mpr (popBack_eq_none_iff.mp popped)) nonempty
    | some shorter =>
        obtain ⟨count, rfl, -, back⟩ := exists_of_popBack popped
        rw [parts_append_replicate] at nonempty ⊢
        cases erased : eraseFront shorter with
        | none => exact absurd (parts_eq_nil_iff.mpr (eraseFront_eq_none_iff.mp erased)) nonempty
        | some rest =>
            obtain ⟨count, rfl, nonempty', front⟩ := exists_of_eraseFront erased
            have trimmed : Trimmed '/' rest := ⟨nonempty', front, by
              simpa [List.getLast?_append, nonempty'] using back⟩
            obtain ⟨tight, same⟩ := eraseDoubles_spec trimmed
            rw [parts_replicate_append, ← same, tight.join_parts]
            simp [erased]

/-- The parts that the normalisation leaves of the parts of a name. -/
def keptParts (parts : List Text) : List Text :=
  (cutFirst minTimeWord (cutFirst iterationsWord parts)).filter (· ≠ [])

theorem keptParts_eq (parts : List Text) :
    keptParts parts = cutDrop minTimeWord (cutDrop iterationsWord parts) := by
  rw [keptParts, filter_cutFirst (by decide)]
  rfl

theorem eraseModifiers_eq (name : Text) : eraseModifiers name =
    join '/' (cutFirst minTimeWord (cutFirst iterationsWord (name.splitOn '/'))) := by
  have plain : ∀ piece ∈ name.splitOn '/', '/' ∉ piece := fun _ => notMem_of_mem_splitOn
  have whole : join '/' (name.splitOn '/') = name := List.intercalate_splitOn '/'
  conv_lhs => rw [← whole]
  simp only [eraseModifiers, List.foldl_cons, List.foldl_nil]
  rw [eraseModifier_join (by decide) (by decide) plain, eraseModifier_join (by decide) (by decide)
    fun _ => notMem_of_mem_cutFirst plain]

/-- The name of a measure consists of the parts that are left. -/
theorem measureName_eq (name : Text) : measureName name =
    if keptParts (parts '/' name) = [] then none
    else some (join '/' (keptParts (parts '/' name))) := by
  have plain : ∀ piece ∈ name.splitOn '/', '/' ∉ piece := fun _ => notMem_of_mem_splitOn
  have kept : parts '/' (eraseModifiers name) = keptParts (parts '/' name) := by
    rw [eraseModifiers_eq, parts_join fun _ => notMem_of_mem_cutFirst fun _ =>
      notMem_of_mem_cutFirst plain, keptParts, parts]
    rw [filter_cutFirst minTimeWord_ne_nil, filter_cutFirst iterationsWord_ne_nil,
      ← filter_cutFirst minTimeWord_ne_nil]
  rw [← kept, ← clean_eq]
  rfl

end Reporter
end ConcurrencyCourse
