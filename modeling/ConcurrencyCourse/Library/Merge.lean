import Mathlib.Data.List.Basic

/-!
# Merges of lists

A list is a merge of others when its elements can be tagged with the lists they come from, such that
the elements of each tag are the elements of that list in its order.
-/

namespace Merge

variable {Tag Value : Type*} [DecidableEq Tag] {tag other : Tag} {value : Value}
  {parts : Tag → List Value} {whole : List Value} {tagged : List (Tag × Value)}

/-- The elements with a tag. -/
def own (tag : Tag) (tagged : List (Tag × Value)) : List Value :=
  (tagged.filter fun element => element.1 = tag).map Prod.snd

/-- The whole consists of the elements of the parts, each part in its order. -/
def IsMerge (parts : Tag → List Value) (whole : List Value) : Prop :=
  ∃ tagged : List (Tag × Value), tagged.map Prod.snd = whole ∧ ∀ tag, own tag tagged = parts tag

@[simp] theorem own_nil : own tag ([] : List (Tag × Value)) = [] := rfl

@[simp] theorem own_append (left right : List (Tag × Value)) :
    own tag (left ++ right) = own tag left ++ own tag right := by
  simp [own]

@[simp] theorem own_cons_self : own tag ((tag, value) :: tagged) = value :: own tag tagged := by
  simp [own]

theorem own_cons_of_ne (different : other ≠ tag) :
    own tag ((other, value) :: tagged) = own tag tagged := by
  simp [own, different]

theorem mem_own (member : (tag, value) ∈ tagged) : value ∈ own tag tagged :=
  List.mem_map.mpr ⟨(tag, value), List.mem_filter.mpr ⟨member, by simp⟩, rfl⟩

theorem own_snoc (tagged : List (Tag × Value)) (tag : Tag) (value : Value) (other : Tag) :
    own other (tagged ++ [(tag, value)]) =
      if other = tag then own other tagged ++ [value] else own other tagged := by
  by_cases same : other = tag
  · subst same
    simp
  · rw [own_append, own_cons_of_ne (Ne.symm same), if_neg same]
    simp

end Merge
