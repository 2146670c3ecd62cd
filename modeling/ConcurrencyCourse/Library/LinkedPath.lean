import Mathlib.Data.List.Nodup

/-!
# Paths through a linked structure

`Path next first nodes last` says that following `next` from `first` visits exactly `nodes`, in
order, and then stands at `last`.
-/

namespace LinkedPath

variable {Address : Type*} {next next' : Address → Option Address}

/-- Following `next` from `first` visits `nodes` and then stands at `last`, which `nodes` does not
list. -/
def Path (next : Address → Option Address) : Address → List Address → Address → Prop
  | first, [], last => first = last
  | first, node :: nodes, last =>
      first = node ∧ ∃ second, next node = some second ∧ Path next second nodes last

@[simp]
theorem path_nil {first last : Address} : Path next first [] last ↔ first = last := Iff.rfl

@[simp]
theorem path_cons {first node last : Address} {nodes : List Address} :
    Path next first (node :: nodes) last ↔
      first = node ∧ ∃ second, next node = some second ∧ Path next second nodes last := Iff.rfl

theorem Path.congr {first last : Address} {nodes : List Address}
    (path : Path next first nodes last) (same : ∀ node ∈ nodes, next' node = next node) :
    Path next' first nodes last := by
  induction nodes generalizing first with
  | nil => exact path
  | cons node nodes ih =>
      obtain ⟨rfl, second, link, rest⟩ := path
      refine ⟨rfl, second, (same _ List.mem_cons_self).trans link, ih rest ?_⟩
      exact fun later member => same later (List.mem_cons_of_mem _ member)

theorem Path.snoc {first last beyond : Address} {nodes : List Address}
    (path : Path next first nodes last) (link : next last = some beyond) :
    Path next first (nodes ++ [last]) beyond := by
  induction nodes generalizing first with
  | nil =>
      obtain rfl := path
      exact ⟨rfl, beyond, link, rfl⟩
  | cons node nodes ih =>
      obtain ⟨rfl, second, link', rest⟩ := path
      exact ⟨rfl, second, link', ih rest⟩

theorem Path.of_snoc {first last beyond : Address} {nodes : List Address}
    (path : Path next first (nodes ++ [last]) beyond) :
    Path next first nodes last ∧ next last = some beyond := by
  induction nodes generalizing first with
  | nil =>
      obtain ⟨rfl, second, link, rfl⟩ := path
      exact ⟨rfl, link⟩
  | cons node nodes ih =>
      obtain ⟨rfl, second, link, rest⟩ := path
      obtain ⟨rest, last⟩ := ih rest
      exact ⟨⟨rfl, second, link, rest⟩, last⟩

theorem Path.exists_cons {first last : Address} {nodes : List Address}
    (path : Path next first nodes last) (nonempty : nodes ≠ []) :
    ∃ second rest, nodes = first :: rest ∧ next first = some second ∧
      Path next second rest last := by
  cases nodes with
  | nil => exact absurd rfl nonempty
  | cons node nodes =>
      obtain ⟨rfl, second, link, rest⟩ := path
      exact ⟨second, nodes, rfl, link, rest⟩

/-- Two paths between the same ends agree when neither passes through the end. -/
theorem Path.unique {first last : Address} {nodes nodes' : List Address}
    (path : Path next first nodes last) (path' : Path next first nodes' last)
    (fresh : last ∉ nodes) (fresh' : last ∉ nodes') : nodes = nodes' := by
  induction nodes generalizing first nodes' with
  | nil =>
      obtain rfl := path
      cases nodes' with
      | nil => rfl
      | cons node nodes' =>
          obtain ⟨rfl, -⟩ := path'
          simp at fresh'
  | cons node nodes ih =>
      obtain ⟨rfl, second, link, rest⟩ := path
      cases nodes' with
      | nil =>
          obtain rfl := path'
          simp at fresh
      | cons node' nodes' =>
          obtain ⟨rfl, second', link', rest'⟩ := path'
          obtain rfl := Option.some.inj (link.symm.trans link')
          rw [ih rest rest' (List.not_mem_of_not_mem_cons fresh)
            (List.not_mem_of_not_mem_cons fresh')]

end LinkedPath
