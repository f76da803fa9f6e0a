import Mathlib.Data.List.Basic
import Mathlib.Order.Basic

/-! Merging sorted lists: the least of the first elements is taken until nothing is left. -/

namespace Minions.Data

variable {α : Type} [Preorder α]

/-- One step of a merge: some list gives its first element, and none begins with a smaller one. -/
structure TakesLeast (runs : List (List α)) (a : α) (runs' : List (List α)) : Prop where
  taken : ∃ i rest, runs[i]? = some (a :: rest) ∧ runs' = runs.set i rest
  least : ∀ run ∈ runs, ∀ b ∈ run.head?, a ≤ b

variable {runs runs' origin : List (List α)} {a : α} {out : List α}

omit [Preorder α] in
/-- A list that gives up its first element leaves all the others where they are. -/
private theorem perm_flatten_set {i : Nat} {rest : List α} (at_i : runs[i]? = some (a :: rest))
    : runs.flatten.Perm (a :: (runs.set i rest).flatten) := by
  obtain ⟨inside, eq⟩ := List.getElem?_eq_some_iff.mp at_i
  have before : runs = runs.take i ++ (a :: rest) :: runs.drop (i + 1) := by
    rw [← eq, List.getElem_cons_drop, List.take_append_drop]
  rw [List.set_eq_take_append_cons_drop, if_pos inside]
  conv => lhs; rw [before]
  simp only [List.flatten_append, List.flatten_cons, List.cons_append]
  exact List.perm_middle

/-- The runs hold the same elements as before, the taken one aside. -/
theorem TakesLeast.perm (h : TakesLeast runs a runs')
    : runs.flatten.Perm (a :: runs'.flatten) := by
  obtain ⟨i, rest, at_i, rfl⟩ := h.taken
  exact perm_flatten_set at_i

/-- What is taken from sorted lists is at most everything in them. -/
theorem TakesLeast.le (h : TakesLeast runs a runs')
    (sorted : ∀ run ∈ runs, run.Pairwise (· ≤ ·))
    : ∀ b ∈ runs.flatten, a ≤ b := by
  intro b hb
  obtain ⟨run, member, inside⟩ := List.mem_flatten.mp hb
  cases run with
  | nil => exact absurd inside List.not_mem_nil
  | cons head tail =>
      have first : a ≤ head := h.least _ member head rfl
      rcases List.mem_cons.mp inside with rfl | later
      · exact first
      · exact first.trans ((List.pairwise_cons.mp (sorted _ member)).1 b later)

/-- The runs stay sorted. -/
theorem TakesLeast.sorted (h : TakesLeast runs a runs')
    (sorted : ∀ run ∈ runs, run.Pairwise (· ≤ ·))
    : ∀ run ∈ runs', run.Pairwise (· ≤ ·) := by
  obtain ⟨i, rest, at_i, rfl⟩ := h.taken
  intro run member
  rcases List.mem_or_eq_of_mem_set member with old | rfl
  · exact sorted run old
  · exact (List.pairwise_cons.mp (sorted _ (List.mem_of_getElem? at_i))).2

/-- The state of a merge: what is out is in order and below what is left, and together they are
what there was.
-/
structure Merging (origin : List (List α)) (out : List α) (runs : List (List α)) : Prop where
  sorted : ∀ run ∈ runs, run.Pairwise (· ≤ ·)
  ordered : out.Pairwise (· ≤ ·)
  below : ∀ a ∈ out, ∀ b ∈ runs.flatten, a ≤ b
  same : (out ++ runs.flatten).Perm origin.flatten

/-- Sorted runs can be merged. -/
theorem Merging.start (sorted : ∀ run ∈ origin, run.Pairwise (· ≤ ·))
    : Merging origin [] origin :=
  ⟨sorted, List.Pairwise.nil, fun _ member => absurd member List.not_mem_nil, .refl _⟩

/-- Taking a least element goes on with the merge. -/
theorem Merging.take (m : Merging origin out runs) (h : TakesLeast runs a runs')
    : Merging origin (out ++ [a]) runs' where
  sorted := h.sorted m.sorted
  ordered := by
    refine List.pairwise_append.mpr ⟨m.ordered, List.pairwise_singleton _ _, ?_⟩
    intro x hx y hy
    obtain rfl := List.mem_singleton.mp hy
    exact m.below x hx _ (h.perm.mem_iff.mpr List.mem_cons_self)
  below := by
    intro x hx y hy
    have left : y ∈ runs.flatten := h.perm.mem_iff.mpr (List.mem_cons_of_mem _ hy)
    rcases List.mem_append.mp hx with old | new
    · exact m.below x old y left
    · obtain rfl := List.mem_singleton.mp new
      exact h.le m.sorted y left
  same := by
    rw [List.append_assoc]
    exact (h.perm.symm.append_left out).trans m.same

/-- A merge that has put out as much as there was is over. -/
theorem Merging.finish (m : Merging origin out runs)
    (all : out.length = origin.flatten.length)
    : out.Perm origin.flatten ∧ out.Pairwise (· ≤ ·) := by
  have total := m.same.length_eq
  rw [List.length_append] at total
  have nothing : runs.flatten = [] := List.length_eq_zero_iff.mp (by omega)
  refine ⟨?_, m.ordered⟩
  simpa only [nothing, List.append_nil] using m.same

/-- A merge that has put out less has a list that still begins with something. -/
theorem Merging.exists_cons (m : Merging origin out runs)
    (less : out.length < origin.flatten.length)
    : ∃ run ∈ runs, run ≠ [] := by
  have total := m.same.length_eq
  rw [List.length_append] at total
  have some_left : runs.flatten ≠ [] := by
    intro nothing
    rw [nothing, List.length_nil] at total
    omega
  obtain ⟨a, ha⟩ := List.exists_mem_of_ne_nil _ some_left
  obtain ⟨run, member, inside⟩ := List.mem_flatten.mp ha
  exact ⟨run, member, List.ne_nil_of_mem inside⟩

end Minions.Data
