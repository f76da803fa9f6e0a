import Mathlib.Data.List.Basic

/-! Runs of consecutive elements with a property, and the first of the longest ones. -/

namespace Minions.Data

variable {α : Type} {p : α → Prop}

/-- The `len` elements from `base` on have the property. -/
def IsRun (p : α → Prop) (xs : List α) (base len : Nat) : Prop :=
  base + len ≤ xs.length ∧ ∀ i, base ≤ i → i < base + len → ∃ x, xs[i]? = some x ∧ p x

/-- The run `(base, len)` is the first of the longest, or there is none with an element. -/
def FirstLongest (p : α → Prop) (xs : List α) : Option (Nat × Nat) → Prop
  | none => ∀ base len, IsRun p xs base len → len = 0
  | some run =>
      0 < run.2 ∧ IsRun p xs run.1 run.2
        ∧ ∀ base len, IsRun p xs base len → len < run.2 ∨ (len = run.2 ∧ run.1 ≤ base)

/-- A run stays one when something is appended. -/
theorem IsRun.append {xs : List α} {base len : Nat} (run : IsRun p xs base len) (ys : List α)
    : IsRun p (xs ++ ys) base len := by
  refine ⟨by have := run.1; simp; omega, fun i low high => ?_⟩
  obtain ⟨x, here, holds⟩ := run.2 i low high
  have inside := (List.getElem?_eq_some_iff.mp here).1
  exact ⟨x, by rw [List.getElem?_append_left inside, here], holds⟩

/-- A run that ends before what was appended. -/
theorem IsRun.of_append {xs ys : List α} {base len : Nat} (run : IsRun p (xs ++ ys) base len)
    (fits : base + len ≤ xs.length)
    : IsRun p xs base len := by
  refine ⟨fits, fun i low high => ?_⟩
  obtain ⟨x, here, holds⟩ := run.2 i low high
  exact ⟨x, by rw [← here, List.getElem?_append_left (by omega)], holds⟩

/-- A run of the list is a block of it. -/
theorem IsRun.split {xs : List α} {base len : Nat} (run : IsRun p xs base len)
    : ∃ before block after, xs = before ++ block ++ after ∧ before.length = base
      ∧ block.length = len ∧ ∀ x ∈ block, p x := by
  have fits := run.1
  refine ⟨xs.take base, (xs.drop base).take len, (xs.drop base).drop len, ?_, ?_, ?_, ?_⟩
  · rw [List.append_assoc, List.take_append_drop, List.take_append_drop]
  · simp
    omega
  · simp
    omega
  · intro x member
    obtain ⟨i, inside, rfl⟩ := List.mem_iff_getElem.mp member
    simp only [List.length_take, List.length_drop] at inside
    obtain ⟨y, here, holds⟩ := run.2 (base + i) (by omega) (by omega)
    have bound : base + i < xs.length := by omega
    have same : xs[base + i] = y := by
      rw [List.getElem?_eq_getElem bound] at here
      exact Option.some.inj here
    simpa [same] using holds

/-- An element without the property adds no run. -/
theorem FirstLongest.snoc {xs : List α} {x : α} (no : ¬ p x) {best : Option (Nat × Nat)}
    (longest : FirstLongest p xs best)
    : FirstLongest p (xs ++ [x]) best := by
  have shorter : ∀ base len, IsRun p (xs ++ [x]) base len → len ≠ 0 → IsRun p xs base len := by
    intro base len run pos
    refine run.of_append ?_
    apply Classical.byContradiction
    intro beyond
    have fits := run.1
    simp only [List.length_append, List.length_singleton] at fits
    obtain ⟨y, here, holds⟩ := run.2 xs.length (by omega) (by omega)
    rw [List.getElem?_concat_length] at here
    cases here
    exact no holds
  cases best with
  | none =>
      intro base len run
      apply Classical.byContradiction
      intro pos
      exact pos (longest base len (shorter base len run pos))
  | some best =>
      obtain ⟨pos, holds, first⟩ := longest
      refine ⟨pos, holds.append [x], fun base len run => ?_⟩
      by_cases empty : len = 0
      · omega
      · exact first base len (shorter base len run empty)

/-- A block behind an element without the property is compared with the longest run before
it; the earlier one stays where they are equal.
-/
theorem FirstLongest.close {before block : List α} {best : Option (Nat × Nat)}
    (longest : FirstLongest p before best) (ends : ∀ x ∈ before.getLast?, ¬ p x)
    (pos : block ≠ []) (all : ∀ x ∈ block, p x)
    : FirstLongest p (before ++ block)
      (if ∀ run ∈ best, run.2 < block.length then some (before.length, block.length)
       else best) := by
  have size : 0 < block.length := List.length_pos_iff.mpr pos
  have whole : IsRun p (before ++ block) before.length block.length := by
    refine ⟨by simp, fun i low high => ?_⟩
    have inside : i - before.length < block.length := by omega
    refine ⟨block[i - before.length], ?_, all _ (List.getElem_mem inside)⟩
    rw [List.getElem?_append_right low, List.getElem?_eq_getElem inside]
  -- A run that reaches into the block does not start before it.
  have located : ∀ base len, IsRun p (before ++ block) base len → len ≠ 0
      → IsRun p before base len ∨ (before.length ≤ base ∧ len ≤ block.length) := by
    intro base len run nonempty
    by_cases fits : base + len ≤ before.length
    · exact Or.inl (run.of_append fits)
    · refine Or.inr ?_
      have bound := run.1
      rw [List.length_append] at bound
      have start : before.length ≤ base := by
        apply Classical.byContradiction
        intro crosses
        obtain ⟨x, here, holds⟩ := run.2 (before.length - 1) (by omega) (by omega)
        rw [List.getElem?_append_left (by omega), ← List.getLast?_eq_getElem?] at here
        exact ends x here holds
      omega
  cases best with
  | none =>
      rw [if_pos (by simp)]
      refine ⟨size, whole, fun base len run => ?_⟩
      by_cases empty : len = 0
      · exact Or.inl (by omega)
      · rcases located base len run empty with old | ⟨low, short⟩
        · exact absurd (longest base len old) empty
        · show len < block.length ∨ (len = block.length ∧ before.length ≤ base)
          omega
  | some best =>
      obtain ⟨pos', holds, first⟩ := longest
      have inside := holds.1
      by_cases longer : best.2 < block.length
      · rw [if_pos (by simpa using longer)]
        refine ⟨size, whole, fun base len run => ?_⟩
        show len < block.length ∨ (len = block.length ∧ before.length ≤ base)
        by_cases empty : len = 0
        · omega
        · rcases located base len run empty with old | ⟨low, short⟩
          · have := first base len old
            omega
          · omega
      · rw [if_neg (by simpa using longer)]
        refine ⟨pos', holds.append block, fun base len run => ?_⟩
        by_cases empty : len = 0
        · omega
        · rcases located base len run empty with old | ⟨low, short⟩
          · exact first base len old
          · omega

end Minions.Data
