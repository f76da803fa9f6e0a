import Mathlib.Data.List.Basic
import Mathlib.Data.Nat.ModEq

/-! Circular buffers: a fixed array whose occupied cells are the ones that follow a position,
past the end of the array and on from its start.
-/

namespace Minions.Data

variable {α : Type} {n : Nat}

/-- `if (++i == n) i = 0;` -/
def ringNext (i : Fin n) : Fin n :=
  if h : i.val + 1 = n then ⟨0, i.pos⟩ else ⟨i.val + 1, by omega⟩

/-- The position that `k` steps lead to. -/
def ringSkip (i : Fin n) : Nat → Fin n
  | 0 => i
  | k + 1 => ringSkip (ringNext i) k

/-- The `k` positions from one on, in order. -/
def ringPath (i : Fin n) : Nat → List (Fin n)
  | 0 => []
  | k + 1 => i :: ringPath (ringNext i) k

/-- What the `k` cells from a position on hold, in order. -/
def ringCells (slots : Vector α n) (i : Fin n) (k : Nat) : List α :=
  (ringPath i k).map fun j => slots[j]

/-- Stepping is addition modulo the size: at most one wrap is possible. -/
theorem ringNext_val (i : Fin n)
    : (ringNext i).val = (i.val + 1) % n := by
  unfold ringNext
  split
  · next last => simp [last]
  · next inside => exact (Nat.mod_eq_of_lt (by omega)).symm

/-- Skipping is addition modulo the size, by induction on the number of steps. -/
theorem ringSkip_val (i : Fin n) (k : Nat)
    : (ringSkip i k).val = (i.val + k) % n := by
  induction k generalizing i with
  | zero => exact (Nat.mod_eq_of_lt i.isLt).symm
  | succ k ih =>
      simp only [ringSkip, ih, ringNext_val, Nat.mod_add_mod]
      congr 1
      omega

/-- One more step at the end of a skip. -/
theorem ringSkip_succ (i : Fin n) (k : Nat)
    : ringSkip i (k + 1) = ringNext (ringSkip i k) := by
  apply Fin.ext
  simp only [ringNext_val, ringSkip_val, Nat.mod_add_mod, Nat.add_assoc]

/-- A whole turn leads back. -/
theorem ringSkip_size (i : Fin n)
    : ringSkip i n = i := by
  apply Fin.ext
  simp only [ringSkip_val, Nat.add_mod_right]
  exact Nat.mod_eq_of_lt i.isLt

/-- Different distances of less than a turn lead to different positions. -/
theorem ringSkip_inj {i : Fin n} {j k : Nat} (hj : j < n) (hk : k < n)
    (same : ringSkip i j = ringSkip i k)
    : j = k := by
  have values : (i.val + j) % n = (i.val + k) % n := by
    simpa only [ringSkip_val] using congrArg Fin.val same
  have shifted : Nat.ModEq n j k := Nat.ModEq.add_left_cancel' i.val values
  exact Nat.ModEq.eq_of_lt_of_lt shifted hj hk

/-- The position behind a path comes round to its start exactly where the path fills the
ring.
-/
theorem ringSkip_eq_self_iff {i : Fin n} {k : Nat} (positive : 0 < k) (room : k ≤ n)
    : ringSkip i k = i ↔ k = n := by
  constructor
  · intro same
    apply Classical.byContradiction
    intro notFull
    have : k = 0 := ringSkip_inj (i := i) (by omega) (by omega) same
    omega
  · intro full
    rw [full, ringSkip_size]

/-- A path along the ring has its number of steps. -/
@[simp] theorem length_ringPath (i : Fin n) (k : Nat)
    : (ringPath i k).length = k := by
  induction k generalizing i with
  | zero => rfl
  | succ k ih => simp [ringPath, ih]

/-- A path and the position behind it. -/
theorem ringPath_succ (i : Fin n) (k : Nat)
    : ringPath i (k + 1) = ringPath i k ++ [ringSkip i k] := by
  induction k generalizing i with
  | zero => rfl
  | succ k ih =>
      rw [ringPath, ih]
      rfl

/-- A path holds the positions that fewer steps lead to, by induction on its length. -/
theorem mem_ringPath {i j : Fin n} {k : Nat}
    : j ∈ ringPath i k ↔ ∃ d < k, ringSkip i d = j := by
  induction k with
  | zero => simp [ringPath]
  | succ k ih =>
      rw [ringPath_succ, List.mem_append, ih, List.mem_singleton]
      constructor
      · rintro (⟨d, hd, rfl⟩ | rfl)
        · exact ⟨d, by omega, rfl⟩
        · exact ⟨k, by omega, rfl⟩
      · intro ⟨d, hd, at_⟩
        by_cases last : d = k
        · exact .inr (last ▸ at_.symm)
        · exact .inl ⟨d, by omega, at_⟩

/-- The position behind a path that does not fill the ring is not on it. -/
theorem ringSkip_not_mem_path {i : Fin n} {k : Nat} (room : k < n)
    : ringSkip i k ∉ ringPath i k := by
  intro mem
  obtain ⟨d, hd, met⟩ := mem_ringPath.mp mem
  have : d = k := ringSkip_inj (by omega) room met
  omega

/-- A path along the ring meets as many cells. -/
@[simp] theorem length_ringCells (slots : Vector α n) (i : Fin n) (k : Nat)
    : (ringCells slots i k).length = k := by
  simp [ringCells]

/-- The first cell and the ones behind it. -/
theorem ringCells_cons (slots : Vector α n) (i : Fin n) (k : Nat)
    : ringCells slots i (k + 1) = slots[i] :: ringCells slots (ringNext i) k :=
  rfl

/-- A write to none of the cells leaves them alone. -/
theorem ringCells_set_other {slots : Vector α n} {i j : Fin n} {k : Nat} {x : α}
    (other : j ∉ ringPath i k)
    : ringCells (slots.set j x) i k = ringCells slots i k := by
  apply List.map_congr_left
  intro p mem
  have apart : j.val ≠ p.val := fun same => other (Fin.ext same ▸ mem)
  simp only [Fin.getElem_fin, Vector.getElem_set_ne _ _ apart]

/-- A value stored behind fewer than `n` cells is added at their end, and no cell is lost. -/
theorem ringCells_push {slots : Vector α n} {i j : Fin n} {k : Nat} {x : α}
    (behind : j = ringSkip i k) (room : k < n)
    : ringCells (slots.set j x) i (k + 1) = ringCells slots i k ++ [x] := by
  subst behind
  have untouched : ringCells (slots.set (ringSkip i k) x) i k = ringCells slots i k :=
    ringCells_set_other (ringSkip_not_mem_path room)
  unfold ringCells at *
  rw [ringPath_succ, List.map_append, untouched]
  simp

end Minions.Data
