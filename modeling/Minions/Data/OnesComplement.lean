import Mathlib.Data.Nat.ModEq
import Mathlib.Tactic.Ring

/-! One's complement addition of the numbers from 0 to `m`, where `m` is the greatest: a carry
out of the top is added back at the bottom. Both 0 and `m` stand for zero.
-/

namespace Minions.Data

def onesAdd (m a b : Nat) : Nat := if a + b ≤ m then a + b else a + b - m

def onesSum (m : Nat) (words : List Nat) : Nat := words.foldl (onesAdd m) 0

/-- The number that stands for `n`: only 0 is represented by 0. -/
def endAround (m n : Nat) : Nat := if n = 0 then 0 else (n - 1) % m + 1

variable {m n r : Nat}

/-- The end-around sum fits the word. -/
theorem endAround_le (positive : 0 < m) : endAround m n ≤ m := by
  have := Nat.mod_lt (n - 1) positive
  unfold endAround
  split <;> omega

/-- The end-around sum is the number modulo the largest word. -/
theorem endAround_modEq (m n : Nat) : endAround m n ≡ n [MOD m] := by
  unfold endAround
  split
  · next zero => rw [zero]
  · next nonzero =>
      have same : (n - 1) % m + 1 ≡ n - 1 + 1 [MOD m] := (Nat.mod_modEq _ _).add_right 1
      rwa [Nat.sub_add_cancel (Nat.one_le_iff_ne_zero.mpr nonzero)] at same

/-- Only zero is folded to zero. -/
theorem endAround_eq_zero : endAround m n = 0 ↔ n = 0 := by
  unfold endAround
  split <;> simp_all

/-- What is congruent to `n`, at most `m`, and 0 only together with `n`, stands for `n`. -/
theorem eq_endAround (positive : 0 < m) (bound : r ≤ m) (same : r ≡ n [MOD m])
    (zero : r = 0 ↔ n = 0)
    : r = endAround m n := by
  by_cases none : n = 0
  · rw [zero.mpr none, endAround_eq_zero.mpr none]
  have first : r ≠ 0 := fun h => none (zero.mp h)
  have second : endAround m n ≠ 0 := fun h => none (endAround_eq_zero.mp h)
  have limit := endAround_le (n := n) positive
  have both : r - 1 + 1 ≡ endAround m n - 1 + 1 [MOD m] := by
    rw [Nat.sub_add_cancel (by omega), Nat.sub_add_cancel (by omega)]
    exact same.trans (endAround_modEq m n).symm
  have := (both.add_right_cancel' 1).eq_of_lt_of_lt (by omega) (by omega)
  omega

/-- Adding in one's complement is adding. -/
theorem onesAdd_endAround (positive : 0 < m) (bound : r ≤ m)
    : onesAdd m (endAround m n) r = endAround m (n + r) := by
  have limit := endAround_le (n := n) positive
  have zero := endAround_eq_zero (m := m) (n := n)
  have sum : endAround m n + r ≡ n + r [MOD m] := (endAround_modEq m n).add_right r
  unfold onesAdd
  split
  · next fits => exact eq_endAround positive fits sum (by omega)
  · next carry =>
      refine eq_endAround positive (by omega) (Nat.ModEq.trans ?_ sum) (by omega)
      have back : endAround m n + r - m + m = endAround m n + r := Nat.sub_add_cancel (by omega)
      exact ((Nat.add_modEq_right).symm.trans (by rw [back]))

/-- The ones' complement sum of words is their folded sum. -/
theorem onesSum_eq (positive : 0 < m) {words : List Nat} (bound : ∀ w ∈ words, w ≤ m)
    : onesSum m words = endAround m words.sum := by
  have fold : ∀ n, words.foldl (onesAdd m) (endAround m n) = endAround m (n + words.sum) := by
    induction words with
    | nil => simp
    | cons w words ih =>
        intro n
        rw [List.foldl_cons, onesAdd_endAround positive (bound w (by simp)),
          ih fun v member => bound v (by simp [member]), List.sum_cons, Nat.add_assoc]
  have start := fold 0
  rw [endAround_eq_zero.mpr rfl, Nat.zero_add] at start
  exact start

/-- With its complement a number makes up the greatest one. -/
theorem endAround_add_complement (positive : 0 < m)
    : endAround m (n + (m - endAround m n)) = m := by
  have limit := endAround_le (n := n) positive
  refine (eq_endAround positive le_rfl ?_ ?_).symm
  · have same : n + (m - endAround m n) ≡ endAround m n + (m - endAround m n) [MOD m] :=
      (endAround_modEq m n).symm.add_right _
    rw [Nat.add_sub_cancel' limit] at same
    exact same.symm
  · have zero := endAround_eq_zero (m := m) (n := n)
    omega

/-- Two foldings of a number that has two digits leave what stands for it. -/
theorem fold_fold (positive : 0 < m) {high low : Nat} (first : high ≤ m) (second : low ≤ m)
    : (high + low + (high + low) / (m + 1)) % (m + 1) = endAround m ((m + 1) * high + low) := by
  have same : high + low ≡ (m + 1) * high + low [MOD m] := by
    rw [show (m + 1) * high + low = high + low + high * m by ring]
    exact Nat.modEq_add_mul_modulus_iff.mpr rfl
  have zero : high + low = 0 ↔ (m + 1) * high + low = 0 := by
    simp
  by_cases fits : high + low ≤ m
  · rw [Nat.div_eq_of_lt (by omega), Nat.add_zero, Nat.mod_eq_of_lt (by omega)]
    exact eq_endAround positive fits same zero
  · obtain ⟨rest, split⟩ : ∃ rest, high + low = rest + (m + 1) :=
      ⟨high + low - (m + 1), by omega⟩
    have carry : (high + low) / (m + 1) = 1 := by
      rw [split, Nat.add_div_right _ (by omega), Nat.div_eq_of_lt (by omega)]
    have back : high + low + 1 = rest + 1 + (m + 1) := by omega
    rw [carry, back, Nat.add_mod_right, Nat.mod_eq_of_lt (by omega)]
    refine eq_endAround positive (by omega) (Nat.ModEq.trans ?_ same) (by omega)
    rw [split, show rest + (m + 1) = rest + 1 + 1 * m by ring]
    exact Nat.modEq_add_mul_modulus_iff.mpr rfl

end Minions.Data
