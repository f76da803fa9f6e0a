import Mathlib.Tactic.Ring

/-! Conversions between the integer types of C, of 32 and 64 bits. -/

namespace Minions.Data

def INT_MAX : Nat := 2 ^ 31 - 1

/-- Conversion to `int`. -/
def toInt (v : Int) : Int := v.bmod (2 ^ 32)

/-- Conversion to `size_t`. -/
def sizeT (v : Int) : Nat := (v % 2 ^ 64).toNat

/-- Conversion to `ssize_t`. -/
def ssizeT (v : Int) : Int := v.bmod (2 ^ 64)

/-- Conversion to the signed type of `bits` bits. -/
def signedT (bits : Nat) (v : Int) : Int := v.bmod (2 ^ bits)

/-- The conversion to `int` keeps exactly the numbers in its range. -/
theorem toInt_eq_iff {v : Int} : toInt v = v ↔ -(2 ^ 31) ≤ v ∧ v < 2 ^ 31 := by
  simp only [toInt, Int.bmod_def]
  omega

/-- A number in the range of `int` is kept. -/
theorem toInt_eq {v : Int} (low : -(2 ^ 31) ≤ v) (high : v < 2 ^ 31) : toInt v = v :=
  toInt_eq_iff.mpr ⟨low, high⟩

/-- A number in the range of `size_t` is kept. -/
theorem sizeT_eq {v : Int} (low : 0 ≤ v) (high : v < 2 ^ 64) : sizeT v = v.toNat := by
  simp only [sizeT]
  omega

/-- A number in the range of `ssize_t` is kept. -/
theorem ssizeT_eq {v : Int} (low : -(2 ^ 63) ≤ v) (high : v < 2 ^ 63) : ssizeT v = v := by
  simp only [ssizeT, Int.bmod_def]
  omega

/-- A number that `size_t` has and `ssize_t` has not becomes negative. -/
theorem ssizeT_neg {v : Int} (low : 2 ^ 63 ≤ v) (high : v < 2 ^ 64) : ssizeT v < 0 := by
  simp only [ssizeT, Int.bmod_def]
  omega

/-- A number without the sign bit is kept. -/
theorem signedT_natCast {bits n : Nat} (small : n ≤ 2 ^ (bits - 1) - 1)
    : signedT bits n = n := by
  have positive : 0 < 2 ^ (bits - 1) := Nat.two_pow_pos _
  cases bits with
  | zero =>
      obtain rfl : n = 0 := by simpa using small
      rfl
  | succ bits =>
      rw [Nat.add_sub_cancel] at small positive
      have high : n < 2 ^ (bits + 1) := by
        rw [Nat.pow_succ]
        omega
      rw [signedT, Int.bmod_def,
        Int.emod_eq_of_lt (Int.natCast_nonneg n) (Int.ofNat_lt.mpr high), Nat.pow_succ]
      omega

/-- A number with the sign bit becomes negative. -/
theorem signedT_neg {bits n : Nat} (large : 2 ^ (bits - 1) - 1 < n) (high : n < 2 ^ bits)
    : signedT bits n < 0 := by
  cases bits with
  | zero =>
      rw [Nat.pow_zero] at high
      omega
  | succ bits =>
      rw [Nat.add_sub_cancel] at large
      rw [signedT, Int.bmod_def,
        Int.emod_eq_of_lt (Int.natCast_nonneg n) (Int.ofNat_lt.mpr high), Nat.pow_succ]
      rw [Nat.pow_succ] at high
      omega

/-- A length that an `int` has is kept. -/
theorem toInt_natCast {n : Nat} (small : n ≤ INT_MAX) : toInt n = n := by
  simp only [INT_MAX] at small
  exact toInt_eq (by omega) (by omega)

/-- A length that an `int` has comes back from it. -/
theorem sizeT_toInt {n : Nat} (small : n ≤ INT_MAX) : sizeT (toInt n) = n := by
  rw [toInt_natCast small]
  simp only [INT_MAX] at small
  simp only [sizeT]
  omega

/-- A number of type `size_t` loses nothing that an `int` has. -/
theorem toInt_sizeT (v : Int) : toInt (sizeT v) = toInt v := by
  simp only [toInt, sizeT, Int.bmod_def]
  omega

end Minions.Data
