import Minions.Data.Decimal

/-! Hexadecimal numerals in byte strings: the conversion `%x` of `sprintf`, and the value of a
run of hexadecimal digits.
-/

namespace Minions.Data

/-- `%x` of a non-negative number. -/
def hex (n : Nat) : List Byte := (Nat.toDigits 16 n).map ascii

/-- The value of one hexadecimal digit, of either case. -/
def hexVal (b : Byte) : Option Nat :=
  if isDigit b then some (b.toNat - 48)
  else if 97 ≤ b ∧ b ≤ 102 then some (b.toNat - 87)
  else if 65 ≤ b ∧ b ≤ 70 then some (b.toNat - 55)
  else none

/-- The value of a run of hexadecimal digits read after the value `acc`. -/
def hexValueFrom (acc : Nat) (digits : List Byte) : Nat :=
  digits.foldl (fun acc b => 16 * acc + (hexVal b).getD 0) acc

/-- The value of a run of hexadecimal digits. -/
def hexValue (digits : List Byte) : Nat := hexValueFrom 0 digits

/-- Every byte is a hexadecimal digit. -/
def HexDigits (digits : List Byte) : Prop := ∀ b ∈ digits, (hexVal b).isSome

/-- A hexadecimal digit has a value below 16. -/
theorem hexVal_lt {b : Byte} {v : Nat} (digit : hexVal b = some v) : v < 16 := by
  have bound := b.toNat_lt
  simp only [hexVal, isDigit, Bool.and_eq_true, decide_eq_true_eq, UInt8.le_iff_toNat_le] at digit
  split at digit
  · next range =>
      simp only [UInt8.reduceToNat] at range
      cases digit
      omega
  · split at digit
    · next range =>
        simp only [UInt8.reduceToNat] at range
        cases digit
        omega
    · split at digit
      · next range =>
          simp only [UInt8.reduceToNat] at range
          cases digit
          omega
      · cases digit

/-- No digits add nothing. -/
@[simp]
theorem hexValueFrom_nil (acc : Nat) : hexValueFrom acc [] = acc := rfl

/-- A digit shifts the value before it. -/
@[simp]
theorem hexValueFrom_cons (acc : Nat) (b : Byte) (digits : List Byte)
    : hexValueFrom acc (b :: digits) = hexValueFrom (16 * acc + (hexVal b).getD 0) digits :=
  rfl

/-- Digits are read one after the other. -/
@[simp]
theorem hexValueFrom_append (acc : Nat) (front back : List Byte)
    : hexValueFrom acc (front ++ back) = hexValueFrom (hexValueFrom acc front) back := by
  simp [hexValueFrom]

/-- Reading on never makes the value smaller. -/
theorem le_hexValueFrom (acc : Nat) (digits : List Byte) : acc ≤ hexValueFrom acc digits := by
  induction digits generalizing acc with
  | nil => simp
  | cons b digits ih =>
      have rest := ih (16 * acc + (hexVal b).getD 0)
      simp only [hexValueFrom_cons]
      omega

/-- Two texts consist of digits if each does. -/
theorem hexDigits_append {front back : List Byte}
    : HexDigits (front ++ back) ↔ HexDigits front ∧ HexDigits back := by
  simp only [HexDigits, List.mem_append]
  exact ⟨fun h => ⟨fun b hb => h b (Or.inl hb), fun b hb => h b (Or.inr hb)⟩,
    fun h b hb => hb.elim (h.1 b) (h.2 b)⟩

-----------------------------------------------------------------------------------------
-- Reading back what was written
-----------------------------------------------------------------------------------------

/-- A digit that is written is read back. -/
theorem hexVal_digitChar {d : Nat} (small : d < 16) : hexVal (ascii d.digitChar) = some d := by
  have all : ∀ d < 16, hexVal (ascii (Nat.digitChar d)) = some d := by decide
  exact all d small

/-- A number below 16 has one digit. -/
theorem hex_of_lt {n : Nat} (small : n < 16) : hex n = [ascii n.digitChar] := by
  simp [hex, Nat.toDigits_of_lt_base small]

/-- The last digit of a longer numeral. -/
theorem hex_of_ge {n : Nat} (large : 16 ≤ n)
    : hex n = hex (n / 16) ++ [ascii (n % 16).digitChar] := by
  simp [hex, Nat.toDigits_of_base_le (by omega : 1 < 16) large]

/-- A hexadecimal numeral has a digit. -/
theorem hex_ne_nil (n : Nat) : hex n ≠ [] := by
  simp [hex, Nat.toDigits_ne_nil]

/-- A number below `16 ^ width` has at most `width` digits. -/
theorem hex_length_le {n width : Nat} (pos : 0 < width) (h : n < 16 ^ width)
    : (hex n).length ≤ width := by
  simpa [hex] using (Nat.length_toDigits_le_iff (by omega) pos).mpr h

/-- By strong induction on the number, its last digit split off. -/
theorem hexDigits_hex (n : Nat) : HexDigits (hex n) := by
  induction n using Nat.strongRecOn with
  | ind n ih =>
      rcases Nat.lt_or_ge n 16 with small | large
      · simp [HexDigits, hex_of_lt small, hexVal_digitChar small]
      · rw [hex_of_ge large, hexDigits_append]
        refine ⟨ih (n / 16) (by omega), ?_⟩
        simp [HexDigits, hexVal_digitChar (Nat.mod_lt n (by omega : 16 > 0))]

/-- A hexadecimal numeral is read back. -/
theorem hexValue_hex (n : Nat) : hexValue (hex n) = n := by
  induction n using Nat.strongRecOn with
  | ind n ih =>
      rcases Nat.lt_or_ge n 16 with small | large
      · simp [hexValue, hex_of_lt small, hexVal_digitChar small]
      · have front : hexValueFrom 0 (hex (n / 16)) = n / 16 := ih (n / 16) (by omega)
        rw [hex_of_ge large, hexValue, hexValueFrom_append, front, hexValueFrom_cons,
          hexVal_digitChar (Nat.mod_lt n (by omega : 16 > 0))]
        simp only [Option.getD_some, hexValueFrom_nil]
        omega

end Minions.Data
