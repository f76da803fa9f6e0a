import Mathlib.Data.List.Basic
import Mathlib.Tactic.Ring

/-! Decimal numerals in byte strings: the conversions `%lld` and `%*lld` of `sprintf`, and
`atol`.
-/

namespace Minions.Data

abbrev Byte := UInt8

/-- The byte of an ASCII character. -/
def ascii (c : Char) : Byte := UInt8.ofNat c.toNat

/-- `%lld` of a non-negative number. -/
def decimal (n : Nat) : List Byte := (Nat.toDigits 10 n).map ascii

/-- `%lld` of any number. -/
def decimalInt : Int → List Byte
  | .ofNat n => decimal n
  | .negSucc n => ascii '-' :: decimal (n + 1)

/-- Right justification in a field of `width` blanks, as `%*lld` does. -/
def padLeft (width : Nat) (text : List Byte) : List Byte :=
  List.replicate (width - text.length) (ascii ' ') ++ text

/-- `isspace` in the C locale. -/
def isSpace (b : Byte) : Bool := b = 32 || (9 ≤ b && b ≤ 13)

/-- `isdigit`. -/
def isDigit (b : Byte) : Bool := 48 ≤ b && b ≤ 57

/-- The value of a run of digits. -/
def digitsValue (digits : List Byte) : Nat :=
  digits.foldl (fun acc b => 10 * acc + (b.toNat - 48)) 0

/-- Bounds of `long`; `strtol` returns the nearer one when the numeral is out of range. -/
def clampLong (v : Int) : Int := max (-(2 ^ 63)) (min (2 ^ 63 - 1) v)

/-- `atol`: skip white space, accept one sign, convert the digits that follow. -/
def atol (text : List Byte) : Int :=
  match text.dropWhile isSpace with
  | [] => 0
  | b :: rest =>
      if b = ascii '-' then clampLong (-(digitsValue (rest.takeWhile isDigit) : Int))
      else if b = ascii '+' then clampLong (digitsValue (rest.takeWhile isDigit))
      else clampLong (digitsValue ((b :: rest).takeWhile isDigit))

/-- A digit character becomes a digit byte of the same value. -/
theorem ascii_digit {c : Char} (h : c.isDigit)
    : isDigit (ascii c) = true ∧ (ascii c).toNat - 48 = c.toNat - '0'.toNat := by
  have range : 48 ≤ c.toNat ∧ c.toNat ≤ 57 := by
    simp only [Char.isDigit, Bool.and_eq_true, decide_eq_true_eq] at h
    exact ⟨by simpa using UInt32.le_iff_toNat_le.mp h.1,
      by simpa using UInt32.le_iff_toNat_le.mp h.2⟩
  have value : (ascii c).toNat = c.toNat := by
    simp only [ascii, UInt8.toNat_ofNat']
    omega
  refine ⟨?_, by rw [value]; rfl⟩
  simp only [isDigit, Bool.and_eq_true, decide_eq_true_eq, UInt8.le_iff_toNat_le, value]
  simpa using range

/-- A numeral consists of digits. -/
theorem decimal_isDigit {n : Nat} {b : Byte} (h : b ∈ decimal n) : isDigit b = true := by
  obtain ⟨c, member, rfl⟩ := List.mem_map.mp h
  exact (ascii_digit (Nat.isDigit_of_mem_toDigits (by omega) (by omega) member)).1

/-- A numeral has a digit. -/
theorem decimal_ne_nil (n : Nat) : decimal n ≠ [] := by
  simp [decimal, Nat.toDigits_ne_nil]

/-- A number below `10 ^ width` has at most `width` digits. -/
theorem decimal_length_le {n width : Nat} (pos : 0 < width) (h : n < 10 ^ width)
    : (decimal n).length ≤ width := by
  simpa [decimal] using (Nat.length_toDigits_le_iff (by omega) pos).mpr h

/-- A text that fits is padded to the width. -/
theorem padLeft_length {width : Nat} {text : List Byte} (h : text.length ≤ width)
    : (padLeft width text).length = width := by
  simp only [padLeft, List.length_append, List.length_replicate]
  omega

/-- A digit is neither white space nor a sign. -/
theorem isDigit_plain {b : Byte} (h : isDigit b = true)
    : isSpace b = false ∧ b ≠ ascii '-' ∧ b ≠ ascii '+' := by
  simp only [isDigit, Bool.and_eq_true, decide_eq_true_eq, UInt8.le_iff_toNat_le,
    UInt8.reduceToNat] at h
  refine ⟨?_, ?_, ?_⟩
  · simp only [isSpace, Bool.or_eq_false_iff, decide_eq_false_iff_not, Bool.and_eq_false_iff]
    refine ⟨?_, Or.inr ?_⟩
    · rintro rfl
      simp at h
    · rw [UInt8.le_iff_toNat_le]
      simp only [UInt8.reduceToNat]
      omega
  · rintro rfl
    simp [ascii] at h
  · rintro rfl
    simp [ascii] at h

-----------------------------------------------------------------------------------------
-- Reading back what was written
-----------------------------------------------------------------------------------------

/-- The digits of a numeral have its value. -/
theorem digitsValue_decimal (n : Nat) : digitsValue (decimal n) = n := by
  have fold : ∀ (cs : List Char) (acc : Nat), (∀ c ∈ cs, c.isDigit)
      → (cs.map ascii).foldl (fun acc b => 10 * acc + (b.toNat - 48)) acc
        = Nat.ofDigitChars 10 cs acc := by
    intro cs
    induction cs with
    | nil => simp
    | cons c cs ih =>
        intro acc digits
        rw [Nat.ofDigitChars_cons, ← ih _ (fun d hd => digits d (by simp [hd]))]
        simp [(ascii_digit (digits c (by simp))).2]
  rw [digitsValue, decimal, fold _ 0 fun c hc =>
    Nat.isDigit_of_mem_toDigits (by omega) (by omega) hc]
  exact Nat.ofDigitChars_ten_toDigits

/-- `atol` reads a numeral through any number of blanks before it and stops at the first
byte after it that is not a digit.
-/
theorem atol_padLeft {n : Nat} (width : Nat) (rest : List Byte) (small : n < 2 ^ 63)
    (stop : ∀ b ∈ rest.head?, isDigit b = false)
    : atol (padLeft width (decimal n) ++ rest) = n := by
  obtain ⟨d, ds, split⟩ := List.exists_cons_of_ne_nil (decimal_ne_nil n)
  have digit : isDigit d = true := decimal_isDigit (n := n) (by simp [split])
  obtain ⟨notSpace, notMinus, notPlus⟩ := isDigit_plain digit
  have blanks : ∀ k, (List.replicate k (ascii ' ') ++ d :: (ds ++ rest)).dropWhile isSpace
      = d :: (ds ++ rest) := by
    intro k
    induction k with
    | zero => simp [notSpace]
    | succ k ih =>
        have space : isSpace (ascii ' ') = true := by decide
        simpa [List.replicate_succ, List.dropWhile_cons, space] using ih
  have front : (d :: (ds ++ rest)).takeWhile isDigit = decimal n := by
    rw [← List.cons_append, ← split,
      List.takeWhile_append_of_pos (fun b hb => decimal_isDigit hb)]
    cases rest with
    | nil => simp
    | cons r rs => simp [stop r (by simp)]
  have text : (padLeft width (decimal n) ++ rest).dropWhile isSpace = d :: (ds ++ rest) := by
    simpa [padLeft, split] using blanks (width - (decimal n).length)
  simp only [atol, text, if_neg notMinus, if_neg notPlus, front, digitsValue_decimal]
  simp only [clampLong]
  omega

/-- `atol` reads a numeral back. -/
theorem atol_decimal {n : Nat} (small : n < 2 ^ 63) : atol (decimal n) = n := by
  simpa [padLeft] using atol_padLeft 0 [] small (by simp)

/-- `atol` reads back what `%d` wrote, up to the first byte after it that is not a digit. -/
theorem atol_decimalInt_append {v : Int} (rest : List Byte) (low : -(2 ^ 63) ≤ v)
    (high : v < 2 ^ 63) (stop : ∀ b ∈ rest.head?, isDigit b = false)
    : atol (decimalInt v ++ rest) = v := by
  cases v with
  | ofNat n =>
      have small : n < 2 ^ 63 := by
        simp only [Int.ofNat_eq_natCast] at high
        omega
      have read := atol_padLeft 0 rest small stop
      simp only [padLeft, Nat.zero_sub, List.replicate_zero, List.nil_append] at read
      exact read
  | negSucc n =>
      have minus : isSpace (ascii '-') = false := by decide
      have digits : (decimal (n + 1) ++ rest).takeWhile isDigit = decimal (n + 1) := by
        rw [List.takeWhile_append_of_pos fun b => decimal_isDigit]
        cases rest with
        | nil => simp
        | cons r rs => simp [stop r (by simp)]
      simp only [decimalInt, atol, List.cons_append, List.dropWhile_cons, minus,
        Bool.false_eq_true, if_false, if_true, digits, digitsValue_decimal, clampLong]
      omega

/-- `atol` reads a numeral with its sign back. -/
theorem atol_decimalInt {v : Int} (low : -(2 ^ 63) ≤ v) (high : v < 2 ^ 63)
    : atol (decimalInt v) = v := by
  simpa using atol_decimalInt_append [] low high (by simp)

/-- A numeral with its sign is not empty. -/
theorem decimalInt_ne_nil (v : Int) : decimalInt v ≠ [] := by
  cases v with
  | ofNat n => exact decimal_ne_nil n
  | negSucc n => simp [decimalInt]

/-- The text of a number and its sign. -/
theorem decimalInt_length_le {v : Int} (width : Nat) (pos : 0 < width)
    (low : -(10 ^ width) < v) (high : v < 10 ^ width)
    : (decimalInt v).length ≤ width + 1 := by
  cases v with
  | ofNat n =>
      have fits : n < 10 ^ width := by
        have : ((n : Nat) : Int) < ((10 ^ width : Nat) : Int) := by push_cast; exact high
        omega
      exact Nat.le_succ_of_le (decimal_length_le pos fits)
  | negSucc n =>
      have fits : n + 1 < 10 ^ width := by
        have : ((n + 1 : Nat) : Int) < ((10 ^ width : Nat) : Int) := by
          push_cast
          have := Int.negSucc_eq n
          omega
        omega
      have := decimal_length_le pos fits
      simp only [decimalInt, List.length_cons]
      omega

/-- A larger number has no shorter text. -/
theorem decimal_length_mono {m n : Nat} (le : m ≤ n) : (decimal m).length ≤ (decimal n).length := by
  have pos : 0 < (decimal n).length := List.length_pos_iff.mpr (decimal_ne_nil n)
  apply decimal_length_le pos
  refine lt_of_le_of_lt le ?_
  have length : (Nat.toDigits 10 n).length ≤ (decimal n).length := by simp [decimal]
  exact (Nat.length_toDigits_le_iff (by omega) pos).mp length

/-- Different numbers have different numerals. -/
theorem decimalInt_inj {v w : Int} (hv : -(2 ^ 63) ≤ v ∧ v < 2 ^ 63)
    (hw : -(2 ^ 63) ≤ w ∧ w < 2 ^ 63) (same : decimalInt v = decimalInt w)
    : v = w := by
  rw [← atol_decimalInt hv.1 hv.2, same, atol_decimalInt hw.1 hw.2]

end Minions.Data
