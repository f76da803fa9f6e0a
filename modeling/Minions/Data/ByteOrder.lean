import Mathlib.Tactic.Ring
import Minions.Data.Decimal

/-! 16-bit numbers and their two bytes in memory, for either order of the bytes. -/

namespace Minions.Data

/-- Which byte of a number stands first in memory. -/
inductive Endian where
  | little
  | big
deriving DecidableEq

/-- The 16-bit number whose bytes in memory are `first` and `second`. -/
def Endian.word : Endian → Byte → Byte → Nat
  | .little, first, second => first.toNat + 256 * second.toNat
  | .big, first, second => 256 * first.toNat + second.toNat

/-- The number of any size whose bytes in memory are given. -/
def Endian.number : Endian → List Byte → Nat
  | .little, bytes => bytes.foldr (fun b n => b.toNat + 256 * n) 0
  | .big, bytes => bytes.foldl (fun n b => 256 * n + b.toNat) 0

/-- The two bytes of a 16-bit number in memory. -/
def Endian.bytes : Endian → Nat → List Byte
  | .little, n => [UInt8.ofNat n, UInt8.ofNat (n / 256)]
  | .big, n => [UInt8.ofNat (n / 256), UInt8.ofNat n]

/-- Conversion to `uint16_t`. -/
def toUint16 (v : Int) : Nat := (v % 65536).toNat

/-- The number that is stored in memory with the high byte of `n` first. -/
def Endian.htons (e : Endian) (n : Nat) : Nat :=
  e.word (UInt8.ofNat (n / 256)) (UInt8.ofNat n)

/-- The number whose high byte is the first that `n` has in memory. -/
def Endian.ntohs (e : Endian) (n : Nat) : Nat :=
  match e.bytes n with
  | [first, second] => 256 * first.toNat + second.toNat
  | _ => 0

/-- Two bytes make a word of 16 bits. -/
theorem Endian.word_lt (e : Endian) (first second : Byte) : e.word first second < 65536 := by
  have := first.toNat_lt
  have := second.toNat_lt
  cases e <;> simp only [Endian.word] <;> omega

/-- `htons` gives a word of 16 bits. -/
theorem Endian.htons_lt (e : Endian) (n : Nat) : e.htons n < 65536 := e.word_lt _ _

/-- A word has two bytes. -/
@[simp]
theorem Endian.bytes_length (e : Endian) (n : Nat) : (e.bytes n).length = 2 := by
  cases e <;> rfl

/-- A number of 16 bits is kept. -/
theorem toUint16_natCast {n : Nat} (small : n < 65536) : toUint16 n = n := by
  simp only [toUint16]
  omega

/-- Network order and back. -/
theorem Endian.ntohs_htons (e : Endian) {n : Nat} (small : n < 65536)
    : e.ntohs (e.htons n) = n := by
  have high : n / 256 % 256 = n / 256 := Nat.mod_eq_of_lt (by omega)
  cases e with
  | little =>
      have low : (n / 256 + 256 * (n % 256)) / 256 = n % 256 := by omega
      simp only [Endian.ntohs, Endian.htons, Endian.bytes, Endian.word, UInt8.toNat_ofNat',
        Nat.reducePow, high, low]
      omega
  | big =>
      have low : (256 * (n / 256) + n % 256) / 256 = n / 256 := by omega
      simp only [Endian.ntohs, Endian.htons, Endian.bytes, Endian.word, UInt8.toNat_ofNat',
        Nat.reducePow, high, low]
      omega

/-- `ntohs` gives a word of 16 bits. -/
theorem Endian.ntohs_lt (e : Endian) (n : Nat) : e.ntohs n < 65536 := by
  have bound : ∀ first second : Byte, 256 * first.toNat + second.toNat < 65536 := by
    intro first second
    have := first.toNat_lt
    have := second.toNat_lt
    omega
  cases e with
  | little => exact bound _ _
  | big => exact bound _ _

/-- Host order and back. -/
theorem Endian.htons_ntohs (e : Endian) {n : Nat} (small : n < 65536)
    : e.htons (e.ntohs n) = n := by
  have high : n / 256 % 256 = n / 256 := Nat.mod_eq_of_lt (by omega)
  cases e with
  | little =>
      have low : (256 * (n % 256) + n / 256) / 256 = n % 256 := by omega
      simp only [Endian.ntohs, Endian.htons, Endian.bytes, Endian.word, UInt8.toNat_ofNat',
        Nat.reducePow, high, low]
      omega
  | big =>
      have low : (256 * (n / 256) + n % 256) / 256 = n / 256 := by omega
      simp only [Endian.ntohs, Endian.htons, Endian.bytes, Endian.word, UInt8.toNat_ofNat',
        Nat.reducePow, high, low]
      omega

/-- The bytes of a number make up the number. -/
theorem Endian.word_bytes (e : Endian) {n : Nat} (small : n < 65536) {first second : Byte}
    (bytes : e.bytes n = [first, second])
    : e.word first second = n := by
  cases e <;>
    simp only [Endian.bytes, List.cons.injEq, and_true] at bytes <;>
    obtain ⟨rfl, rfl⟩ := bytes <;>
    simp only [Endian.word, UInt8.toNat_ofNat', Nat.reducePow] <;>
    omega

end Minions.Data
