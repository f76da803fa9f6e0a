import Mathlib.Data.List.Basic

/-! Staging buffers: values enter behind one position and leave from another, and both go back
to the start when the buffer is empty.
-/

namespace Minions.Data

variable {α : Type}

/-- The cells of a buffer and the two positions in it. -/
structure Staging (α : Type) where
  cells : List α
  iptr : Nat
  optr : Nat

namespace Staging

/-- The values that have entered and not left, in order. -/
def pending (b : Staging α) : List α := (b.cells.take b.iptr).drop b.optr

/-- Values enter at `iptr`, over what the cells held. -/
def fill (b : Staging α) (values : List α) : Staging α :=
  { b with
    cells := b.cells.take b.iptr ++ values ++ b.cells.drop (b.iptr + values.length)
    iptr := b.iptr + values.length }

/-- The first `n` pending values leave. -/
def drain (b : Staging α) (n : Nat) : Staging α :=
  let b := { b with optr := b.optr + n }
  if b.optr = b.iptr then { b with iptr := 0, optr := 0 } else b

/-- The positions are in order and inside a buffer of the size. -/
structure Fits (b : Staging α) (size : Nat) : Prop where
  cells : b.cells.length = size
  order : b.optr ≤ b.iptr
  inside : b.iptr ≤ size

variable {b : Staging α} {size n : Nat} {values : List α}

/-- Nothing is pending exactly where the positions meet. -/
theorem Fits.pending_eq_nil_iff (fits : b.Fits size)
    : b.pending = [] ↔ b.optr = b.iptr := by
  have cells := fits.cells
  have inside := fits.inside
  have order := fits.order
  rw [pending, List.drop_eq_nil_iff, List.length_take]
  omega

/-- The pending bytes lie between the two pointers. -/
theorem Fits.length_pending (fits : b.Fits size)
    : b.pending.length = b.iptr - b.optr := by
  have cells := fits.cells
  have inside := fits.inside
  rw [pending, List.length_drop, List.length_take]
  omega

/-- Values for which there is room fit. -/
theorem Fits.fill (fits : b.Fits size) (room : values.length ≤ size - b.iptr)
    : (b.fill values).Fits size := by
  have cells := fits.cells
  have inside := fits.inside
  have order := fits.order
  unfold Staging.fill
  constructor
  case cells =>
    simp only [List.length_append, List.length_take, List.length_drop]
    omega
  case order =>
    show b.optr ≤ b.iptr + values.length
    omega
  case inside =>
    show b.iptr + values.length ≤ size
    omega

/-- What enters is pending behind the rest. -/
theorem Fits.pending_fill (fits : b.Fits size)
    : (b.fill values).pending = b.pending ++ values := by
  have cells := fits.cells
  have inside := fits.inside
  have order := fits.order
  have first : (b.cells.take b.iptr).length = b.iptr := by
    rw [List.length_take]
    omega
  have entered : (b.cells.take b.iptr ++ values ++ b.cells.drop (b.iptr + values.length)).take
      (b.iptr + values.length) = b.cells.take b.iptr ++ values := by
    apply List.take_left'
    rw [List.length_append, first]
  unfold pending Staging.fill
  dsimp only
  rw [entered, List.drop_append_of_le_length (by omega)]

/-- A buffer that is drained still fits. -/
theorem Fits.drain (fits : b.Fits size) (few : n ≤ b.pending.length)
    : (b.drain n).Fits size := by
  have inside := fits.inside
  have order := fits.order
  have count := fits.length_pending
  unfold Staging.drain
  dsimp only
  split
  · exact ⟨fits.cells, Nat.le_refl 0, Nat.zero_le size⟩
  · exact ⟨fits.cells, show b.optr + n ≤ b.iptr by omega, inside⟩

/-- What leaves is the start of what was pending. -/
theorem Fits.pending_drain (fits : b.Fits size) (n : Nat)
    : b.pending = b.pending.take n ++ (b.drain n).pending := by
  have order := fits.order
  have count := fits.length_pending
  have rest : (b.drain n).pending = b.pending.drop n := by
    unfold Staging.drain
    dsimp only
    split
    · next met =>
        have all : b.pending.drop n = [] := List.drop_eq_nil_of_le (by omega)
        rw [all]
        simp [pending]
    · simp [pending, Nat.add_comm]
  rw [rest, List.take_append_drop]

end Staging

end Minions.Data
