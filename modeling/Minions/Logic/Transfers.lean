import Mathlib.Algebra.GroupWithZero.Nat
import Mathlib.Data.List.Basic

/-! Transfers of a full count by calls that transfer parts of it.
A call is asked for a number of bytes at a place. It returns how many it has moved, or a negative
number, and the caller goes on behind what was moved as long as something is.
-/

namespace Minions.Logic

variable {σ : Type}

/-- What the calls return, from the first to the one after which nothing is left or which moves
nothing, and the state behind them.
-/
def moveAll (call : Nat → Nat → σ → Int × σ) (ptr nleft : Nat) (s : σ) : List Int × σ :=
  if 0 < nleft then
    match call ptr nleft s with
    | (r, s') =>
        if 0 < r then
          let rest := moveAll call (ptr + r.toNat) (nleft - r.toNat) s'
          (r :: rest.1, rest.2)
        else ([r], s')
  else ([], s)
termination_by nleft
decreasing_by omega

/-- The number of bytes moved by calls that return these results. -/
def total (results : List Int) : Nat := (results.map Int.toNat).sum

/-- No call moves more than it is asked for. -/
def Bounded (call : Nat → Nat → σ → Int × σ) : Prop :=
  ∀ {ptr nbytes s r s'}, call ptr nbytes s = (r, s') → r ≤ nbytes

/-- A call moves as many further bytes as it returns; `Moved k s` says that the first `k` of `n`
bytes from `ptr` on have been moved.
-/
def Moves (call : Nat → Nat → σ → Int × σ) (ptr n : Nat) (Moved : Nat → σ → Prop) : Prop :=
  ∀ {k s r s'}, k < n → call (ptr + k) (n - k) s = (r, s') → Moved k s → Moved (k + r.toNat) s'

variable {call : Nat → Nat → σ → Int × σ} {ptr n k nleft : Nat} {s s' : σ} {r : Int}
  {Moved : Nat → σ → Prop}

/-- Nothing is left to move. -/
theorem moveAll_zero : moveAll call ptr 0 s = ([], s) := by
  rw [moveAll, if_neg (Nat.lt_irrefl 0)]

/-- The call that moves nothing is the last. -/
theorem moveAll_last (more : 0 < nleft) (answer : call ptr nleft s = (r, s')) (last : r ≤ 0)
    : moveAll call ptr nleft s = ([r], s') := by
  rw [moveAll, if_pos more, answer]
  exact if_neg (Int.not_lt.mpr last)

/-- A call that moves something is followed by the calls for the rest. -/
theorem moveAll_again (more : 0 < nleft) (answer : call ptr nleft s = (r, s')) (again : 0 < r)
    : moveAll call ptr nleft s
      = (r :: (moveAll call (ptr + r.toNat) (nleft - r.toNat) s').1,
        (moveAll call (ptr + r.toNat) (nleft - r.toNat) s').2) := by
  rw [moveAll, if_pos more, answer]
  exact if_pos again

/-- No calls move nothing. -/
@[simp]
theorem total_nil : total [] = 0 := rfl

/-- The first call moves its result. -/
@[simp]
theorem total_cons (r : Int) (results : List Int)
    : total (r :: results) = r.toNat + total results := rfl

/-- A first call that fails is the only one. -/
theorem total_of_failed (failed : ∃ r ∈ (moveAll call ptr nleft s).1.head?, r < 0)
    : total (moveAll call ptr nleft s).1 = 0 := by
  obtain ⟨first, member, negative⟩ := failed
  rcases Nat.eq_zero_or_pos nleft with rfl | more
  · rw [moveAll_zero, total_nil]
  · rcases answer : call ptr nleft s with ⟨r, s'⟩
    by_cases again : 0 < r
    · rw [moveAll_again more answer again] at member
      obtain rfl := Option.some.inj member
      omega
    · rw [moveAll_last more answer (Int.not_lt.mp again), total_cons, total_nil]
      omega

/-- Together the calls move a front of what was asked for, and less than all only where the last
one has moved nothing. Witness: strong induction on what is left.
-/
theorem Moves.moveAll (moves : Moves call ptr n Moved) (bounded : Bounded call) (le : k ≤ n)
    (start : Moved k s)
    : Moved (k + total (moveAll call (ptr + k) (n - k) s).1) (moveAll call (ptr + k) (n - k) s).2
      ∧ k + total (moveAll call (ptr + k) (n - k) s).1 ≤ n
      ∧ (k + total (moveAll call (ptr + k) (n - k) s).1 < n
        → ∃ r ∈ (moveAll call (ptr + k) (n - k) s).1.getLast?, r ≤ 0) := by
  induction left : n - k using Nat.strongRecOn generalizing k s with
  | ind nleft ih =>
      subst left
      rcases Nat.eq_zero_or_pos (n - k) with none | more
      · rw [none, moveAll_zero]
        exact ⟨start, le, fun less => absurd less (by simp only [total_nil]; omega)⟩
      rcases answer : call (ptr + k) (n - k) s with ⟨r, s'⟩
      have next := moves (by omega) answer start
      have inside := bounded answer
      by_cases again : 0 < r
      · rw [moveAll_again more answer again, total_cons, Nat.add_assoc ptr, Nat.sub_sub,
          ← Nat.add_assoc k]
        obtain ⟨moved, within, last⟩ := ih (n - (k + r.toNat)) (by omega) (by omega) next rfl
        refine ⟨moved, within, fun less => ?_⟩
        obtain ⟨r', final, small⟩ := last less
        exact ⟨r', by rw [List.getLast?_cons, Option.mem_def.mp final]; rfl, small⟩
      · have last := Int.not_lt.mp again
        have nothing : r.toNat = 0 := by omega
        rw [nothing] at next
        rw [moveAll_last more answer last, total_cons, total_nil, nothing]
        exact ⟨next, le, fun _ => ⟨r, rfl, last⟩⟩

/-- Calls that stay in bounds move no more than they were asked for. -/
theorem total_le (bounded : Bounded call) : total (moveAll call ptr n s).1 ≤ n := by
  have always : Moves call ptr n fun _ _ => True := fun _ _ _ => trivial
  simpa using (always.moveAll bounded (Nat.zero_le n) trivial).2.1

end Minions.Logic
