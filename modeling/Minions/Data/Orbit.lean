import Mathlib.Data.Finset.Card
import Mathlib.Combinatorics.Pigeonhole

/-! Following a partial function.
A walk that can only go on from finitely many places either stops or comes back to a place
where it has been.
-/

namespace Minions.Data

variable {α : Type}

/-- Where `n` steps lead, if the walk has not stopped before. -/
def orbit (f : α → Option α) : Nat → α → Option α
  | 0, a => some a
  | n + 1, a => (f a).bind (orbit f n)

/-- The walk comes to some place twice. -/
def ComesBack (f : α → Option α) (a : α) : Prop :=
  ∃ i j b, i < j ∧ orbit f i a = some b ∧ orbit f j a = some b

variable {f : α → Option α} {a b : α}

/-- An orbit of several steps is followed in two parts. -/
theorem orbit_add (m n : Nat) (a : α)
    : orbit f (m + n) a = (orbit f m a).bind (orbit f n) := by
  induction m generalizing a with
  | zero => simp [orbit]
  | succ m ih =>
      rw [Nat.add_right_comm]
      simp only [orbit, Option.bind_assoc]
      exact Option.bind_congr fun b _ => ih b

/-- A walk that has not stopped after some steps has not stopped before. -/
theorem orbit_isSome_of_le {m n : Nat} (le : m ≤ n) (going : (orbit f n a).isSome)
    : (orbit f m a).isSome := by
  obtain ⟨k, rfl⟩ := Nat.exists_eq_add_of_le le
  rw [orbit_add] at going
  exact Option.isSome_of_isSome_bind going

/-- Where a walk goes on, its function has a value. -/
theorem isSome_of_orbit_succ {n : Nat} (here : orbit f n a = some b)
    (going : (orbit f (n + 1) a).isSome)
    : (f b).isSome := by
  rw [orbit_add, here] at going
  exact Option.isSome_of_isSome_bind going

/-- Some number of steps leads from one place to another. -/
def Leads (f : α → Option α) (a b : α) : Prop := ∃ n, orbit f n a = some b

/-- Every point leads to itself. -/
theorem Leads.refl (f : α → Option α) (a : α) : Leads f a a := ⟨0, rfl⟩

/-- A step in front of a path. -/
theorem Leads.step {c : α} (first : f a = some b) (rest : Leads f b c) : Leads f a c := by
  obtain ⟨n, rest⟩ := rest
  exact ⟨n + 1, by rw [orbit, first, Option.bind_some, rest]⟩

/-- What holds where a walk starts, and is kept by its steps, holds wherever it leads. -/
theorem Leads.invariant {P : α → Prop} (leads : Leads f a b) (start : P a)
    (keeps : ∀ a b, f a = some b → P a → P b)
    : P b := by
  obtain ⟨n, leads⟩ := leads
  induction n generalizing a with
  | zero =>
      cases leads
      exact start
  | succ n ih =>
      obtain ⟨next, first, rest⟩ := Option.bind_eq_some_iff.mp leads
      exact ih (keeps a next first start) rest

/-- Wherever a walk leads, it still leads to the place where it stops. -/
theorem Leads.to_stop {c : α} (toB : Leads f a b) (toC : Leads f a c) (stop : f c = none)
    : Leads f b c := by
  obtain ⟨n, toB⟩ := toB
  induction n generalizing a with
  | zero =>
      cases toB
      exact toC
  | succ n ih =>
      obtain ⟨next, first, rest⟩ := Option.bind_eq_some_iff.mp toB
      obtain ⟨_ | m, toC⟩ := toC
      · cases toC
        rw [stop] at first
        cases first
      · rw [orbit, first] at toC
        exact ih ⟨m, toC⟩ rest

/-- A walk leads to one place only from which it does not go on. -/
theorem Leads.stop_unique {c : α} (toB : Leads f a b) (toC : Leads f a c) (stopB : f b = none)
    (stopC : f c = none)
    : b = c := by
  obtain ⟨_ | n, rest⟩ := toB.to_stop toC stopC
  · exact Option.some.inj rest
  · rw [orbit, stopB] at rest
    cases rest

/-- A walk that goes down in a well-founded order as long as it goes on stops. -/
theorem exists_stop {r : α → α → Prop} (wf : WellFounded r)
    (down : ∀ b, Leads f a b → ∀ c, f b = some c → r c b)
    : ∃ b, Leads f a b ∧ f b = none := by
  induction a using wf.induction with
  | h a ih =>
      cases first : f a with
      | none => exact ⟨a, .refl f a, first⟩
      | some next =>
          obtain ⟨b, leads, stop⟩ := ih next (down a (.refl f a) next first)
            fun b leads => down b (leads.step first)
          exact ⟨b, leads.step first, stop⟩

/-- A walk never stops in places from which it goes on to such a place. -/
theorem orbit_isSome_of_invariant {P : α → Prop} (start : P a)
    (goes : ∀ a, P a → ∃ b, f a = some b ∧ P b) (n : Nat)
    : (orbit f n a).isSome := by
  induction n generalizing a with
  | zero => rfl
  | succ n ih =>
      obtain ⟨b, first, kept⟩ := goes a start
      rw [orbit, first]
      exact ih kept

/-- A walk around a circle never stops. -/
theorem orbit_mul {d : Nat} (around : orbit f d a = some a) (k : Nat)
    : orbit f (k * d) a = some a := by
  induction k with
  | zero => simp [orbit]
  | succ k ih => rw [Nat.succ_mul, orbit_add, ih, Option.bind_some, around]

/-- A walk that comes back never stops. -/
theorem ComesBack.isSome (back : ComesBack f a) (n : Nat) : (orbit f n a).isSome := by
  obtain ⟨i, j, b, lt, first, again⟩ := back
  have around : orbit f (j - i) b = some b := by
    rw [← Nat.add_sub_cancel' lt.le, orbit_add, first] at again
    exact again
  have far : orbit f (i + n * (j - i)) a = some b := by
    rw [orbit_add, first, Option.bind_some, orbit_mul around]
  apply orbit_isSome_of_le (n := i + n * (j - i))
  · exact le_trans (Nat.le_mul_of_pos_right n (by omega)) (Nat.le_add_left _ _)
  · simp [far]

/-- A walk that has gone on from more places than there are has come back. -/
theorem comesBack_of_card {places : Finset α} (bounded : ∀ a, (f a).isSome → a ∈ places)
    (going : (orbit f (places.card + 1) a).isSome)
    : ComesBack f a := by
  classical
  have reached : ∀ n ≤ places.card, ∃ b ∈ places, orbit f n a = some b := by
    intro n le
    obtain ⟨b, here⟩ := Option.isSome_iff_exists.mp
      (orbit_isSome_of_le (Nat.le_succ_of_le le) going)
    refine ⟨b, bounded b (isSome_of_orbit_succ here ?_), here⟩
    exact orbit_isSome_of_le (Nat.succ_le_succ le) going
  have : Nonempty α := ⟨a⟩
  choose! place inside here using reached
  obtain ⟨i, hi, j, hj, ne, same⟩ :=
    Finset.exists_ne_map_eq_of_card_lt_of_maps_to (s := Finset.range (places.card + 1))
      (t := places) (f := place) (by simp)
      fun n hn => inside n (Nat.lt_succ_iff.mp (Finset.mem_range.mp hn))
  have fst := here i (Nat.lt_succ_iff.mp (Finset.mem_range.mp hi))
  have snd := here j (Nat.lt_succ_iff.mp (Finset.mem_range.mp hj))
  rcases Nat.lt_or_gt_of_ne ne with lt | gt
  · exact ⟨i, j, _, lt, fst, same ▸ snd⟩
  · exact ⟨j, i, _, gt, snd, same ▸ fst⟩

end Minions.Data
