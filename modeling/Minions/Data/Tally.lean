import Mathlib.Data.Fintype.Card

/-! Tables: how many members have a property and how one update changes the number, and members
that are told apart by a key.
-/

namespace Minions.Data

variable {ι α : Type} [Fintype ι]

/-- The number of indices whose value has the property. -/
def tally (p : α → Bool) (f : ι → α) : Nat := (Finset.univ.filter fun i => p (f i)).card

/-- An update takes the old value out of the number and the new one into it. -/
theorem tally_update [DecidableEq ι] (p : α → Bool) (f : ι → α) (i : ι) (x : α)
    : tally p (Function.update f i x) + (p (f i)).toNat = tally p f + (p x).toNat := by
  have split : ∀ g : ι → α, tally p g
      = ((Finset.univ.erase i).filter fun j => p (g j)).card + (p (g i)).toNat := by
    intro g
    unfold tally
    rw [← Finset.insert_erase (Finset.mem_univ i), Finset.filter_insert]
    cases p (g i) <;> simp
  have others : ((Finset.univ.erase i).filter fun j => p (Function.update f i x j))
      = ((Finset.univ.erase i).filter fun j => p (f j)) := by
    apply Finset.filter_congr
    intro j hj
    rw [Function.update_of_ne (Finset.ne_of_mem_erase hj)]
  rw [split (Function.update f i x), split f, others, Function.update_self]
  omega

/-- The same as a difference. -/
theorem tally_update_int [DecidableEq ι] (p : α → Bool) (f : ι → α) (i : ι) (x : α)
    : (tally p (Function.update f i x) : Int)
      = tally p f - (p (f i)).toNat + (p x).toNat := by
  have := tally_update p f i x
  omega

/-- An update that does not change who has the property keeps the number. -/
theorem tally_update_same [DecidableEq ι] {p : α → Bool} {f : ι → α} {i : ι} {x : α}
    (same : p x = p (f i))
    : tally p (Function.update f i x) = tally p f := by
  have := tally_update p f i x
  rw [same] at this
  omega

/-- Some index has the property exactly where the number is not 0. -/
theorem tally_pos_iff {p : α → Bool} {f : ι → α}
    : 0 < tally p f ↔ ∃ i, p (f i) := by
  simp [tally, Finset.card_pos, Finset.filter_nonempty_iff]

/-- Two members with the property are the same where there is at most one. -/
theorem eq_of_tally_le_one {p : α → Bool} {f : ι → α} (one : tally p f ≤ 1) {i j : ι}
    (first : p (f i)) (second : p (f j))
    : i = j :=
  Finset.card_le_one.mp one i (by simpa using first) j (by simpa using second)

/-- A tally is at most the number of members. -/
theorem tally_le_card {p : α → Bool} {f : ι → α} : tally p f ≤ Fintype.card ι :=
  Finset.card_filter_le _ _

/-- More members have a weaker property. -/
theorem tally_mono {p q : α → Bool} {f : ι → α} (weaker : ∀ i, p (f i) → q (f i))
    : tally p f ≤ tally q f := by
  refine Finset.card_le_card fun i member => ?_
  simp only [Finset.mem_filter, Finset.mem_univ, true_and] at member ⊢
  exact weaker i member

/-- Strictly more, where some member has only the weaker one. -/
theorem tally_lt {p q : α → Bool} {f : ι → α} (weaker : ∀ i, p (f i) → q (f i)) {i : ι}
    (only : q (f i)) (not : ¬ p (f i))
    : tally p f < tally q f := by
  refine Finset.card_lt_card (Finset.ssubset_iff_of_subset ?_ |>.mpr ⟨i, ?_, ?_⟩)
  · intro j member
    simp only [Finset.mem_filter, Finset.mem_univ, true_and] at member ⊢
    exact weaker j member
  · simpa using only
  · simpa using not

/-- The members with the property have different keys. -/
def KeysApart {κ : Type} (p : α → Bool) (key : α → κ) (f : ι → α) : Prop :=
  ∀ i j, p (f i) → p (f j) → key (f i) = key (f j) → i = j

omit [Fintype ι] in
/-- Keys stay apart where the new member shares none with another. -/
theorem KeysApart.update [DecidableEq ι] {κ : Type} {p : α → Bool} {key : α → κ} {f : ι → α}
    (h : KeysApart p key f) {i : ι} {x : α}
    (new : ∀ j, j ≠ i → p x → p (f j) → key (f j) ≠ key x)
    : KeysApart p key (Function.update f i x) := by
  intro j k hj hk same
  by_cases first : j = i <;> by_cases second : k = i
  · rw [first, second]
  · subst first
    simp only [Function.update_self, Function.update_of_ne second] at hj hk same
    exact absurd same.symm (new k second hj hk)
  · subst second
    simp only [Function.update_self, Function.update_of_ne first] at hj hk same
    exact absurd same (new j first hk hj)
  · simp only [Function.update_of_ne first, Function.update_of_ne second] at hj hk same
    exact h j k hj hk same

end Minions.Data
