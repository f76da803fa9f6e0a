import Mathlib.Data.List.Basic
import Mathlib.Logic.Function.Basic

/-! Singly linked lists threaded through numbered cells.
`next a` is the content of the cell at address `a`, if there is one; the content 0 ends a
list. A list is entered through the cell that holds the address of its first element.
-/

namespace Minions.Data

/-- The list entered at cell `a` visits `l` and ends. -/
def Linked (next : Nat → Option Nat) : Nat → List Nat → Prop
  | a, [] => next a = some 0
  | a, o :: rest => next a = some o ∧ o ≠ 0 ∧ Linked next o rest

/-- The cell that follows the visited elements: the last of them, or the entry. -/
def lastCell : Nat → List Nat → Nat
  | a, [] => a
  | _, o :: rest => lastCell o rest

variable {next next' : Nat → Option Nat} {a o : Nat} {l l₁ l₂ : List Nat}

/-- The last cell of two parts is that of the second. -/
theorem lastCell_append (a : Nat) (l₁ l₂ : List Nat)
    : lastCell a (l₁ ++ l₂) = lastCell (lastCell a l₁) l₂ := by
  induction l₁ generalizing a with
  | nil => rfl
  | cons o rest ih => exact ih o

/-- The last cell is the first pointer or a cell of the list. -/
theorem lastCell_mem (a : Nat) (l : List Nat) : lastCell a l = a ∨ lastCell a l ∈ l := by
  induction l generalizing a with
  | nil => exact Or.inl rfl
  | cons o rest ih =>
      rcases ih o with same | member
      · exact Or.inr (by simp [lastCell, same])
      · exact Or.inr (by simp [lastCell, member])

/-- A cell outside the list is not its last one. -/
theorem lastCell_ne (outside : a ∉ o :: l) : a ≠ lastCell o l := by
  intro eq
  rcases lastCell_mem o l with last | last
  · exact outside (by simp [eq, last])
  · exact outside (by simp [eq, last])

/-- A list depends only on its cells. -/
theorem Linked.congr (h : Linked next a l) (same : ∀ b ∈ a :: l, next' b = next b)
    : Linked next' a l := by
  induction l generalizing a with
  | nil => exact (same a (by simp)).trans h
  | cons o rest ih =>
      obtain ⟨first, nonzero, tail⟩ := h
      exact ⟨(same a (by simp)).trans first, nonzero, ih tail fun b hb => same b (by simp_all)⟩

/-- Walking past a front part continues the list. -/
theorem Linked.drop (h : Linked next a (l₁ ++ l₂)) : Linked next (lastCell a l₁) l₂ := by
  induction l₁ generalizing a with
  | nil => exact h
  | cons o rest ih => exact ih h.2.2

/-- Every visited element is a nonzero address. -/
theorem Linked.ne_zero (h : Linked next a l) (member : o ∈ l) : o ≠ 0 := by
  induction l generalizing a with
  | nil => simp at member
  | cons x rest ih =>
      rcases List.mem_cons.mp member with rfl | later
      · exact h.2.1
      · exact ih h.2.2 later

/-- Every cell on the way exists. -/
theorem Linked.isSome (h : Linked next a l) {b : Nat} (member : b ∈ a :: l)
    : (next b).isSome := by
  induction l generalizing a with
  | nil =>
      obtain rfl : b = a := by simpa using member
      simp [show next b = some 0 from h]
  | cons x rest ih =>
      rcases List.mem_cons.mp member with rfl | later
      · simp [h.1]
      · exact ih h.2.2 later

/-- The entry determines the list. -/
theorem Linked.unique {l' : List Nat} (h : Linked next a l) (h' : Linked next a l')
    : l = l' := by
  induction l generalizing a l' with
  | nil =>
      cases l' with
      | nil => rfl
      | cons o rest =>
          have same : some 0 = some o := (show next a = some 0 from h).symm.trans h'.1
          exact absurd (Option.some.inj same).symm h'.2.1
  | cons x rest ih =>
      cases l' with
      | nil =>
          have same : some 0 = some x := (show next a = some 0 from h').symm.trans h.1
          exact absurd (Option.some.inj same).symm h.2.1
      | cons o rest' =>
          obtain rfl : x = o := Option.some.inj (h.1.symm.trans h'.1)
          rw [ih h.2.2 h'.2.2]

/-- A list that ends does not return to its entry. -/
theorem Linked.not_mem (h : Linked next a l) : a ∉ l := by
  intro member
  obtain ⟨before, after, rfl⟩ := List.append_of_mem member
  have again : Linked next a after := by
    have split : Linked next a ((before ++ [a]) ++ after) := by simpa using h
    simpa [lastCell_append, lastCell] using split.drop
  have length := congrArg List.length (h.unique again)
  simp at length
  omega

/-- A list that ends visits no element twice. -/
theorem Linked.nodup (h : Linked next a l) : (a :: l).Nodup := by
  induction l generalizing a with
  | nil => simp
  | cons x rest ih => exact List.nodup_cons.mpr ⟨h.not_mem, ih h.2.2⟩

/-- The entry holds the first element, or 0. -/
theorem Linked.next_entry (h : Linked next a l) : next a = some (l.headD 0) := by
  cases l with
  | nil => exact h
  | cons o rest => exact h.1

/-- What the cell of an element holds is another element, or 0. -/
theorem Linked.next_mem {x : Nat} (h : Linked next a l) (member : o ∈ l) (holds : next o = some x)
    : x = 0 ∨ x ∈ l := by
  obtain ⟨front, back, rfl⟩ := List.append_of_mem member
  have path : Linked next a ((front ++ [o]) ++ back) := by simpa using h
  have entry := path.drop.next_entry
  rw [lastCell_append] at entry
  cases holds.symm.trans entry
  cases back with
  | nil => exact .inl rfl
  | cons y rest => exact .inr (by simp)

/-- The part of a list behind its front may be replaced by another list. -/
theorem Linked.replace {l₂' : List Nat} (h : Linked next a (l₁ ++ l₂))
    (back : Linked next' (lastCell a l₁) l₂')
    (same : ∀ b ∈ a :: l₁, b ≠ lastCell a l₁ → next' b = next b)
    : Linked next' a (l₁ ++ l₂') := by
  induction l₁ generalizing a with
  | nil => exact back
  | cons x rest ih =>
      have outside : a ∉ x :: rest := fun member => h.not_mem (List.mem_append_left _ member)
      have notLast : a ≠ lastCell x rest := lastCell_ne outside
      refine ⟨(same a (by simp) notLast).trans h.1, h.2.1, ih h.2.2 back ?_⟩
      exact fun b member => same b (List.mem_cons_of_mem _ member)

/-- Putting a fresh element at the front: its cell holds the old first element and the
entry holds its address.
-/
theorem Linked.push (h : Linked next a l) (fresh : o ∉ a :: l) (nonzero : o ≠ 0)
    (front : next' a = some o) (link : next' o = next a)
    (same : ∀ b ∈ l, next' b = next b)
    : Linked next' a (o :: l) := by
  refine ⟨front, nonzero, ?_⟩
  cases l with
  | nil => exact link.trans h
  | cons x rest =>
      exact ⟨link.trans h.1, h.2.1, h.2.2.congr fun b hb => same b hb⟩

/-- Putting a fresh element at the end: the last cell holds its address. -/
theorem Linked.snoc (h : Linked next a l) (fresh : o ∉ a :: l) (nonzero : o ≠ 0)
    (link : next' (lastCell a l) = some o) (last : next' o = some 0)
    (same : ∀ b ∈ a :: l, b ≠ lastCell a l → next' b = next b)
    : Linked next' a (l ++ [o]) := by
  induction l generalizing a with
  | nil => exact ⟨link, nonzero, last⟩
  | cons x rest ih =>
      have notLast : a ≠ lastCell x rest := lastCell_ne h.not_mem
      refine ⟨(same a (by simp) notLast).trans h.1, h.2.1, ?_⟩
      exact ih h.2.2 (fun member => fresh (List.mem_cons_of_mem _ member)) link
        fun b member => same b (List.mem_cons_of_mem _ member)

/-- Taking an element out: the cell before it receives what its own cell held. The cell
of the element itself may hold anything meanwhile.
-/
theorem Linked.unlink {v : Option Nat}
    (h : Linked (Function.update next o v) a (l₁ ++ o :: l₂))
    (link : next' (lastCell a l₁) = v)
    (same : ∀ b ∈ a :: l₁ ++ l₂, b ≠ lastCell a l₁ → next' b = next b)
    : Linked next' a (l₁ ++ l₂) := by
  induction l₁ generalizing a with
  | nil =>
      have tail : Linked (Function.update next o v) o l₂ := h.2.2
      have outside : o ∉ l₂ := tail.not_mem
      have entry : a ∉ l₂ := fun member => h.not_mem (by simp [member])
      have back : ∀ b ∈ l₂, next' b = Function.update next o v b := by
        intro b member
        have differs : b ≠ o := fun eq => outside (eq ▸ member)
        rw [Function.update_of_ne differs]
        have notEntry : b ≠ a := fun eq => entry (eq ▸ member)
        exact same b (by simp [member]) notEntry
      cases l₂ with
      | nil =>
          have last : Function.update next o v o = some 0 := tail
          have stored : v = some 0 := by simpa using last
          exact link.trans stored
      | cons x rest =>
          have stored : v = some x := by simpa using tail.1
          exact ⟨link.trans stored, tail.2.1, tail.2.2.congr back⟩
  | cons x rest ih =>
      have entry : a ∉ x :: rest ++ o :: l₂ := h.not_mem
      have notLast : a ≠ lastCell x rest :=
        lastCell_ne fun member => entry (List.mem_append_left _ member)
      have notO : a ≠ o := fun eq => entry (by simp [eq])
      refine ⟨?_, h.2.1, ih h.2.2 link fun b hb => same b (by simp_all)⟩
      have first : Function.update next o v a = some x := h.1
      rw [Function.update_of_ne notO] at first
      exact (same a (by simp) notLast).trans first

end Minions.Data
