import Mathlib.Data.List.Basic

/-! Computations that look at a table one place at a time.
What such a computation answers depends only on the places that it looks at, and these depend on
nothing else either.
-/

namespace Minions.Data

variable {ι β α γ : Type}

/-- An answer, or a place to look at and what to do with what is there. -/
inductive Query (ι β α : Type) where
  | done (a : α)
  | read (i : ι) (next : β → Query ι β α)

namespace Query

/-- What is at a place. -/
def get (i : ι) : Query ι β β := .read i .done

protected def bind : Query ι β α → (α → Query ι β γ) → Query ι β γ
  | .done a, f => f a
  | .read i next, f => .read i fun b => (next b).bind f

instance : Monad (Query ι β) where
  pure := .done
  bind := Query.bind

/-- The answer for a table. -/
def run (table : ι → β) : Query ι β α → α
  | .done a => a
  | .read i next => (next (table i)).run table

/-- The places that are looked at in a table, in order. -/
def reads (table : ι → β) : Query ι β α → List ι
  | .done _ => []
  | .read i next => i :: (next (table i)).reads table

variable {table table' : ι → β}

/-- A query that asks nothing has its answer. -/
@[simp]
theorem run_pure (a : α) : (pure a : Query ι β α).run table = a := by
  simp only [pure, run]

/-- A query that asks nothing reads nothing. -/
@[simp]
theorem reads_pure (a : α) : (pure a : Query ι β α).reads table = [] := rfl

/-- A query of one place has its entry. -/
@[simp]
theorem run_get (i : ι) : (get i : Query ι β β).run table = table i := by
  simp only [get, run]

/-- A query of one place reads it. -/
@[simp]
theorem reads_get (i : ι) : (get i : Query ι β β).reads table = [i] := rfl

/-- A computation that goes on with the answer of another, by induction on the first. -/
@[simp]
theorem run_bind (q : Query ι β α) (f : α → Query ι β γ)
    : (q >>= f).run table = (f (q.run table)).run table := by
  induction q with
  | done a => rfl
  | read i next ih => exact ih (table i)

/-- A query reads what its parts read. -/
@[simp]
theorem reads_bind (q : Query ι β α) (f : α → Query ι β γ)
    : (q >>= f).reads table = q.reads table ++ (f (q.run table)).reads table := by
  induction q with
  | done a => rfl
  | read i next ih => exact congrArg (i :: ·) (ih (table i))

/-- A query by cases. -/
@[simp]
theorem run_ite (c : Prop) [Decidable c] (q q' : Query ι β α)
    : (if c then q else q').run table = if c then q.run table else q'.run table :=
  apply_ite (run table) c q q'

/-- What is at several places, in order. -/
def getAll : List ι → Query ι β (List β)
  | [] => pure []
  | i :: rest => do
      let b ← get i
      let bs ← getAll rest
      pure (b :: bs)

/-- A query of several places has their entries. -/
@[simp]
theorem run_getAll (places : List ι)
    : (getAll places : Query ι β (List β)).run table = places.map table := by
  induction places with
  | nil => simp [getAll]
  | cons i rest ih => simp [getAll, ih]

-----------------------------------------------------------------------------------------
-- Where a computation looks
-----------------------------------------------------------------------------------------

/-- Every place that is looked at has the property. -/
def Within (P : ι → Prop) (table : ι → β) (q : Query ι β α) : Prop :=
  ∀ i ∈ q.reads table, P i

variable {P : ι → Prop}

/-- A query that asks nothing stays anywhere. -/
@[simp]
theorem within_pure (a : α) : (pure a : Query ι β α).Within P table := by
  simp [Within]

/-- A query of one place stays where that place is. -/
@[simp]
theorem within_get (i : ι) : (get i : Query ι β β).Within P table ↔ P i := by
  simp [Within]

/-- A query stays where its parts do. -/
@[simp]
theorem within_bind (q : Query ι β α) (f : α → Query ι β γ)
    : (q >>= f).Within P table ↔ q.Within P table ∧ (f (q.run table)).Within P table := by
  simp only [Within, reads_bind, List.mem_append, or_imp, forall_and]

/-- A query of several places stays where they all are. -/
@[simp]
theorem within_getAll (places : List ι)
    : (getAll places : Query ι β (List β)).Within P table ↔ ∀ i ∈ places, P i := by
  induction places with
  | nil => simp [getAll]
  | cons i rest ih => simp [getAll, ih]

/-- A query by cases stays where its cases do. -/
theorem within_ite (c : Prop) [Decidable c] (q q' : Query ι β α)
    : (if c then q else q').Within P table
      ↔ (c → q.Within P table) ∧ (¬c → q'.Within P table) := by
  split
  · simp [*]
  · simp [*]

/-- Tables that agree where a computation looks have the same answer, by induction on it. -/
theorem run_congr {q : Query ι β α} (within : q.Within P table)
    (agree : ∀ i, P i → table i = table' i)
    : q.run table = q.run table' := by
  induction q with
  | done a => rfl
  | read i next ih =>
      have here : table i = table' i := agree i (within i List.mem_cons_self)
      have rest : (next (table i)).Within P table :=
        fun j hj => within j (List.mem_cons_of_mem _ hj)
      calc (next (table i)).run table
        _ = (next (table i)).run table' := ih (table i) rest
        _ = (next (table' i)).run table' := by rw [here]

end Query

end Minions.Data
