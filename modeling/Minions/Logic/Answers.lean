import Minions.Logic.Events
import Mathlib.Data.List.Forall2

/-! Components that answer each request.
Two components answer every sequence of requests alike where a relation between their states
says so of one request and is kept by it.
-/

namespace Minions.Logic

variable {σ τ ε ρ : Type}

/-- The answers to a sequence of requests. -/
def answers (step : σ → ε → ρ × σ) : σ → List ε → List ρ
  | _, [] => []
  | s, event :: rest => (step s event).1 :: answers step (step s event).2 rest

/-- The state after a sequence of requests. -/
def after (step : σ → ε → ρ × σ) : σ → List ε → σ
  | s, [] => s
  | s, event :: rest => after step (step s event).2 rest

/-- The state after one request. -/
def next (step : σ → ε → ρ × σ) (s : σ) (event : ε) : Option σ := some (step s event).2

/-- Components whose states are related answer alike, by induction on the requests. -/
theorem answers_simulate {step : σ → ε → ρ × σ} {step' : τ → ε → ρ × τ} {cond : σ → ε → Prop}
    (R : σ → τ → Prop)
    (one : ∀ s t event, cond s event → R s t
      → (step s event).1 = (step' t event).1 ∧ R (step s event).2 (step' t event).2)
    {s : σ} {t : τ} {events : List ε} (every : EveryStep (next step) cond s events) (start : R s t)
    : answers step s events = answers step' t events
      ∧ R (after step s events) (after step' t events) := by
  induction events generalizing s t with
  | nil => exact ⟨rfl, start⟩
  | cons event rest ih =>
      obtain ⟨same, related⟩ := one s t event every.1 start
      obtain ⟨later, ends⟩ := ih every.2 related
      exact ⟨congrArg₂ List.cons same later, ends⟩

/-- Components whose states are related agree in every answer exactly as long as the condition is
met, where one answer does so and the condition keeps the relation; by induction on the requests.
-/
theorem answers_agree_iff {step : σ → ε → ρ × σ} {step' : τ → ε → ρ × τ} {cond : σ → ε → Prop}
    {Agree : ρ → ρ → Prop} (R : σ → τ → Prop)
    (one : ∀ s t event, R s t → (Agree (step s event).1 (step' t event).1 ↔ cond s event))
    (keeps : ∀ s t event, R s t → cond s event → R (step s event).2 (step' t event).2)
    {s : σ} {t : τ} {events : List ε} (start : R s t)
    : List.Forall₂ Agree (answers step s events) (answers step' t events)
      ↔ EveryStep (next step) cond s events := by
  induction events generalizing s t with
  | nil => exact iff_of_true .nil trivial
  | cons event rest ih =>
      rw [answers, answers, List.forall₂_cons, one s t event start]
      exact and_congr_right fun met => ih (keeps s t event start met)

/-- Components whose states are related give related answers, by induction on the requests; the
condition is checked in the runs of the second.
-/
theorem answers_related {ρ' : Type} {step : σ → ε → ρ × σ} {step' : τ → ε → ρ' × τ}
    {cond : τ → ε → Prop} {Agree : ρ → ρ' → Prop} (R : σ → τ → Prop)
    (one : ∀ s t event, cond t event → R s t
      → Agree (step s event).1 (step' t event).1 ∧ R (step s event).2 (step' t event).2)
    {s : σ} {t : τ} {events : List ε} (every : EveryStep (next step') cond t events) (start : R s t)
    : List.Forall₂ Agree (answers step s events) (answers step' t events)
      ∧ R (after step s events) (after step' t events) := by
  induction events generalizing s t with
  | nil => exact ⟨.nil, start⟩
  | cons event rest ih =>
      obtain ⟨agree, related⟩ := one s t event every.1 start
      obtain ⟨later, ends⟩ := ih every.2 related
      exact ⟨.cons agree later, ends⟩

end Minions.Logic
