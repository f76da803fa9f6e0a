import Mathlib.Data.Option.Basic

/-! Systems that events drive.
The environment chooses the event, with every value that the code cannot foresee in it, and
the code answers with its next state. An event that cannot happen in a state has no answer.
-/

namespace Minions.Logic

variable {σ ε : Type}

/-- The state after the events, where each of them can happen in its turn. -/
def runEvents (step : σ → ε → Option σ) : σ → List ε → Option σ
  | s, [] => some s
  | s, event :: rest => (step s event).bind fun s' => runEvents step s' rest

/-- Some run of events leads from one state to the other. -/
def Reachable (step : σ → ε → Option σ) (start s : σ) : Prop :=
  ∃ events, runEvents step start events = some s

variable {step : σ → ε → Option σ}

/-- A run takes its first event and continues from the state it leads to. -/
theorem runEvents_cons {s s' : σ} {event : ε} {rest : List ε}
    (h : runEvents step s (event :: rest) = some s')
    : ∃ middle, step s event = some middle ∧ runEvents step middle rest = some s' :=
  Option.bind_eq_some_iff.mp h

/-- What every step keeps, every run keeps, by induction on the events. -/
theorem runEvents_invariant {P : σ → Prop}
    (preserved : ∀ {s event s'}, step s event = some s' → P s → P s')
    {s s' : σ} {events : List ε} (h : runEvents step s events = some s') (hs : P s)
    : P s' := by
  induction events generalizing s with
  | nil =>
      cases h
      exact hs
  | cons event rest ih =>
      obtain ⟨middle, hstep, hrest⟩ := runEvents_cons h
      exact ih hrest (preserved hstep hs)

/-- An invariant of the start and of every step holds in every reachable state. -/
theorem Reachable.invariant {P : σ → Prop} {start s : σ} (h : Reachable step start s)
    (initially : P start)
    (preserved : ∀ {s event s'}, step s event = some s' → P s → P s')
    : P s := by
  obtain ⟨events, hrun⟩ := h
  exact runEvents_invariant preserved hrun initially

/-- Two runs that follow one another. -/
theorem runEvents_append {s middle s' : σ} {before after : List ε}
    (first : runEvents step s before = some middle)
    (second : runEvents step middle after = some s')
    : runEvents step s (before ++ after) = some s' := by
  induction before generalizing s with
  | nil =>
      cases first
      exact second
  | cons event rest ih =>
      obtain ⟨next, hstep, hrest⟩ := runEvents_cons first
      exact Option.bind_eq_some_iff.mpr ⟨next, hstep, ih hrest⟩

/-- Every state is reachable from itself. -/
theorem Reachable.refl (s : σ) : Reachable step s s := ⟨[], rfl⟩

/-- A state is reachable by one event. -/
theorem Reachable.single {s s' : σ} {event : ε} (h : step s event = some s')
    : Reachable step s s' :=
  ⟨[event], by simp [runEvents, h]⟩

/-- Reachability is transitive. -/
theorem Reachable.trans {s middle s' : σ} (first : Reachable step s middle)
    (second : Reachable step middle s')
    : Reachable step s s' := by
  obtain ⟨before, hbefore⟩ := first
  obtain ⟨after, hafter⟩ := second
  exact ⟨before ++ after, runEvents_append hbefore hafter⟩

/-- Every step that the run takes meets the condition, in the state before it. -/
def EveryStep (step : σ → ε → Option σ) (cond : σ → ε → Prop) : σ → List ε → Prop
  | _, [] => True
  | s, event :: rest => cond s event ∧ (step s event).elim True (EveryStep step cond · rest)

/-- The steps of a run are checked one after the other. -/
def EveryStep.decide {cond : σ → ε → Prop} [∀ s event, Decidable (cond s event)]
    : (s : σ) → (events : List ε) → Decidable (EveryStep step cond s events)
  | _, [] => .isTrue trivial
  | s, event :: rest =>
      have : Decidable ((step s event).elim True (EveryStep step cond · rest)) :=
        match step s event with
        | none => .isTrue trivial
        | some s' => EveryStep.decide s' rest
      inferInstanceAs (Decidable (cond s event ∧ _))

instance {cond : σ → ε → Prop} [∀ s event, Decidable (cond s event)] {s : σ} {events : List ε}
    : Decidable (EveryStep step cond s events) :=
  EveryStep.decide s events

/-- The steps of the two parts of a run are the steps of the run. -/
theorem everyStep_append {cond : σ → ε → Prop} {s middle : σ} {before after : List ε}
    (first : runEvents step s before = some middle)
    : EveryStep step cond s (before ++ after)
      ↔ EveryStep step cond s before ∧ EveryStep step cond middle after := by
  induction before generalizing s with
  | nil =>
      cases first
      exact (iff_of_eq (true_and _)).symm
  | cons event rest ih =>
      obtain ⟨next, hstep, hrest⟩ := runEvents_cons first
      simp only [List.cons_append, EveryStep, hstep, Option.elim_some, ih hrest, and_assoc]

/-- Two conditions that say the same of each step from a state with the invariant say the same of
every run from one.
-/
theorem everyStep_congr_of_invariant {P : σ → Prop} {cond cond' : σ → ε → Prop}
    (preserved : ∀ {s event s'}, step s event = some s' → P s → P s')
    (same : ∀ s event, P s → (cond s event ↔ cond' s event)) {s : σ} (hs : P s) (events : List ε)
    : EveryStep step cond s events ↔ EveryStep step cond' s events := by
  induction events generalizing s with
  | nil => exact Iff.rfl
  | cons event rest ih =>
      refine and_congr (same s event hs) ?_
      cases h : step s event with
      | none => exact Iff.rfl
      | some s' => exact ih (preserved h hs)

/-- A condition that follows from another in each step from a state with the invariant follows
from it in every run from one, by induction on the events.
-/
theorem everyStep_mono_of_invariant {P : σ → Prop} {cond cond' : σ → ε → Prop}
    (preserved : ∀ {s event s'}, step s event = some s' → P s → P s')
    (weaker : ∀ s event, P s → cond s event → cond' s event) {s : σ} (hs : P s) {events : List ε}
    (every : EveryStep step cond s events)
    : EveryStep step cond' s events := by
  induction events generalizing s with
  | nil => trivial
  | cons event rest ih =>
      refine ⟨weaker s event hs every.1, ?_⟩
      have later := every.2
      cases h : step s event with
      | none => trivial
      | some s' =>
          rw [h] at later
          exact ih (preserved h hs) later

/-- Two conditions that say the same of each step say the same of every run. -/
theorem everyStep_congr {cond cond' : σ → ε → Prop} (same : ∀ s event, cond s event ↔ cond' s event)
    (s : σ) (events : List ε)
    : EveryStep step cond s events ↔ EveryStep step cond' s events :=
  everyStep_congr_of_invariant (P := fun _ => True) (fun _ _ => trivial)
    (fun s event _ => same s event) trivial events

/-- What every step under the condition keeps, every run of such steps keeps. -/
theorem runEvents_invariant_of_everyStep {P : σ → Prop} {cond : σ → ε → Prop}
    (preserved : ∀ {s event s'}, cond s event → step s event = some s' → P s → P s')
    {s s' : σ} {events : List ε} (every : EveryStep step cond s events)
    (h : runEvents step s events = some s') (hs : P s)
    : P s' := by
  induction events generalizing s with
  | nil =>
      cases h
      exact hs
  | cons event rest ih =>
      obtain ⟨middle, hstep, hrest⟩ := runEvents_cons h
      obtain ⟨met, later⟩ := every
      rw [hstep] at later
      exact ih later hrest (preserved met hstep hs)

/-- A run with a step that breaks the condition ends badly, where that leads to a bad state and
no step leads out of one.
-/
theorem runEvents_broken {P Q : σ → Prop} {cond : σ → ε → Prop}
    (preserved : ∀ {s event s'}, step s event = some s' → P s → P s')
    (breaks : ∀ {s event s'}, ¬ cond s event → step s event = some s' → P s → Q s')
    (stays : ∀ {s event s'}, step s event = some s' → P s → Q s → Q s')
    {s s' : σ} {events : List ε} (broken : ¬ EveryStep step cond s events)
    (h : runEvents step s events = some s') (hs : P s)
    : Q s' := by
  induction events generalizing s with
  | nil => exact absurd trivial broken
  | cons event rest ih =>
      obtain ⟨middle, hstep, hrest⟩ := runEvents_cons h
      have inv := preserved hstep hs
      by_cases met : cond s event
      · refine ih (fun every => broken ⟨met, ?_⟩) hrest inv
        rw [hstep]
        exact every
      · have ends : P s' ∧ Q s' := by
          refine runEvents_invariant (P := fun t => P t ∧ Q t) ?_ hrest ⟨inv, breaks met hstep hs⟩
          exact fun hstep both => ⟨preserved hstep both.1, stays hstep both.1 both.2⟩
        exact ends.2

/-- Where each step brings the system forward, but for events that may set it back by less than
`cost`, a run is no longer than the way it has gone and what these events cost.
-/
theorem runEvents_length_le {P : σ → Prop} {gone : σ → Nat} {delays : ε → Bool} {cost : Nat}
    (preserved : ∀ {s event s'}, step s event = some s' → P s → P s')
    (forward : ∀ {s event s'}, step s event = some s' → P s
      → gone s + 1 ≤ gone s' + if delays event then cost else 0)
    {s s' : σ} {events : List ε} (h : runEvents step s events = some s') (hs : P s)
    : gone s + events.length ≤ gone s' + cost * events.countP delays := by
  induction events generalizing s with
  | nil =>
      cases h
      exact Nat.le_add_right _ _
  | cons event rest ih =>
      obtain ⟨middle, hstep, hrest⟩ := runEvents_cons h
      have first := forward hstep hs
      have later := ih hrest (preserved hstep hs)
      rw [List.countP_cons, Nat.mul_add, List.length_cons]
      split at first <;> simp_all <;> omega

/-- A run that can happen leads to a reachable state. -/
theorem Reachable.of_isSome {start : σ} {events : List ε}
    (happens : (runEvents step start events).isSome)
    : Reachable step start ((runEvents step start events).get happens) :=
  ⟨events, (Option.some_get happens).symm⟩

end Minions.Logic
