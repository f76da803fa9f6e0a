import Mathlib.Logic.Function.Basic
import Minions.Logic.Events

/-! The `main` of `threads/example01.c`, `example02.c` and `example03.c`, which creates two
threads and joins them. The code of the threads is a parameter. A step is one access to the
memory that the threads share, one line printed or one call of the thread library.
-/

namespace Minions.Unp.TwoThreads

open Minions.Logic

/-- `tidA` and `tidB`. -/
inductive Tid where
  | tidA
  | tidB
deriving DecidableEq

/-- Where `main` is. -/
inductive Main where
  | createA
  | createB
  | joinA
  | joinB
  | exited
deriving DecidableEq

/-- A thread runs, or `main`, or the system wakes a thread that nobody has signalled. -/
inductive Event where
  | main
  | thread (t : Tid)
  | wake (t : Tid)
deriving DecidableEq

/-- The code that the threads run: where it starts and returns, and its next step, which has no
answer while the thread has to wait, and none when it has returned. A thread that sleeps on a
condition variable can be woken without a signal.
-/
structure Code (Memory Loc : Type) where
  start : Loc
  returned : Loc
  perform : Tid → Memory → Loc → Option (Memory × Loc)
  wake : Tid → Memory → Option Memory := fun _ _ => none
  ends : ∀ t memory, perform t memory returned = none

/-- The memory that the threads share, where `main` is, and where the threads are that exist. -/
structure State (Memory Loc : Type) where
  memory : Memory
  main : Main := .createA
  place : Tid → Option Loc := fun _ => none

variable {Memory Loc : Type} {code : Code Memory Loc} {s s' : State Memory Loc} {t : Tid}

/-- One step of `main`. -/
def State.stepMain [DecidableEq Loc] (code : Code Memory Loc) (s : State Memory Loc)
    : Option (State Memory Loc) :=
  match s.main with
  | .createA =>
      some { s with main := .createB, place := Function.update s.place .tidA (some code.start) }
  | .createB =>
      some { s with main := .joinA, place := Function.update s.place .tidB (some code.start) }
  | .joinA => if s.place .tidA = some code.returned then some { s with main := .joinB } else none
  | .joinB => if s.place .tidB = some code.returned then some { s with main := .exited } else none
  | .exited => none

/-- One step of a thread. -/
def State.stepThread (code : Code Memory Loc) (s : State Memory Loc) (t : Tid)
    : Option (State Memory Loc) :=
  (s.place t).bind fun loc => (code.perform t s.memory loc).map fun next =>
    { s with memory := next.1, place := Function.update s.place t (some next.2) }

/-- `exit` ends every thread. -/
def step [DecidableEq Loc] (code : Code Memory Loc) (s : State Memory Loc)
    : Event → Option (State Memory Loc)
  | .main => s.stepMain code
  | .thread t => if s.main = .exited then none else s.stepThread code t
  | .wake t => (code.wake t s.memory).map fun memory => { s with memory := memory }

-----------------------------------------------------------------------------------------
-- What `main` knows of the threads
-----------------------------------------------------------------------------------------

/-- Which threads exist, and which have returned. -/
def Joins (code : Code Memory Loc) : Main → (Tid → Option Loc) → Prop
  | .createA, place => ∀ t, place t = none
  | .createB, place => place .tidA ≠ none ∧ place .tidB = none
  | .joinA, place => place .tidA ≠ none ∧ place .tidB ≠ none
  | .joinB, place => place .tidA = some code.returned ∧ place .tidB ≠ none
  | .exited, place => place .tidA = some code.returned ∧ place .tidB = some code.returned

/-- Nothing has been joined at the start. -/
theorem joins_start : Joins code .createA fun _ => none := fun _ => rfl

/-- A thread that has not returned goes on. -/
theorem Joins.update {main : Main} {place : Tid → Option Loc} (joins : Joins code main place)
    {loc : Loc} (here : place t = some loc) (going : loc ≠ code.returned) (loc' : Loc)
    : Joins code main (Function.update place t (some loc')) := by
  cases main <;> cases t <;> simp_all [Joins]

/-- A process that has ended has joined both threads. -/
theorem Joins.exited {place : Tid → Option Loc} (joins : Joins code .exited place) (t : Tid)
    : place t = some code.returned := by
  cases t with
  | tidA => exact joins.1
  | tidB => exact joins.2

/-- A thread takes a step of its code. -/
theorem stepThread_cases (h : s.stepThread code t = some s')
    : ∃ loc next, s.place t = some loc ∧ code.perform t s.memory loc = some next
      ∧ s' = { s with memory := next.1, place := Function.update s.place t (some next.2) } := by
  obtain ⟨loc, here, stepped⟩ := Option.bind_eq_some_iff.mp h
  obtain ⟨next, performed, rfl⟩ := Option.map_eq_some_iff.mp stepped
  exact ⟨loc, next, here, performed, rfl⟩

/-- A step of a thread keeps the joins right. -/
theorem stepThread_joins (h : s.stepThread code t = some s') (joins : Joins code s.main s.place)
    : Joins code s'.main s'.place := by
  obtain ⟨loc, next, here, performed, rfl⟩ := stepThread_cases h
  refine joins.update here ?_ next.2
  rintro rfl
  rw [code.ends] at performed
  cases performed

variable [DecidableEq Loc]

/-- `main` creates a thread, or leaves the threads where they are. -/
theorem stepMain_cases (h : s.stepMain code = some s') (joins : Joins code s.main s.place)
    : Joins code s'.main s'.place ∧ s'.memory = s.memory
      ∧ (s'.place = s.place
        ∨ ∃ t, s.place t = none ∧ s'.place = Function.update s.place t (some code.start)) := by
  simp only [State.stepMain] at h
  split at h
  · next main =>
      cases h
      rw [main] at joins
      refine ⟨?_, rfl, .inr ⟨.tidA, joins .tidA, rfl⟩⟩
      simp [Joins, joins .tidB]
  · next main =>
      cases h
      rw [main] at joins
      refine ⟨?_, rfl, .inr ⟨.tidB, joins.2, rfl⟩⟩
      simp [Joins, joins.1]
  · next main =>
      split at h
      · next done =>
          cases h
          rw [main] at joins
          exact ⟨⟨done, joins.2⟩, rfl, .inl rfl⟩
      · cases h
  · next main =>
      split at h
      · next done =>
          cases h
          rw [main] at joins
          exact ⟨⟨joins.1, done⟩, rfl, .inl rfl⟩
      · cases h
  · cases h

/-- What the threads keep: a thread that is created, a step of a thread, and a wakeup. -/
structure Kept (code : Code Memory Loc) (P : Memory → (Tid → Option Loc) → Prop) : Prop where
  created : ∀ {memory place} t, place t = none → P memory place
    → P memory (Function.update place t (some code.start))
  performed : ∀ {memory place} t {loc next}, place t = some loc
    → code.perform t memory loc = some next → P memory place
    → P next.1 (Function.update place t (some next.2))
  woken : ∀ {memory place} t {memory'}, code.wake t memory = some memory' → P memory place
    → P memory' place

variable {P : Memory → (Tid → Option Loc) → Prop}

/-- What the threads keep, every step keeps. -/
theorem Kept.preserved {event : Event} (kept : Kept code P) (h : step code s event = some s')
    (holds : Joins code s.main s.place ∧ P s.memory s.place)
    : Joins code s'.main s'.place ∧ P s'.memory s'.place := by
  obtain ⟨joins, holds⟩ := holds
  cases event with
  | main =>
      obtain ⟨joins', memory', same | ⟨t, new, place'⟩⟩ := stepMain_cases h joins
      · exact ⟨joins', by rwa [memory', same]⟩
      · exact ⟨joins', by rw [memory', place']; exact kept.created t new holds⟩
  | thread t =>
      rw [step, Option.ite_none_left_eq_some] at h
      obtain ⟨loc, next, here, stepped, moved⟩ := stepThread_cases h.2
      refine ⟨stepThread_joins h.2 joins, ?_⟩
      rw [moved]
      exact kept.performed t here stepped holds
  | wake t =>
      obtain ⟨memory', woken, rfl⟩ := Option.map_eq_some_iff.mp h
      exact ⟨joins, kept.woken t woken holds⟩

/-- What the threads keep, and holds before any of them exists, holds in every reachable state. -/
theorem Kept.reachable (kept : Kept code P) {memory : Memory} (initially : P memory fun _ => none)
    (run : Reachable (step code) { memory } s)
    : Joins code s.main s.place ∧ P s.memory s.place :=
  run.invariant (P := fun s => Joins code s.main s.place ∧ P s.memory s.place)
    ⟨joins_start, initially⟩ kept.preserved

/-- How far `main` has come. -/
def Main.rank : Main → Nat
  | .createA => 0
  | .createB => 1
  | .joinA => 2
  | .joinB => 3
  | .exited => 4

/-- A wakeup that nobody asked for. -/
def Event.isWake : Event → Bool
  | .wake _ => true
  | _ => false

/-- What the threads do brings them forward, and a wakeup sets them back by `cost` at most. -/
structure Forward (code : Code Memory Loc) (P : Memory → (Tid → Option Loc) → Prop)
    (rank : Memory → (Tid → Option Loc) → Nat) (cost : Nat) : Prop where
  created : ∀ {memory place} t, place t = none → P memory place
    → rank memory place ≤ rank memory (Function.update place t (some code.start))
  performed : ∀ {memory place} t {loc next}, place t = some loc
    → code.perform t memory loc = some next → P memory place
    → rank memory place + 1 ≤ rank next.1 (Function.update place t (some next.2))
  woken : ∀ {memory place} t {memory'}, code.wake t memory = some memory' → P memory place
    → rank memory place + 1 ≤ rank memory' place + cost

/-- Each step of `main` brings it forward by one. -/
theorem stepMain_rank (h : s.stepMain code = some s') : s'.main.rank = s.main.rank + 1 := by
  simp only [State.stepMain] at h
  split at h
  · next main =>
      cases h
      simp [Main.rank, main]
  · next main =>
      cases h
      simp [Main.rank, main]
  · next main =>
      obtain ⟨_, rfl⟩ := Option.ite_none_right_eq_some.mp h |>.imp_right Option.some.inj
      simp [Main.rank, main]
  · next main =>
      obtain ⟨_, rfl⟩ := Option.ite_none_right_eq_some.mp h |>.imp_right Option.some.inj
      simp [Main.rank, main]
  · cases h

/-- A run is no longer than the way that `main` and the threads have gone. -/
theorem Forward.length_le {rank : Memory → (Tid → Option Loc) → Nat} {cost : Nat}
    (forward : Forward code P rank cost) (kept : Kept code P) {memory : Memory}
    (initially : P memory fun _ => none) {events : List Event}
    (h : runEvents (step code) { memory } events = some s)
    : events.length
      ≤ s.main.rank + rank s.memory s.place + cost * events.countP Event.isWake := by
  have all := @runEvents_length_le _ _ (step code)
    (fun s => Joins code s.main s.place ∧ P s.memory s.place)
    (fun s => s.main.rank + rank s.memory s.place) Event.isWake cost
    kept.preserved ?_ _ _ _ h ⟨joins_start, initially⟩
  · omega
  · rintro s event s' h ⟨joins, holds⟩
    cases event with
    | main =>
        have main := stepMain_rank h
        obtain ⟨_, memory', same | ⟨t, new, place'⟩⟩ := stepMain_cases h joins
        · simp only [memory', same]
          omega
        · have := forward.created t new holds
          simp only [memory', place']
          omega
    | thread t =>
        rw [step, Option.ite_none_left_eq_some] at h
        obtain ⟨loc, next, here, stepped, rfl⟩ := stepThread_cases h.2
        have := forward.performed t here stepped holds
        simp only [Event.isWake, Bool.false_eq_true, if_false]
        omega
    | wake t =>
        obtain ⟨memory', woken, rfl⟩ := Option.map_eq_some_iff.mp h
        have := forward.woken t woken holds
        simp only [Event.isWake, if_true]
        omega

/-- Unless the program has exited, `main` can take a step, or some thread has not returned. -/
theorem Joins.waits (joins : Joins code s.main s.place) (running : s.main ≠ .exited)
    (stuck : s.stepMain code = none)
    : (∀ t, s.place t ≠ none) ∧ ∃ t, s.place t ≠ some code.returned := by
  cases main : s.main with
  | createA => simp [State.stepMain, main] at stuck
  | createB => simp [State.stepMain, main] at stuck
  | joinA =>
      rw [main] at joins
      refine ⟨fun t => ?_, .tidA, ?_⟩
      · cases t with
        | tidA => exact joins.1
        | tidB => exact joins.2
      · simpa [State.stepMain, main] using stuck
  | joinB =>
      rw [main] at joins
      refine ⟨fun t => ?_, .tidB, ?_⟩
      · cases t with
        | tidA => simp [joins.1]
        | tidB => exact joins.2
      · simpa [State.stepMain, main] using stuck
  | exited => exact absurd main running

-----------------------------------------------------------------------------------------
-- The places of both threads
-----------------------------------------------------------------------------------------

/-- A number that belongs to each place, for both threads. -/
def both (f : Option Loc → Nat) (place : Tid → Option Loc) : Nat :=
  f (place .tidA) + f (place .tidB)

omit [DecidableEq Loc] in
/-- The sum when one thread's place changes. -/
theorem both_update (f : Option Loc → Nat) (place : Tid → Option Loc) (t : Tid) (loc : Option Loc)
    : both f (Function.update place t loc) + f (place t) = both f place + f loc := by
  cases t <;> simp [both] <;> omega

omit [DecidableEq Loc] in
/-- What holds of the new place of one thread, and of the places of the others. -/
theorem forall_update {Q : Tid → Option Loc → Prop} {place : Tid → Option Loc} {loc : Option Loc}
    (here : Q t loc) (others : ∀ u, u ≠ t → Q u (place u))
    : ∀ u, Q u (Function.update place t loc u) :=
  (Function.forall_update_iff place Q).mpr ⟨here, others⟩

-----------------------------------------------------------------------------------------
-- Runs
-----------------------------------------------------------------------------------------

/-- Some run leads the threads to the places `locs` and the memory to `memory`, while `main`
waits for the first of them.
-/
def Gets (code : Code Memory Loc) (start : Memory) (locs : Tid → Loc) (memory : Memory) : Prop :=
  Reachable (step code) { memory := start }
    { memory := memory, main := .joinA, place := fun t => some (locs t) }

variable {start memory : Memory} {locs : Tid → Loc}

/-- Both threads are created. -/
theorem gets_created (code : Code Memory Loc) (start : Memory)
    : Gets code start (fun _ => code.start) start := by
  refine ⟨[.main, .main], ?_⟩
  simp only [runEvents, step, State.stepMain, Option.bind_some]
  congr
  funext t
  cases t <;> rfl

/-- A thread takes a step. -/
theorem Gets.perform (gets : Gets code start locs memory) (t : Tid) {next : Memory × Loc}
    (h : code.perform t memory (locs t) = some next)
    : Gets code start (Function.update locs t next.2) next.1 := by
  refine Reachable.trans gets (@Reachable.single _ _ _ _ _ (.thread t) ?_)
  simp only [step, reduceCtorEq, if_false, State.stepThread, Option.bind_some, h, Option.map_some]
  congr
  funext u
  by_cases here : u = t
  · subst here
    rw [Function.update_self, Function.update_self]
  · rw [Function.update_of_ne here, Function.update_of_ne here]

/-- `main` joins two threads that have returned, and exits. -/
theorem Gets.exits (gets : Gets code start locs memory) (done : ∀ t, locs t = code.returned)
    : ∃ s, Reachable (step code) { memory := start } s ∧ s.main = .exited ∧ s.memory = memory := by
  refine ⟨{ memory := memory, main := .exited, place := fun t => some (locs t) },
    Reachable.trans gets ⟨[.main, .main], ?_⟩, rfl, rfl⟩
  simp [runEvents, step, State.stepMain, done]

end Minions.Unp.TwoThreads
