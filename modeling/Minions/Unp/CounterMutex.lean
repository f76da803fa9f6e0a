import Minions.Unp.TwoThreads

/-! Two threads that increment one counter under a lock: `threads/example02.c`. `NLOOP` is a
parameter.
-/

namespace Minions.Unp.CounterMutex

open Minions.Logic Minions.Unp.TwoThreads

/-- Where a thread is in `doit`, with its local variables. -/
inductive Loc where
  | test (i : Nat)
  | lock (i : Nat)
  | fetch (i : Nat)
  | print (i val : Nat)
  | store (i val : Nat)
  | unlock (i : Nat)
  | returned
deriving DecidableEq

/-- The lock with the thread that has it, the counter, and the lines printed. -/
structure Memory where
  counter_mutex : Option Tid := none
  counter : Nat := 0
  printed : List (Tid × Nat) := []

/-- One step of `doit`. -/
def doitStep (nloop : Nat) (t : Tid) (m : Memory) : Loc → Option (Memory × Loc)
  | .test i => some (m, if i < nloop then .lock i else .returned)
  | .lock i =>
      if m.counter_mutex = none then some ({ m with counter_mutex := some t }, .fetch i) else none
  | .fetch i => some (m, .print i m.counter)
  | .print i val => some ({ m with printed := m.printed ++ [(t, val + 1)] }, .store i val)
  | .store i val => some ({ m with counter := val + 1 }, .unlock i)
  | .unlock i => some ({ m with counter_mutex := none }, .test (i + 1))
  | .returned => none

def doit (nloop : Nat) : Code Memory Loc where
  start := .test 0
  returned := .returned
  perform := doitStep nloop
  ends _ _ := rfl

variable {nloop : Nat} {m m' : Memory} {place : Tid → Option Loc} {t : Tid}

/-- The number of times that a thread has stored. -/
def stores (nloop : Nat) : Option Loc → Nat
  | some (.test i) => i
  | some (.lock i) => i
  | some (.fetch i) => i
  | some (.print i _) => i
  | some (.store i _) => i
  | some (.unlock i) => i + 1
  | some .returned => nloop
  | none => 0

/-- The number of lines that a thread has printed. -/
def lines (nloop : Nat) : Option Loc → Nat
  | some (.store i _) => i + 1
  | loc => stores nloop loc

/-- Whether a thread has the lock. -/
def Holds : Option Loc → Prop
  | some (.fetch _) => True
  | some (.print _ _) => True
  | some (.store _ _) => True
  | some (.unlock _) => True
  | _ => False

/-- What a thread knows where it is: its loop goes on, and what it has fetched is the counter. -/
def Knows (nloop counter : Nat) : Option Loc → Prop
  | some (.test i) => i ≤ nloop
  | some (.lock i) => i < nloop
  | some (.fetch i) => i < nloop
  | some (.print i val) => i < nloop ∧ val = counter
  | some (.store i val) => i < nloop ∧ val = counter
  | some (.unlock i) => i < nloop
  | some .returned => True
  | none => True

/-- The lines that thread `t` has printed. -/
def Memory.printedBy (m : Memory) (t : Tid) : List (Tid × Nat) :=
  m.printed.filter fun line => line.1 = t

/-- Only the thread with the lock is between two of its stores, and the counter and the lines are
what all stores and prints have made of them.
-/
structure Inv (nloop : Nat) (m : Memory) (place : Tid → Option Loc) : Prop where
  mutex : ∀ t, Holds (place t) ↔ m.counter_mutex = some t
  knows : ∀ t, Knows nloop m.counter (place t)
  counter : m.counter = both (stores nloop) place
  printed : m.printed.length = both (lines nloop) place
  printedBy : ∀ t, (m.printedBy t).length = lines nloop (place t)
  ordered : m.printed.map Prod.snd = List.range' 1 m.printed.length

/-- The invariant holds at the start. -/
theorem start_inv : Inv nloop {} fun _ => none where
  mutex t := by simp [Holds]
  knows t := trivial
  counter := rfl
  printed := rfl
  printedBy t := rfl
  ordered := rfl

/-- A thread without the lock has stored what it has printed. -/
theorem lines_of_not_holds {loc : Option Loc} (free : ¬ Holds loc)
    : lines nloop loc = stores nloop loc := by
  rcases loc with _ | loc
  · rfl
  · cases loc <;> simp_all [Holds, lines]

/-- What a thread without the lock knows is not about the counter. -/
theorem knows_of_not_holds {counter : Nat} {loc : Option Loc} (free : ¬ Holds loc)
    (knows : Knows nloop counter loc) (counter' : Nat)
    : Knows nloop counter' loc := by
  rcases loc with _ | loc
  · trivial
  · cases loc <;> simp_all [Holds, Knows]

/-- No other thread has the lock. -/
theorem Inv.free (inv : Inv nloop m place) {loc : Loc} (here : place t = some loc)
    (holds : Holds (some loc)) {u : Tid} (other : u ≠ t)
    : ¬ Holds (place u) := by
  rw [inv.mutex u, (inv.mutex t).mp (by rwa [here])]
  simpa using other.symm

/-- A thread that neither prints nor stores goes to another place. -/
theorem Inv.quiet (inv : Inv nloop m place) {loc : Loc} (counter : m'.counter = m.counter)
    (printed : m'.printed = m.printed) (mutex : Holds (some loc) ↔ m'.counter_mutex = some t)
    (others : ∀ u, u ≠ t → (m'.counter_mutex = some u ↔ m.counter_mutex = some u))
    (knows : Knows nloop m.counter (some loc))
    (stored : stores nloop (some loc) = stores nloop (place t))
    (lined : lines nloop (some loc) = lines nloop (place t))
    : Inv nloop m' (Function.update place t (some loc)) := by
  have sumStores := both_update (stores nloop) place t (some loc)
  have sumLines := both_update (lines nloop) place t (some loc)
  refine ⟨?_, ?_, by have := inv.counter; omega, ?_, ?_, ?_⟩
  · exact forall_update (Q := fun u loc => Holds loc ↔ m'.counter_mutex = some u) mutex
      fun u other => (inv.mutex u).trans (others u other).symm
  · rw [counter]
    exact forall_update (Q := fun _ loc => Knows nloop m.counter loc) knows fun u _ => inv.knows u
  · rw [printed]
    have := inv.printed
    omega
  · have same : m'.printedBy = m.printedBy := by
      funext u
      rw [Memory.printedBy, printed]
      rfl
    rw [same]
    exact forall_update (Q := fun u loc => (m.printedBy u).length = lines nloop loc)
      ((inv.printedBy t).trans lined.symm) fun u _ => inv.printedBy u
  · rw [printed]
    exact inv.ordered

/-- A line is printed with the lock: it has the number of stores that there will be. -/
theorem Inv.print (inv : Inv nloop m place) {i val : Nat} (here : place t = some (.print i val))
    : Inv nloop { m with printed := m.printed ++ [(t, val + 1)] }
        (Function.update place t (some (.store i val))) := by
  obtain ⟨more, rfl⟩ : i < nloop ∧ val = m.counter := by simpa [here, Knows] using inv.knows t
  have free := fun u => inv.free (u := u) here trivial
  have sumStores := both_update (stores nloop) place t (some (.store i m.counter))
  have sumLines := both_update (lines nloop) place t (some (.store i m.counter))
  simp only [here, stores, lines] at sumStores sumLines
  have number : m.printed.length = m.counter := by
    have each : ∀ u, lines nloop (place u) = stores nloop (place u) := by
      intro u
      by_cases same : u = t
      · rw [same, here]
        rfl
      · exact lines_of_not_holds (free u same)
    rw [inv.printed, inv.counter]
    simp only [both, each]
  refine ⟨?_, ?_, by have := inv.counter; dsimp only; omega, ?_, ?_, ?_⟩
  · have mine := (inv.mutex t).mp (by rw [here]; trivial)
    exact forall_update (Q := fun u loc => Holds loc ↔ m.counter_mutex = some u)
      (by simp [Holds, mine]) fun u _ => inv.mutex u
  · exact forall_update (Q := fun _ loc => Knows nloop m.counter loc) ⟨more, rfl⟩
      fun u _ => inv.knows u
  · have := inv.printed
    simp only [List.length_append, List.length_singleton]
    omega
  · refine forall_update (Q := fun u loc => _ = lines nloop loc) ?_ fun u other => ?_
    · have before := inv.printedBy t
      rw [here] at before
      simp only [lines, stores, Memory.printedBy] at before
      simp [Memory.printedBy, lines, before]
    · rw [← inv.printedBy u]
      simp [Memory.printedBy, other.symm]
  · rw [List.map_append, inv.ordered, List.length_append, List.length_singleton,
      List.range'_concat, number]
    simp [Nat.add_comm]

/-- The counter is stored with the lock. -/
theorem Inv.store (inv : Inv nloop m place) {i val : Nat} (here : place t = some (.store i val))
    : Inv nloop { m with counter := val + 1 }
        (Function.update place t (some (.unlock i))) := by
  obtain ⟨more, rfl⟩ : i < nloop ∧ val = m.counter := by simpa [here, Knows] using inv.knows t
  have sumStores := both_update (stores nloop) place t (some (.unlock i))
  have sumLines := both_update (lines nloop) place t (some (.unlock i))
  simp only [here, stores, lines] at sumStores sumLines
  have counter := inv.counter
  have printed := inv.printed
  refine ⟨?_, ?_, by dsimp only; omega, by dsimp only; omega, ?_, inv.ordered⟩
  · have mine := (inv.mutex t).mp (by rw [here]; trivial)
    exact forall_update (Q := fun u loc => Holds loc ↔ m.counter_mutex = some u)
      (by simp [Holds, mine]) fun u _ => inv.mutex u
  · exact forall_update (Q := fun _ loc => Knows nloop (m.counter + 1) loc) more
      fun u other => knows_of_not_holds (inv.free here trivial other) (inv.knows u) _
  · have before := inv.printedBy t
    rw [here] at before
    exact forall_update (Q := fun u loc => (m.printedBy u).length = lines nloop loc) before
      fun u _ => inv.printedBy u

/-- No step of any thread breaks what is known. -/
theorem doitStep_inv {loc : Loc} {next : Memory × Loc} (here : place t = some loc)
    (h : doitStep nloop t m loc = some next) (inv : Inv nloop m place)
    : Inv nloop next.1 (Function.update place t (some next.2)) := by
  have mutex := inv.mutex t
  have knows := inv.knows t
  rw [here] at mutex knows
  cases loc with
  | test i =>
      cases h
      have free : ¬ m.counter_mutex = some t := fun mine => mutex.mpr mine
      by_cases more : i < nloop
      · rw [if_pos more]
        exact inv.quiet rfl rfl (by simp [Holds, free]) (fun _ _ => Iff.rfl) more
          (by simp [here, stores]) (by simp [here, lines, stores])
      · have last : i = nloop := by
          simp only [Knows] at knows
          omega
        rw [if_neg more]
        exact inv.quiet rfl rfl (by simp [Holds, free]) (fun _ _ => Iff.rfl) trivial
          (by simp [here, stores, last]) (by simp [here, lines, stores, last])
  | lock i =>
      simp only [doitStep, Option.ite_none_right_eq_some] at h
      obtain ⟨free, h⟩ := h
      cases h
      exact inv.quiet rfl rfl (by simp [Holds]) (fun u other => by simp [free, other.symm]) knows
        (by simp [here, stores]) (by simp [here, lines, stores])
  | fetch i =>
      cases h
      exact inv.quiet rfl rfl mutex (fun _ _ => Iff.rfl) ⟨knows, rfl⟩
        (by simp [here, stores]) (by simp [here, lines, stores])
  | print i val =>
      cases h
      exact inv.print here
  | store i val =>
      cases h
      exact inv.store here
  | unlock i =>
      cases h
      have mine := mutex.mp trivial
      exact inv.quiet rfl rfl (by simp [Holds]) (fun u other => by simp [mine, other.symm]) knows
        (by simp [here, stores]) (by simp [here, lines, stores])
  | returned => cases h

/-- A new thread keeps the invariant. -/
theorem create_inv (new : place t = none) (inv : Inv nloop m place)
    : Inv nloop m (Function.update place t (some (.test 0))) := by
  have mutex := inv.mutex t
  rw [new] at mutex
  exact inv.quiet rfl rfl mutex (fun _ _ => Iff.rfl) (Nat.zero_le _) (by simp [new, stores])
    (by simp [new, lines, stores])

/-- Every event keeps the invariant. -/
theorem kept_inv : Kept (doit nloop) (Inv nloop) where
  created _ new inv := create_inv new inv
  performed _ _ _ here h inv := doitStep_inv here h inv
  woken _ _ impossible := by cases impossible

/-- The steps that a thread has taken. -/
def taken (nloop : Nat) : Option Loc → Nat
  | some (.test i) => 6 * i
  | some (.lock i) => 6 * i + 1
  | some (.fetch i) => 6 * i + 2
  | some (.print i _) => 6 * i + 3
  | some (.store i _) => 6 * i + 4
  | some (.unlock i) => 6 * i + 5
  | some .returned => 6 * nloop + 1
  | none => 0

/-- Each step brings its thread forward. -/
theorem doitStep_taken {loc : Loc} {next : Memory × Loc} (knows : Knows nloop m.counter (some loc))
    (h : doitStep nloop t m loc = some next)
    : taken nloop (some next.2) = taken nloop (some loc) + 1 := by
  cases loc with
  | test i =>
      cases h
      simp only [Knows] at knows
      by_cases more : i < nloop
      · simp [taken, more]
      · simp [taken, more]
        omega
  | lock i =>
      simp only [doitStep, Option.ite_none_right_eq_some] at h
      obtain ⟨_, h⟩ := h
      cases h
      rfl
  | returned => cases h
  | fetch i | print i val | store i val | unlock i =>
      cases h
      rfl

/-- Every step goes forward. -/
theorem forward_taken
    : Forward (doit nloop) (Inv nloop) (fun _ place => both (taken nloop) place) 0 where
  created {memory place} t new _ := by
    have := both_update (taken nloop) place t (some (.test 0))
    simp only [new, taken] at this
    show _ ≤ both (taken nloop) (Function.update place t (some (.test 0)))
    omega
  performed {memory place} t {loc next} here h inv := by
    have sum := both_update (taken nloop) place t (some next.2)
    have knows := inv.knows t
    rw [here] at knows sum
    have := doitStep_taken knows h
    omega
  woken _ _ impossible := by cases impossible

/-- The steps of a whole thread. -/
theorem taken_le {counter : Nat} {loc : Option Loc} (knows : Knows nloop counter loc)
    : taken nloop loc ≤ 6 * nloop + 1 := by
  rcases loc with _ | loc
  · exact Nat.zero_le _
  · cases loc <;> simp only [Knows] at knows <;> simp only [taken] <;> omega

/-- A thread that has not returned can take a step where the lock is free or its own. -/
theorem doitStep_isSome {loc : Loc} (going : loc ≠ .returned)
    (mutex : m.counter_mutex = none ∨ Holds (some loc))
    : (doitStep nloop t m loc).isSome := by
  cases loc with
  | test i | fetch i | print i val | store i val | unlock i => rfl
  | lock i =>
      rcases mutex with free | holds
      · simp [doitStep, free]
      · exact absurd holds id
  | returned => exact absurd rfl going

/-- Unless the program has exited, something can happen: the thread with the lock can go on, and
where no thread has it, each of them can.
-/
theorem goes_on {s : State Memory Loc} (joins : Joins (doit nloop) s.main s.place)
    (inv : Inv nloop s.memory s.place) (running : s.main ≠ .exited)
    : ∃ event, (step (doit nloop) s event).isSome := by
  have goes : ∀ t loc, s.place t = some loc → (doitStep nloop t s.memory loc).isSome
      → ∃ event, (step (doit nloop) s event).isSome := by
    intro t loc here performs
    refine ⟨.thread t, ?_⟩
    simpa [step, running, State.stepThread, here, doit] using performs
  cases stuck : s.stepMain (doit nloop) with
  | some s' => exact ⟨.main, by simp [step, stuck]⟩
  | none =>
      obtain ⟨exist, t, going⟩ := joins.waits running stuck
      cases mutex : s.memory.counter_mutex with
      | none =>
          obtain ⟨loc, here⟩ := Option.ne_none_iff_exists'.mp (exist t)
          rw [here] at going
          refine goes t loc here (doitStep_isSome ?_ (.inl mutex))
          rintro rfl
          exact going rfl
      | some u =>
          have holds := (inv.mutex u).mpr mutex
          obtain ⟨loc, here⟩ := Option.ne_none_iff_exists'.mp (exist u)
          rw [here] at holds
          refine goes u loc here (doitStep_isSome ?_ (.inr holds))
          rintro rfl
          exact holds

/-- Whatever the scheduling: the lines are numbered 1, 2, 3 and so on; no run is stuck, and none
is longer than the code of `main` and of two threads; and when the program exits, the counter and
the number of lines are twice `NLOOP`, and each thread has printed half of them.
-/
theorem run_counts (nloop : Nat) (events : List Event) (s : State Memory Loc)
    (h : runEvents (step (doit nloop)) { memory := {} } events = some s)
    : s.memory.printed.map Prod.snd = List.range' 1 s.memory.printed.length
      ∧ events.length ≤ 12 * nloop + 6
      ∧ (s.main ≠ .exited → ∃ event, (step (doit nloop) s event).isSome)
      ∧ (s.main = .exited → s.memory.counter = 2 * nloop
        ∧ s.memory.printed.length = 2 * nloop
        ∧ ∀ t, (s.memory.printedBy t).length = nloop) := by
  obtain ⟨joins, inv⟩ := kept_inv.reachable start_inv ⟨events, h⟩
  refine ⟨inv.ordered, ?_, goes_on joins inv, fun exited => ?_⟩
  · have gone := forward_taken.length_le kept_inv start_inv h
    have takenA := taken_le (inv.knows .tidA)
    have takenB := taken_le (inv.knows .tidB)
    have main : s.main.rank ≤ 4 := by cases s.main <;> simp [Main.rank]
    simp only [both] at gone
    omega
  · rw [exited] at joins
    have done : ∀ t, s.place t = some .returned := joins.exited
    refine ⟨?_, ?_, fun t => ?_⟩
    · rw [inv.counter]
      simp only [both, done, stores]
      omega
    · rw [inv.printed]
      simp only [both, done, lines, stores]
      omega
    · rw [inv.printedBy, done]
      rfl

/-- Two threads that each go round once, the second while the first has the lock. -/
def oneRound : List Event :=
  [.main, .main, .thread .tidA, .thread .tidB, .thread .tidA, .thread .tidA, .thread .tidA,
    .thread .tidA, .thread .tidA, .thread .tidB, .thread .tidB, .thread .tidB, .thread .tidB,
    .thread .tidB, .thread .tidA, .thread .tidB, .main, .main]

/-- The sample run can be made. -/
theorem oneRound_isSome : (runEvents (step (doit 1)) { memory := {} } oneRound).isSome := by
  decide +kernel

/-- Witness: the program has exited, and the counter is 2. -/
theorem run_counts_oneRound
    : ((runEvents (step (doit 1)) { memory := {} } oneRound).get
        oneRound_isSome).memory.counter = 2 :=
  ((run_counts 1 oneRound _ (Option.some_get oneRound_isSome).symm).2.2.2 (by decide +kernel)).1

end Minions.Unp.CounterMutex
