import Minions.Unp.TwoThreads

/-! Two threads that increment one counter: `threads/example01.c`, without a lock, and
`threads/example02.c`, with one. `NLOOP` is a parameter.
-/

namespace Minions.Unp.CounterThreads

open Minions.Logic Minions.Unp.TwoThreads

-----------------------------------------------------------------------------------------
-- `example01.c`
-----------------------------------------------------------------------------------------

/-- Where a thread is in `doit`, with its local variables. -/
inductive Loc where
  /-- At the test of the loop; if it holds, the counter is fetched. -/
  | test (i : Nat)
  | print (i val : Nat)
  | store (i val : Nat)
  | returned
deriving DecidableEq

/-- The counter, and the lines printed. -/
structure Memory where
  counter : Nat := 0
  printed : List (Tid × Nat) := []

/-- One step of `doit`. -/
def doitStep (nloop : Nat) (t : Tid) (m : Memory) : Loc → Option (Memory × Loc)
  | .test i => some (m, if i < nloop then .print i m.counter else .returned)
  | .print i val => some ({ m with printed := m.printed ++ [(t, val + 1)] }, .store i val)
  | .store i val => some ({ m with counter := val + 1 }, .test (i + 1))
  | .returned => none

def doit (nloop : Nat) : Code Memory Loc where
  start := .test 0
  returned := .returned
  perform := doitStep nloop
  ends _ _ := rfl

variable {nloop : Nat}

/-- The number of times that a thread has stored. -/
def stores (nloop : Nat) : Option Loc → Nat
  | some (.test i) => i
  | some (.print i _) => i
  | some (.store i _) => i
  | some .returned => nloop
  | none => 0

/-- The value that a thread has fetched and not yet stored. -/
def held : Option Loc → Option Nat
  | some (.print _ val) => some val
  | some (.store _ val) => some val
  | _ => none

/-- The number of stores so far. -/
def total (nloop : Nat) (place : Tid → Option Loc) : Nat :=
  both (stores nloop) place

/-- What the counter has to do with the stores. A thread that holds 0 has not stored before; so
where the counter is at most 1, the last store, or none, was some thread's first.
-/
structure Inv (nloop : Nat) (m : Memory) (place : Tid → Option Loc) : Prop where
  loops : ∀ t, stores nloop (place t) ≤ nloop
  going : ∀ t, held (place t) ≠ none → stores nloop (place t) < nloop
  upper : m.counter ≤ total nloop place
  heldUpper : ∀ t, ∀ val ∈ held (place t), val ≤ total nloop place
  heldZero : ∀ t, 0 ∈ held (place t) → stores nloop (place t) = 0
  zero : m.counter = 0 → ∀ t, stores nloop (place t) = 0
  low : m.counter ≤ 1 → ∃ t, stores nloop (place t) ≤ 1

variable {m m' : Memory} {place : Tid → Option Loc} {t : Tid}

/-- The invariant holds at the start. -/
theorem start_inv : Inv nloop {} fun _ => none where
  loops t := Nat.zero_le _
  going t holds := absurd rfl holds
  upper := Nat.zero_le _
  heldUpper t val member := by cases member
  heldZero t member := by cases member
  zero _ t := rfl
  low _ := ⟨.tidA, Nat.zero_le _⟩

/-- A thread that stores nothing goes to another place. -/
theorem Inv.move (inv : Inv nloop m place) {loc : Loc} (counter : m'.counter = m.counter)
    (same : stores nloop (some loc) = stores nloop (place t))
    (going : held (some loc) ≠ none → stores nloop (some loc) < nloop)
    (upper : ∀ val ∈ held (some loc), val ≤ total nloop place)
    (zero : 0 ∈ held (some loc) → stores nloop (some loc) = 0)
    : Inv nloop m' (Function.update place t (some loc)) := by
  have sum : total nloop (Function.update place t (some loc)) = total nloop place := by
    have : total nloop _ + _ = total nloop _ + _ := both_update (stores nloop) place t (some loc)
    omega
  have all : ∀ u, stores nloop (Function.update place t (some loc) u) = stores nloop (place u) := by
    intro u
    by_cases here : u = t
    · subst here
      rw [Function.update_self, same]
    · rw [Function.update_of_ne here]
  refine ⟨fun u => ?_, ?_, ?_, ?_, ?_, ?_, ?_⟩
  · rw [all]
    exact inv.loops u
  · exact forall_update (Q := fun _ loc => held loc ≠ none → stores nloop loc < nloop) going
      fun u _ => inv.going u
  · rw [counter, sum]
    exact inv.upper
  · rw [sum]
    exact forall_update (Q := fun _ loc => ∀ val ∈ held loc, val ≤ total nloop place) upper
      fun u _ => inv.heldUpper u
  · exact forall_update (Q := fun _ loc => 0 ∈ held loc → stores nloop loc = 0) zero
      fun u _ => inv.heldZero u
  · rw [counter]
    intro zero u
    rw [all, inv.zero zero u]
  · rw [counter]
    intro low
    obtain ⟨u, one⟩ := inv.low low
    exact ⟨u, by rw [all]; exact one⟩

/-- A thread stores. -/
theorem Inv.store (inv : Inv nloop m place) {i val : Nat} (here : place t = some (.store i val))
    (counter : m'.counter = val + 1)
    : Inv nloop m' (Function.update place t (some (.test (i + 1)))) := by
  have sum : total nloop (Function.update place t (some (.test (i + 1))))
      = total nloop place + 1 := by
    have : total nloop _ + _ = total nloop _ + _ :=
      both_update (stores nloop) place t (some (.test (i + 1)))
    simp only [here, stores] at this
    omega
  have less : i < nloop := by
    have := inv.going t (by simp [here, held])
    rwa [here] at this
  have bound : val ≤ total nloop place := inv.heldUpper t val (by simp [here, held])
  have first : val = 0 → i = 0 := by
    rintro rfl
    have := inv.heldZero t (by simp [here, held])
    rwa [here] at this
  refine ⟨?_, ?_, by omega, ?_, ?_, fun zero => by omega, fun low => ⟨t, ?_⟩⟩
  · exact forall_update (Q := fun _ loc => stores nloop loc ≤ nloop) less fun u _ => inv.loops u
  · exact forall_update (Q := fun _ loc => held loc ≠ none → stores nloop loc < nloop)
      (fun holds => absurd rfl holds) fun u _ => inv.going u
  · rw [sum]
    refine forall_update (Q := fun _ loc => ∀ val ∈ held loc, val ≤ total nloop place + 1)
      (fun val member => by cases member) fun u _ val member => ?_
    have := inv.heldUpper u val member
    omega
  · exact forall_update (Q := fun _ loc => 0 ∈ held loc → stores nloop loc = 0)
      (fun member => by cases member) fun u _ => inv.heldZero u
  · have zero : i = 0 := first (by omega)
    simp [stores, zero]

/-- No step of any thread breaks what is known. -/
theorem doitStep_inv {loc : Loc} {next : Memory × Loc} (here : place t = some loc)
    (h : doitStep nloop t m loc = some next) (inv : Inv nloop m place)
    : Inv nloop next.1 (Function.update place t (some next.2)) := by
  cases loc with
  | test i =>
      cases h
      by_cases more : i < nloop
      · rw [if_pos more]
        refine inv.move rfl (by simp [here, stores]) (fun _ => more) (fun val member => ?_)
          (fun member => ?_)
        · cases member
          exact inv.upper
        · have zero : m.counter = 0 := by simpa [held, eq_comm] using member
          have := inv.zero zero t
          rwa [here] at this
      · have last := inv.loops t
        rw [here] at last
        simp only [stores] at last
        rw [if_neg more]
        refine inv.move rfl (by simp [here, stores]; omega) (fun holds => absurd rfl holds) ?_ ?_
        · intro val member
          cases member
        · intro member
          cases member
  | print i val =>
      cases h
      refine inv.move rfl (by simp [here, stores]) (fun _ => ?_) (fun val' member => ?_)
        (fun member => ?_)
      · have := inv.going t (by simp [here, held])
        rwa [here] at this
      · cases member
        exact inv.heldUpper t val (by simp [here, held])
      · cases member
        have := inv.heldZero t (by simp [here, held])
        rwa [here] at this
  | store i val =>
      cases h
      exact inv.store here rfl
  | returned => cases h

/-- A thread that is created has stored nothing. -/
theorem create_inv (new : place t = none) (inv : Inv nloop m place)
    : Inv nloop m (Function.update place t (some (.test 0))) := by
  refine inv.move rfl (by rw [new]; rfl) (fun holds => absurd rfl holds) ?_ ?_
  · intro val member
    cases member
  · intro member
    cases member

/-- Every event keeps the invariant. -/
theorem kept_inv : Kept (doit nloop) (Inv nloop) where
  created _ new inv := create_inv new inv
  performed _ _ _ here h inv := doitStep_inv here h inv
  woken _ _ impossible := by cases impossible

-----------------------------------------------------------------------------------------
-- Runs that lose updates
-----------------------------------------------------------------------------------------

/-- Some run leads the threads to the places `locs` and the counter to `c`. -/
def Counts (nloop : Nat) (locs : Tid → Loc) (c : Nat) : Prop :=
  ∃ m, Gets (doit nloop) {} locs m ∧ m.counter = c

variable {locs : Tid → Loc} {c : Nat}

/-- The counter is fetched, and what will be stored is printed. -/
theorem Counts.fetch (counts : Counts nloop locs c) (t : Tid) {i : Nat} (here : locs t = .test i)
    (more : i < nloop)
    : Counts nloop (Function.update locs t (.store i c)) c := by
  obtain ⟨m, gets, rfl⟩ := counts
  have fetches : (doit nloop).perform t m (locs t) = some (m, .print i m.counter) := by
    simp [doit, doitStep, here, more]
  have fetched := gets.perform t fetches
  have printed := fetched.perform t (by rw [Function.update_self]; rfl)
  rw [Function.update_idem] at printed
  exact ⟨_, printed, rfl⟩

/-- A store of the counter keeps the counts. -/
theorem Counts.store (counts : Counts nloop locs c) (t : Tid) {i val : Nat}
    (here : locs t = .store i val)
    : Counts nloop (Function.update locs t (.test (i + 1))) (val + 1) := by
  obtain ⟨m, gets, rfl⟩ := counts
  exact ⟨_, gets.perform t (by rw [here]; rfl), rfl⟩

/-- A thread that is not disturbed counts, by induction on the rounds. -/
theorem Counts.rounds (counts : Counts nloop locs c) (t : Tid) {i : Nat} (here : locs t = .test i)
    (k : Nat) (room : i + k ≤ nloop)
    : Counts nloop (Function.update locs t (.test (i + k))) (c + k) := by
  induction k with
  | zero =>
      rw [Nat.add_zero, ← here, Function.update_eq_self]
      exact counts
  | succ k ih =>
      have before := ih (by omega)
      have fetched := before.fetch t (Function.update_self ..) (by omega)
      rw [Function.update_idem] at fetched
      have stored := fetched.store t (Function.update_self ..)
      rwa [Function.update_idem] at stored

/-- A thread whose loop is done returns. -/
theorem Counts.return (counts : Counts nloop locs c) (t : Tid) (here : locs t = .test nloop)
    : Counts nloop (Function.update locs t .returned) c := by
  obtain ⟨m, gets, rfl⟩ := counts
  have returns : (doit nloop).perform t m (locs t) = some (m, .returned) := by
    simp [doit, doitStep, here]
  exact ⟨m, gets.perform t returns, rfl⟩

/-- The counts of the threads at their start. -/
theorem counts_created : Counts nloop (fun _ => .test 0) 0 :=
  ⟨_, gets_created (doit nloop) {}, rfl⟩

/-- Both threads return, and `main` exits. -/
theorem Counts.exits (counts : Counts nloop locs c) (done : ∀ t, locs t = .test nloop)
    : ∃ s, Reachable (step (doit nloop)) { memory := {} } s ∧ s.main = .exited
      ∧ s.memory.counter = c := by
  obtain ⟨m, gets, rfl⟩ := (counts.return .tidA (done .tidA)).return .tidB (by simp [done])
  obtain ⟨s, run, exited, memory⟩ := gets.exits (fun t => by cases t <;> simp [doit])
  exact ⟨s, run, exited, by rw [memory]⟩

/-- The first thread stores 1 over `lost` rounds of the second, and nothing else is lost. -/
theorem exits_over_rounds {lost : Nat} (once : 1 ≤ nloop) (most : lost ≤ nloop)
    : ∃ s, Reachable (step (doit nloop)) { memory := {} } s ∧ s.main = .exited
      ∧ s.memory.counter = 2 * nloop - lost := by
  have fetched := counts_created.fetch .tidA rfl once
  have before := fetched.rounds .tidB rfl lost (by omega)
  have stored := before.store .tidA rfl
  have second := stored.rounds .tidB rfl (nloop - lost) (by omega)
  have first := second.rounds .tidA rfl (nloop - 1) (by omega)
  obtain ⟨s, run, exited, counter⟩ := first.exits (fun t => by cases t <;> simp <;> omega)
  exact ⟨s, run, exited, by omega⟩

/-- The first thread stores 1 over all rounds of the second but the last; that one fetches 1 and
stores 2 over `lost` more rounds of the first.
-/
theorem exits_two_stores {lost : Nat} (most : lost + 1 ≤ nloop)
    : ∃ s, Reachable (step (doit nloop)) { memory := {} } s ∧ s.main = .exited
      ∧ s.memory.counter = nloop + 1 - lost := by
  have once : 1 ≤ nloop := by omega
  have fetched := counts_created.fetch .tidA rfl once
  have before := fetched.rounds .tidB rfl (nloop - 1) (by omega)
  have stored := before.store .tidA rfl
  have again := stored.fetch .tidB rfl (by omega)
  have between := again.rounds .tidA rfl lost (by omega)
  have last := between.store .tidB rfl
  have first := last.rounds .tidA rfl (nloop - 1 - lost) (by omega)
  obtain ⟨s, run, exited, counter⟩ := first.exits (fun t => by cases t <;> simp <;> omega)
  exact ⟨s, run, exited, by omega⟩

/-- Whatever the scheduling, the program exits with a counter between 2 and twice `NLOOP` (where
the loop runs more than once), and each of these values is that of some run.
-/
theorem exits_iff (nloop v : Nat)
    : (∃ s, Reachable (step (doit nloop)) { memory := {} } s ∧ s.main = .exited
        ∧ s.memory.counter = v)
      ↔ min nloop 2 ≤ v ∧ v ≤ 2 * nloop := by
  constructor
  · rintro ⟨s, run, exited, rfl⟩
    obtain ⟨joins, inv⟩ := kept_inv.reachable start_inv run
    rw [exited] at joins
    have done : ∀ t, stores nloop (s.place t) = nloop := by
      intro t
      rw [joins.exited t]
      rfl
    have sum : total nloop s.place = 2 * nloop := by
      simp only [total, both, done]
      omega
    refine ⟨?_, by have := inv.upper; omega⟩
    by_contra less
    obtain ⟨t, one⟩ := inv.low (by omega)
    rw [done] at one
    have := inv.zero (by omega) t
    rw [done] at this
    omega
  · rintro ⟨least, most⟩
    by_cases high : nloop ≤ v
    · by_cases empty : nloop = 0
      · subst empty
        obtain ⟨s, run, exited, counter⟩ := (@counts_created 0).exits fun _ => rfl
        exact ⟨s, run, exited, by omega⟩
      · obtain ⟨s, run, exited, counter⟩ := @exits_over_rounds nloop (2 * nloop - v)
          (by omega) (by omega)
        exact ⟨s, run, exited, by omega⟩
    · obtain ⟨s, run, exited, counter⟩ := @exits_two_stores nloop (nloop + 1 - v)
        (by omega)
      exact ⟨s, run, exited, by omega⟩

end Minions.Unp.CounterThreads
