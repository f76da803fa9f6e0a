import Minions.Unp.Web03

/-! Whether the threads of `web03.c` can come to wait for one another.
`main` joins every thread that it finds marked as done while it holds the mutex. A thread that
has stored `F_DONE` and not yet locked the mutex waits for `main` then, and `main` for it.
-/

namespace Minions.Unp.Web03

open Minions.Data Minions.Logic Minions.Unp.WebThreads

variable {nfiles : Nat} {s s' : Client nfiles} {event : Event nfiles} {i : Fin nfiles} {f : File}

-----------------------------------------------------------------------------------------
-- Who can go on
-----------------------------------------------------------------------------------------

/-- `main` or a thread can take a step, or a thread is waiting for its server. -/
def Live (s : Client nfiles) : Prop :=
  (mainStep s).isSome
  ∨ ∃ i, (threadStep true s i).isSome ∨ (s.file i).thread = .connecting
    ∨ (s.file i).thread = .reading

instance (s : Client nfiles) : Decidable (Live s) := by
  unfold Live
  infer_instance

/-- A thread in its critical section can go on. -/
theorem threadStep_of_holds (holds : (s.file i).thread.holds)
    : (threadStep true s i).isSome := by
  unfold threadStep
  cases at_ : (s.file i).thread <;> simp_all [ThreadLoc.holds]

/-- While `main` is outside its critical section, the mutex is free or a thread that can go on
holds it.
-/
theorem free_or_live (guarded : Guarded s) (outside : s.loc.holds = false)
    : s.mutex = none ∨ Live s := by
  cases mutex : s.mutex with
  | none => exact .inl rfl
  | some owner =>
      cases owner with
      | main =>
          have inside := guarded.main.mp mutex
          rw [outside] at inside
          cases inside
      | thread j =>
          have holds := (guarded.threads j).mp mutex
          exact .inr (.inr ⟨j, .inl (threadStep_of_holds holds)⟩)

/-- A thread that has not returned can go on, or waits for its server or for one that can. -/
theorem live_of_out (guarded : Guarded s) (outside : s.loc.holds = false) (out : (s.file i).out)
    (unreturned : (s.file i).thread ≠ .returned)
    : Live s := by
  cases at_ : (s.file i).thread with
  | absent => simp [File.out, at_] at out
  | joined => simp [File.out, at_] at out
  | returned => exact absurd at_ unreturned
  | connecting => exact .inr ⟨i, .inr (.inl at_)⟩
  | reading => exact .inr ⟨i, .inr (.inr at_)⟩
  | locking =>
      rcases free_or_live guarded outside with free | live
      · refine .inr ⟨i, .inl ?_⟩
        simp [threadStep, at_, free]
      · exact live
  | _ =>
      refine .inr ⟨i, .inl ?_⟩
      simp [threadStep, at_]

/-- A thread that `main` is about to join has returned. -/
def JoinsReturned (s : Client nfiles) : Prop :=
  ∀ i rest, s.loc = .join i rest → (s.file i).thread = .returned

/-- By where `main` is: it waits for the mutex, for a signal or for a thread. -/
theorem live_of_inv (inv : Inv s) (joins : JoinsReturned s) (unread : 0 < s.nlefttoread)
    : Live s := by
  have placed := inv.placed
  cases here : s.loc with
  | lock =>
      rcases free_or_live inv.guarded (by rw [here]; rfl) with free | live
      · exact .inl (by simp [mainStep, here, lockStep, free])
      · exact live
  | woken =>
      rcases free_or_live inv.guarded (by rw [here]; rfl) with free | live
      · exact .inl (by simp [mainStep, here, lockStep, free])
      · exact live
  | waiting =>
      simp only [Placed, here] at placed
      have count := inv.counts.nconn
      simp only [here, Loc.pending] at count
      have some_ : 0 < tally File.out s.file := by omega
      obtain ⟨i, out⟩ := tally_pos_iff.mp some_
      exact live_of_out inv.guarded (by rw [here]; rfl) out (placed.2 i).2
  | join i rest =>
      have returned := joins i rest here
      exact .inl (by simp [mainStep, here, joinStep, returned])
  | exit =>
      simp only [Placed, here] at placed
      omega
  | quit => simp [Placed, here] at placed
  | find rest => cases rest <;> exact .inl (by simp [mainStep, here, loopStep])
  | scan rest => cases rest <;> exact .inl (by simp [mainStep, here, joinStep])
  | _ => exact .inl (by simp [mainStep, here, loopStep, joinStep])

/-- A join is of a thread that was found done. -/
theorem joinStep_join {rest : List (Fin nfiles)} (h : joinStep s = some s')
    (there : s'.loc = .join i rest)
    : s.loc = .scan (i :: rest) ∧ (s.file i).fFlags = .done
      ∧ s' = { s with loc := .join i rest } := by
  simp only [joinStep] at h
  split at h
  · cases h
    cases there
  · next j later here =>
      cases h
      dsimp only at there
      split at there
      · next done =>
          cases there
          exact ⟨here, done, by rw [if_pos done]⟩
      · cases there
  · split at h <;> cases h
    cases there
  · cases h
    cases there
  · cases h
    cases there
  · cases h
    cases there
  · cases h
    cases there
  · cases h

/-- The loop without joins does not join. -/
theorem loopStep_joining (h : loopStep .mark s = some s') : s'.loc.joining = false := by
  simp only [loopStep] at h
  split at h
  · cases h
    exact (apply_ite Loc.joining _ _ _).trans (ite_self _)
  · cases h
    exact (apply_ite Loc.joining _ _ _).trans (ite_self _)
  · cases h
    rfl
  · cases h
    exact (apply_ite Loc.joining _ _ _).trans (ite_self _)
  · cases h

/-- A step on the mutex is no join. -/
theorem lockStep_joining (h : lockStep s = some s') : s'.loc.joining = false := by
  unfold lockStep at h
  split at h <;> cases h
  rfl

/-- `main` enters the loop that joins where it finds that a thread has counted itself. -/
theorem mainStep_joining (h : mainStep s = some s') (joining : s'.loc.joining)
    : joinStep s = some s'
      ∨ s.loc = .test ∧ s.ndone ≠ 0 ∧ s' = { s with loc := .scan (List.finRange nfiles) } := by
  simp only [mainStep] at h
  split at h
  · cases h
    cases joining
  · cases h
    cases joining
  · rw [lockStep_joining h] at joining
    cases joining
  · next here =>
      cases h
      by_cases none_ : s.ndone = 0
      · simp only [if_pos none_] at joining
        cases joining
      · exact .inr ⟨here, none_, by rw [if_neg none_]⟩
  · cases h
    cases joining
  · cases h
  · rw [lockStep_joining h] at joining
    cases joining
  · rw [loopStep_joining h] at joining
    cases joining
  · rw [loopStep_joining h] at joining
    cases joining
  · rw [loopStep_joining h] at joining
    cases joining
  · exact .inl h

/-- `main` is about to join a thread only where it has found the file marked as done. -/
theorem mainStep_join {rest : List (Fin nfiles)} (h : mainStep s = some s')
    (there : s'.loc = .join i rest)
    : s.loc = .scan (i :: rest) ∧ (s.file i).fFlags = .done
      ∧ s' = { s with loc := .join i rest } := by
  rcases mainStep_joining h (by rw [there]; rfl) with h | ⟨-, -, rfl⟩
  · exact joinStep_join h there
  · cases there

/-- While `main` is in its critical section, a thread that has stored `F_DONE` waits for the
mutex or has returned.
-/
theorem locking_or_returned (guarded : Guarded s) (inside : s.loc.holds)
    (finished : (s.file i).thread.finished)
    : (s.file i).thread = .locking ∨ (s.file i).thread = .returned := by
  have outside := guarded.excluded inside i
  cases at_ : (s.file i).thread <;> simp_all [ThreadLoc.finished, ThreadLoc.holds]

/-- `main` does not look at a file whose thread has stored `F_DONE` and waits for the mutex. -/
def Orderly (s : Client nfiles) : Event nfiles → Prop
  | .main =>
      match s.loc with
      | .scan (i :: _) => (s.file i).thread ≠ .locking
      | _ => True
  | _ => True

instance (s : Client nfiles) : (event : Event nfiles) → Decidable (Orderly s event)
  | .main =>
      match at_ : s.loc with
      | .scan (i :: _) => decidable_of_iff ((s.file i).thread ≠ .locking) (by rw [Orderly, at_])
      | .scan [] | .outer | .inner | .find _ | .mark _ | .create _ | .lock | .test | .wait
      | .waiting | .woken | .join _ _ | .settle _ _ | .load _ | .store _ _ | .unlock | .exit
      | .quit =>
          .isTrue (by rw [Orderly, at_]; trivial)
  | .thread _ | .server _ _ | .wakeup => .isTrue trivial

/-- A thread that has returned takes no step. -/
theorem thread_moves_ne_returned (h : threadStep true s i = some s')
    : (s.file i).thread ≠ .returned := by
  intro returned
  simp [threadStep, returned] at h

/-- Under the condition `main` joins only threads that have returned. -/
theorem step_joins (orderly : Orderly s event) (h : step s event = some s') (inv : Inv s)
    (joins : JoinsReturned s)
    : JoinsReturned s' := by
  intro i rest there
  cases event with
  | thread j =>
      obtain ⟨f, moves⟩ := threadStep_moves h
      rcases moves.loc with same | ⟨-, woken⟩
      · have returned := joins i rest (same.symm.trans there)
        have other : i ≠ j := by
          rintro rfl
          exact thread_moves_ne_returned h returned
        rwa [moves.file, Function.update_of_ne other]
      · rw [woken] at there
        cases there
  | server j n =>
      rcases serverStep_moves h with rfl | ⟨thread, rfl, moves⟩
      · exact joins i rest there
      · have returned := joins i rest there
        have other : i ≠ j := by
          rintro rfl
          rcases moves with ⟨at_, -⟩ | ⟨at_, -⟩ <;> simp [at_] at returned
        simpa [Client.setFile, Function.update_of_ne other] using returned
  | wakeup =>
      simp only [step] at h
      split at h <;> cases h
      cases there
  | main =>
      obtain ⟨here, done, rfl⟩ := mainStep_join h there
      simp only [Orderly, here] at orderly
      have finished := (inv.flags i).finished done (by simp [here, Loc.settles])
      have inside : s.loc.holds := by simp [here, Loc.holds]
      exact (locking_or_returned inv.guarded inside finished).resolve_left orderly

-----------------------------------------------------------------------------------------
-- One thread at a time
-----------------------------------------------------------------------------------------

/-- While `main` joins, every thread that is out has returned. -/
def Settled (s : Client nfiles) : Prop :=
  s.loc.joining → ∀ i, (s.file i).out → (s.file i).thread = .returned

/-- In a settled state every join returns. -/
theorem Settled.joins (settled : Settled s) (inv : Inv s) : JoinsReturned s := by
  intro i rest here
  have ok := inv.loc
  rw [here] at ok
  exact settled (by rw [here]; rfl) i (by simpa [File.out] using ThreadLoc.finished_ne ok)

/-- The joins stay settled. -/
theorem settled_joinStep (settled : Settled s) (h : joinStep s = some s') : Settled s' := by
  intro joining
  simp only [joinStep] at h
  split at h
  · cases h
    cases joining
  · next here =>
      cases h
      exact settled (by rw [here]; rfl)
  · next i rest here =>
      split at h <;> cases h
      refine forall_setFile (P := fun _ f => f.out → f.thread = .returned) ?_ ?_
      · simp [File.out]
      · exact fun j _ => settled (by rw [here]; rfl) j
  · next i rest here =>
      cases h
      refine forall_setFile (P := fun _ f => f.out → f.thread = .returned) ?_ ?_
      · exact settled (by rw [here]; rfl) i
      · exact fun j _ => settled (by rw [here]; rfl) j
  · next here =>
      cases h
      exact settled (by rw [here]; rfl)
  · next here =>
      cases h
      exact settled (by rw [here]; rfl)
  · cases h
    cases joining
  · cases h

/-- The loop that joins begins with a thread that has counted itself, and no other is out. -/
theorem settled_test (inv : Inv s) (one : tally File.out s.file ≤ 1) (here : s.loc = .test)
    (some_ : s.ndone ≠ 0) {rest : List (Fin nfiles)}
    : Settled { s with loc := .scan rest } := by
  intro _ j out
  have count := inv.guarded.ndone
  simp only [here, Loc.pending] at count
  have positive : 0 < tally File.counted s.file := by omega
  obtain ⟨i, counted⟩ := tally_pos_iff.mp positive
  have finished := ThreadLoc.counted_finished counted
  have inside : s.loc.holds := by simp [here, Loc.holds]
  have returned : (s.file i).thread = .returned := by
    rcases locking_or_returned inv.guarded inside finished with locking | returned
    · simp [File.counted, locking, ThreadLoc.counted] at counted
    · exact returned
  have same : i = j :=
    eq_of_tally_le_one one (by simp [File.out, returned]) out
  subst same
  exact returned

/-- Every step keeps it where at most one thread is out, by the kind of event. -/
theorem step_settled (inv : Inv s) (one : tally File.out s.file ≤ 1)
    (h : step s event = some s') (settled : Settled s)
    : Settled s' := by
  cases event with
  | thread i =>
      intro joining
      obtain ⟨f, moves⟩ := threadStep_moves h
      have out : (s.file i).out := by simpa [File.out] using moves.out.1
      rcases moves.loc with same | ⟨-, woken⟩
      · rw [same] at joining
        exact absurd (settled joining i out) (thread_moves_ne_returned h)
      · rw [woken] at joining
        cases joining
  | server i n =>
      intro joining
      rcases serverStep_moves h with rfl | ⟨thread, rfl, moves⟩
      · exact settled joining
      · have returned := settled joining i
        rcases moves with ⟨at_, -⟩ | ⟨at_, -⟩ <;> simp [File.out, at_] at returned
  | wakeup =>
      simp only [step] at h
      split at h <;> cases h
      intro joining
      cases joining
  | main =>
      intro joining
      rcases mainStep_joining h joining with h | ⟨here, some_, rfl⟩
      · exact settled_joinStep settled h joining
      · exact settled_test inv one here some_ joining

/-- No step changes `maxnconn`. -/
theorem step_maxnconn (h : step s event = some s') : s'.maxnconn = s.maxnconn := by
  cases event with
  | thread i =>
      obtain ⟨f, moves⟩ := threadStep_moves h
      exact moves.counters.maxnconn
  | server i n =>
      rcases serverStep_moves h with rfl | ⟨thread, rfl, -⟩ <;> rfl
  | wakeup =>
      simp only [step] at h
      split at h <;> cases h
      rfl
  | main =>
      simp only [step, mainStep, lockStep, loopStep, joinStep] at h
      repeat' split at h
      all_goals cases h
      all_goals rfl

-----------------------------------------------------------------------------------------
-- A schedule that blocks
-----------------------------------------------------------------------------------------

/-- The invariant holds of all that can be reached. -/
theorem Inv.reach (inv : Inv s) (h : Reachable step s s') : Inv s' :=
  h.invariant inv step_inv

/-- The search meets a file without a thread, by induction on the files to come. -/
theorem reach_mark {rest : List (Fin nfiles)} (inv : Inv s) (here : s.loc = .find rest)
    : ∃ i, (s.file i).thread = .absent ∧ Reachable step s { s with loc := .mark i } := by
  induction rest generalizing s with
  | nil =>
      have placed := inv.placed
      simp [Placed, here] at placed
  | cons i rest ih =>
      by_cases zero : (s.file i).fFlags = .zero
      · have goes : step s .main = some { s with loc := .mark i } := by
          simp [step, mainStep, here, loopStep, zero]
        exact ⟨i, (inv.flags i).absent zero (by simp [here]), .single goes⟩
      · have goes : step s .main = some { s with loc := .find rest } := by
          simp [step, mainStep, here, loopStep, zero]
        obtain ⟨j, absent, later⟩ := ih (step_inv goes inv) rfl
        exact ⟨j, absent, (Reachable.single goes).trans later⟩

/-- `main` has started the thread of a file. -/
def started (s : Client nfiles) (i : Fin nfiles) : Client nfiles :=
  { s.setFile i
      { fFlags := .connecting, thread := .connecting, starts := (s.file i).starts + 1 } with
    nconn := s.nconn + 1
    nlefttoconn := s.nlefttoconn - 1
    loc := .inner }

/-- `main` starts the thread of some file. -/
theorem reach_started (inv : Inv s) (here : s.loc = .inner) (few : s.nconn < s.maxnconn)
    (left : 0 < s.nlefttoconn)
    : ∃ i, (s.file i).thread = .absent ∧ Reachable step s (started s i) := by
  have goes : step s .main = some { s with loc := .find (List.finRange nfiles) } := by
    simp [step, mainStep, here, loopStep, few, left]
  obtain ⟨i, absent, found⟩ := reach_mark (step_inv goes inv) rfl
  refine ⟨i, absent, (Reachable.single goes).trans (found.trans ⟨[.main, .main], ?_⟩)⟩
  simp [runEvents, step, mainStep, Client.setFile, started]

/-- `main` starts as many threads as it can and then locks the mutex, by induction on the files
without a thread.
-/
theorem reach_lock (inv : Inv s) (here : s.loc = .inner)
    : ∃ s', Reachable step s s' ∧ s'.loc = .lock ∧ s'.mutex = s.mutex
        ∧ ∀ i, (s.file i).thread ≠ .absent → s'.file i = s.file i := by
  induction left : tally File.absent s.file generalizing s with
  | zero =>
      have goes : step s .main = some { s with loc := .lock } := by
        simp [step, mainStep, here, loopStep, inv.counts.nlefttoconn, left]
      exact ⟨_, .single goes, rfl, rfl, fun _ _ => rfl⟩
  | succ n ih =>
      have positive : 0 < s.nlefttoconn := by
        rw [inv.counts.nlefttoconn]
        omega
      by_cases few : s.nconn < s.maxnconn
      · obtain ⟨i, absent, starts⟩ := reach_started inv here few positive
        have fewer : tally File.absent (started s i).file = n := by
          have := tally_update File.absent s.file i
            { fFlags := .connecting, thread := .connecting, starts := (s.file i).starts + 1 }
          simp only [File.absent, absent] at this
          simpa [started, Client.setFile, left] using this
        obtain ⟨s', later, there, mutex, same⟩ := ih (inv.reach starts) rfl fewer
        refine ⟨s', starts.trans later, there, mutex, fun j present => ?_⟩
        have other : j ≠ i := by
          rintro rfl
          exact present absent
        have kept : (started s i).file j = s.file j := by
          simp [started, Client.setFile, Function.update_of_ne other]
        rw [same j (by rwa [kept]), kept]
      · have goes : step s .main = some { s with loc := .lock } := by
          simp [step, mainStep, here, loopStep, few]
        exact ⟨_, .single goes, rfl, rfl, fun _ _ => rfl⟩

/-- Whatever `main` does, a thread comes to where it locks the mutex when its server closes the
connection.
-/
theorem reach_locking (unfinished : (s.file i).unfinished)
    : Reachable step s
        (s.setFile i { fFlags := .done, thread := .locking, starts := (s.file i).starts }) := by
  cases at_ : (s.file i).thread with
  | connecting =>
      refine ⟨[.server i 0, .thread i, .server i 0, .thread i], ?_⟩
      simp [runEvents, step, serverStep, threadStep, Client.setFile, at_]
  | sending =>
      refine ⟨[.thread i, .server i 0, .thread i], ?_⟩
      simp [runEvents, step, serverStep, threadStep, Client.setFile, at_]
  | reading =>
      refine ⟨[.server i 0, .thread i], ?_⟩
      simp [runEvents, step, serverStep, threadStep, Client.setFile, at_]
  | closing =>
      refine ⟨[.thread i], ?_⟩
      simp [runEvents, step, threadStep, Client.setFile, at_]
  | _ => simp [File.unfinished, at_] at unfinished

/-- A thread counts itself and returns, where nobody holds the mutex. -/
theorem reach_returned (at_ : (s.file i).thread = .locking) (free : s.mutex = none)
    (awake : s.loc ≠ .waiting)
    : Reachable step s
        { s.setFile i { s.file i with thread := .returned } with
          ndone := s.ndone + 1, mutex := none } := by
  refine ⟨[.thread i, .thread i, .thread i, .thread i, .thread i], ?_⟩
  simp [runEvents, step, threadStep, Client.setFile, at_, free, awake]

/-- `main` is about to join a thread that waits for the mutex. -/
def Blocked (s : Client nfiles) : Prop :=
  ∃ i rest, s.loc = .join i rest ∧ (s.file i).thread = .locking

/-- The loop that joins comes to a thread that waits for the mutex, by induction on the files to
come. It joins the threads before that have returned.
-/
theorem reach_blocked {rest : List (Fin nfiles)} (inv : Inv s) (here : s.loc = .scan rest)
    {j : Fin nfiles} (member : j ∈ rest) (locking : (s.file j).thread = .locking)
    : ∃ s', Reachable step s s' ∧ Blocked s' := by
  induction rest generalizing s with
  | nil => cases member
  | cons i rest ih =>
      by_cases done : (s.file i).fFlags = .done
      · have goes : step s .main = some { s with loc := .join i rest } := by
          simp [step, mainStep, here, joinStep, done]
        have finished := (inv.flags i).finished done (by simp [here, Loc.settles])
        have inside : s.loc.holds := by simp [here, Loc.holds]
        rcases locking_or_returned inv.guarded inside finished with waits | returned
        · exact ⟨_, .single goes, i, rest, rfl, waits⟩
        · have other : j ≠ i := by
            rintro rfl
            rw [locking] at returned
            cases returned
          have joins : Reachable step s
              { s.setFile i { s.file i with thread := .joined, fFlags := .joined } with
                ndone := s.ndone - 1
                nconn := s.nconn - 1
                nlefttoread := s.nlefttoread - 1
                loc := .scan rest } := by
            refine (Reachable.single goes).trans ⟨[.main, .main, .main, .main], ?_⟩
            simp [runEvents, step, mainStep, joinStep, Client.setFile, returned]
          have later : j ∈ rest := (List.mem_cons.mp member).resolve_left other
          obtain ⟨s', reached, blocked⟩ :=
            ih (inv.reach joins) rfl later (by simpa [Client.setFile, other] using locking)
          exact ⟨s', joins.trans reached, blocked⟩
      · have goes : step s .main = some { s with loc := .scan rest } := by
          simp [step, mainStep, here, joinStep, done]
        have other : j ≠ i := by
          rintro rfl
          exact done ((inv.flags j).of_finished (by rw [locking]; rfl))
        have later : j ∈ rest := (List.mem_cons.mp member).resolve_left other
        obtain ⟨s', reached, blocked⟩ := ih (step_inv goes inv) rfl later locking
        exact ⟨s', (Reachable.single goes).trans reached, blocked⟩

/-- Nobody can go on once all threads have stored `F_DONE`. -/
theorem not_live_of_blocked (inv : Inv s) (blocked : Blocked s)
    (all : tally File.unfinished s.file = 0)
    : ¬ Live s := by
  obtain ⟨i, rest, here, locking⟩ := blocked
  have inside : s.loc.holds := by simp [here, Loc.holds]
  have finished : ∀ j, ¬ (s.file j).unfinished := by
    intro j unfinished
    have := tally_pos_iff.mpr ⟨j, unfinished⟩
    omega
  rintro (goes | ⟨j, goes | connecting | reading⟩)
  · simp [mainStep, here, joinStep, locking] at goes
  · have outside := inv.guarded.excluded inside j
    have held := inv.guarded.main.mpr inside
    have done := finished j
    unfold threadStep at goes
    cases at_ : (s.file j).thread <;> simp_all [ThreadLoc.holds, File.unfinished]
  · exact finished j (by simp [File.unfinished, connecting])
  · exact finished j (by simp [File.unfinished, reading])

/-- Where `main` is about to join a thread that waits for the mutex, the others come to wait for
the mutex or for `main` too, by induction on those that have not stored `F_DONE`.
-/
theorem reach_deadlock (inv : Inv s) (blocked : Blocked s)
    : ∃ s', Reachable step s s' ∧ 0 < s'.nlefttoread ∧ ¬ Live s' := by
  induction left : tally File.unfinished s.file generalizing s with
  | zero =>
      refine ⟨s, .refl s, ?_, not_live_of_blocked inv blocked left⟩
      obtain ⟨i, rest, here, locking⟩ := blocked
      have out : 0 < tally File.out s.file :=
        tally_pos_iff.mpr ⟨i, by simp [File.out, locking]⟩
      have counts := inv.counts
      have running := counts.nconn
      simp only [here, Loc.pending] at running
      rw [counts.nlefttoread, counts.nlefttoconn]
      omega
  | succ n ih =>
      have some_ : 0 < tally File.unfinished s.file := by omega
      obtain ⟨j, unfinished⟩ := tally_pos_iff.mp some_
      have goes := reach_locking unfinished
      obtain ⟨i, rest, here, locking⟩ := blocked
      have other : i ≠ j := by
        rintro rfl
        simp [File.unfinished, locking] at unfinished
      have fewer : tally File.unfinished (s.setFile j
          { fFlags := .done, thread := .locking, starts := (s.file j).starts }).file = n := by
        have := tally_update File.unfinished s.file j
          { fFlags := .done, thread := .locking, starts := (s.file j).starts }
        rw [unfinished] at this
        simpa [Client.setFile, File.unfinished, left] using this
      obtain ⟨s', later, deadlock⟩ := ih (inv.reach goes)
        ⟨i, rest, here, by simpa [Client.setFile, other] using locking⟩ fewer
      exact ⟨s', goes.trans later, deadlock⟩

/-- `main` and the thread that it is about to join stay where they are. -/
theorem step_blocked (h : step s event = some s') (inv : Inv s) (blocked : Blocked s)
    : Blocked s' := by
  obtain ⟨i, rest, here, locking⟩ := blocked
  have held := inv.guarded.main.mpr (by rw [here]; rfl)
  cases event with
  | thread j =>
      obtain ⟨f, moves⟩ := threadStep_moves h
      have other : i ≠ j := by
        rintro rfl
        simp [step, threadStep, locking, held] at h
      have same : s'.loc = s.loc := moves.loc.resolve_right (by simp [here])
      refine ⟨i, rest, same.trans here, ?_⟩
      rwa [moves.file, Function.update_of_ne other]
  | server j n =>
      rcases serverStep_moves h with rfl | ⟨thread, rfl, moves⟩
      · exact ⟨i, rest, here, locking⟩
      · have other : i ≠ j := by
          rintro rfl
          rcases moves with ⟨at_, -⟩ | ⟨at_, -⟩ <;> simp [at_] at locking
        exact ⟨i, rest, here, by simpa [Client.setFile, other] using locking⟩
  | wakeup => simp [step, here] at h
  | main => simp [step, mainStep, here, joinStep, locking] at h

/-- A step that breaks the condition blocks `main`. -/
theorem blocked_of_not_orderly (disorderly : ¬ Orderly s event) (h : step s event = some s')
    (inv : Inv s)
    : Blocked s' := by
  cases event with
  | main =>
      unfold Orderly at disorderly
      dsimp only at disorderly
      split at disorderly
      · next i rest here =>
          have locking := not_not.mp disorderly
          have done := (inv.flags i).of_finished (by rw [locking]; rfl)
          simp only [step, mainStep, here, joinStep, if_pos done] at h
          cases h
          exact ⟨i, rest, rfl, locking⟩
      · exact absurd trivial disorderly
  | _ => exact absurd trivial disorderly

/-- A thread comes to wait for the mutex while everything else stays as it is. -/
theorem reach_waits (unfinished : (s.file i).unfinished)
    : ∃ s', Reachable step s s' ∧ s'.loc = s.loc ∧ s'.mutex = s.mutex
        ∧ (s'.file i).thread = .locking ∧ ∀ j, j ≠ i → s'.file j = s.file j := by
  refine ⟨_, reach_locking unfinished, rfl, rfl, ?_, fun j other => ?_⟩
  · simp [Client.setFile]
  · simp [Client.setFile, other]

/-- Two threads are enough: one returns, and the other waits for the mutex while `main` joins. -/
theorem reach_deadlock_of_two {j : Fin nfiles} (inv : Inv s) (here : s.loc = .inner)
    (free : s.mutex = none) (first : (s.file i).thread = .connecting)
    (second : (s.file j).thread = .connecting) (apart : j ≠ i)
    : ∃ s', Reachable step s s' ∧ 0 < s'.nlefttoread ∧ ¬ Live s' := by
  obtain ⟨s₁, goes₁, here₁, free₁, locking₁, others₁⟩ :=
    reach_waits (s := s) (i := i) (by simp [File.unfinished, first])
  obtain ⟨s₂, goes₂, here₂, free₂, locking₂, others₂⟩ :=
    reach_waits (s := s₁) (i := j) (by simp [others₁ j apart, File.unfinished, second])
  -- The first thread counts itself and returns.
  have waits : (s₂.file i).thread = .locking := by rw [others₂ i apart.symm, locking₁]
  have free' : s₂.mutex = none := by rw [free₂, free₁, free]
  have here' : s₂.loc = .inner := by rw [here₂, here₁, here]
  have goes₃ := reach_returned waits free' (by simp [here'])
  have inv₃ := ((inv.reach goes₁).reach goes₂).reach goes₃
  obtain ⟨s₄, goes₄, here₄, free₄, same⟩ := reach_lock inv₃ here'
  have inv₄ := inv₃.reach goes₄
  have returned : (s₄.file i).thread = .returned := by
    rw [same i (by simp [Client.setFile])]
    simp [Client.setFile]
  have locking : (s₄.file j).thread = .locking := by
    rw [same j (by simp [Client.setFile, apart, locking₂])]
    simp [Client.setFile, apart, locking₂]
  -- `main` finds that it has, and goes on to join.
  have some_ : s₄.ndone ≠ 0 := by
    have count := inv₄.guarded.ndone
    have positive : 0 < tally File.counted s₄.file :=
      tally_pos_iff.mpr ⟨i, by simp [File.counted, returned, ThreadLoc.counted]⟩
    simp only [here₄, Loc.pending] at count
    omega
  have goes₅ : Reachable step s₄
      { s₄ with mutex := some .main, loc := .scan (List.finRange nfiles) } := by
    refine ⟨[.main, .main], ?_⟩
    simp [runEvents, step, mainStep, here₄, lockStep, free₄, some_]
  obtain ⟨s₆, goes₆, blocked⟩ :=
    reach_blocked (inv₄.reach goes₅) rfl (List.mem_finRange j) locking
  obtain ⟨s', deadlocks, unread, stuck⟩ :=
    reach_deadlock ((inv₄.reach goes₅).reach goes₆) blocked
  refine ⟨s', ?_, unread, stuck⟩
  exact goes₁.trans (goes₂.trans (goes₃.trans (goes₄.trans (goes₅.trans (goes₆.trans deadlocks)))))

/-- With two files and two connections a deadlock can be reached. -/
theorem deadlock_reachable {maxnconn : Int} (files : 2 ≤ nfiles) (conns : 2 ≤ maxnconn)
    : ∃ s, Reachable step (start nfiles maxnconn) s ∧ 0 < s.nlefttoread ∧ ¬ Live s := by
  have inv := start_inv nfiles (by omega : 1 ≤ maxnconn)
  have enters : step (start nfiles maxnconn) .main
      = some { start nfiles maxnconn with loc := .inner } := by
    have unread : 0 < nfiles := by omega
    simp [step, mainStep, loopStep, start, unread]
  have inv₀ := step_inv enters inv
  obtain ⟨i, -, first⟩ := reach_started inv₀ rfl (by show (0 : Int) < maxnconn; omega)
    (by show (0 : Int) < nfiles; omega)
  have inv₁ := inv₀.reach first
  obtain ⟨j, absent, second⟩ := reach_started inv₁ rfl (by show (0 : Int) + 1 < maxnconn; omega)
    (by show (0 : Int) < nfiles - 1; omega)
  have apart : j ≠ i := by
    rintro rfl
    simp [started, Client.setFile] at absent
  obtain ⟨s', deadlocks, stuck⟩ :=
    reach_deadlock_of_two (i := i) (j := j) (inv₁.reach second) rfl rfl
      (by simp [started, Client.setFile, apart.symm]) (by simp [started, Client.setFile]) apart
  exact ⟨s', (Reachable.single enters).trans (first.trans (second.trans deadlocks)), stuck⟩

-----------------------------------------------------------------------------------------
-- Deadlock
-----------------------------------------------------------------------------------------

/-- At most one thread is out where there is one file, or room for one connection. -/
theorem tally_out_le_one (inv : Inv s) (narrow : nfiles ≤ 1 ∨ s.maxnconn ≤ 1)
    : tally File.out s.file ≤ 1 := by
  rcases narrow with files | conns
  · have le : tally File.out s.file ≤ Fintype.card (Fin nfiles) := tally_le_card
    rw [Fintype.card_fin] at le
    omega
  · have count := inv.counts.nconn
    have bound := inv.counts.bound
    have pending : 0 ≤ s.loc.pending := by cases s.loc <;> simp [Loc.pending]
    omega

/-- With one thread at a time `main` joins only threads that have returned. -/
theorem live_of_narrow {maxnconn : Int} (positive : 1 ≤ maxnconn)
    (narrow : nfiles ≤ 1 ∨ maxnconn ≤ 1) (reached : Reachable step (start nfiles maxnconn) s)
    (unread : 0 < s.nlefttoread)
    : Live s := by
  have kept : Inv s ∧ Settled s ∧ s.maxnconn = maxnconn := by
    refine reached.invariant (P := fun t => Inv t ∧ Settled t ∧ t.maxnconn = maxnconn)
      ⟨start_inv nfiles positive, nofun, rfl⟩ ?_
    intro t event t' h ⟨inv, settled, same⟩
    have one := tally_out_le_one inv (by rwa [same])
    exact ⟨step_inv h inv, step_settled inv one h settled, (step_maxnconn h).trans same⟩
  exact live_of_inv kept.1 (kept.2.1.joins kept.1) unread

/-- While files are left to read, `main` or a thread of `web03.c` can go on, or a thread waits
for its server, at the end of every run in which `main` never looks at a file whose thread has
stored `F_DONE` and waits for the mutex. From the end of every other run a deadlock can be
reached. No run reaches one exactly where there is at most one file, or room for one
connection. Witness: the invariant, and a schedule of two threads.
-/
theorem deadlock_free_iff (nfiles : Nat) (maxnconn : Int) (positive : 1 ≤ maxnconn)
    : (∀ events s, runEvents step (start nfiles maxnconn) events = some s
        → EveryStep step Orderly (start nfiles maxnconn) events
        → 0 < s.nlefttoread → Live s)
      ∧ (∀ events s, runEvents step (start nfiles maxnconn) events = some s
        → ¬ EveryStep step Orderly (start nfiles maxnconn) events
        → ∃ s', Reachable step s s' ∧ 0 < s'.nlefttoread ∧ ¬ Live s')
      ∧ ((∀ s, Reachable step (start nfiles maxnconn) s → 0 < s.nlefttoread → Live s)
        ↔ nfiles ≤ 1 ∨ maxnconn = 1) := by
  have inv := start_inv nfiles positive
  refine ⟨fun events s run orderly unread => ?_, fun events s run disorderly => ?_, ?_, ?_⟩
  · have kept : Inv s ∧ JoinsReturned s := by
      refine runEvents_invariant_of_everyStep (P := fun t => Inv t ∧ JoinsReturned t) ?_ orderly
        run ⟨inv, nofun⟩
      exact fun orderly h both => ⟨step_inv h both.1, step_joins orderly h both.1 both.2⟩
    exact live_of_inv kept.1 kept.2 unread
  · have blocked := runEvents_broken step_inv blocked_of_not_orderly step_blocked disorderly run inv
    exact reach_deadlock (runEvents_invariant step_inv run inv) blocked
  · intro always
    by_contra wide
    obtain ⟨s, reached, unread, stuck⟩ : ∃ s, Reachable step (start nfiles maxnconn) s ∧ _ :=
      deadlock_reachable (by omega) (by omega)
    exact stuck (always s reached unread)
  · intro narrow s reached unread
    exact live_of_narrow positive (narrow.imp_right le_of_eq) reached unread

/-- `main` starts the threads of both files and is about to lock the mutex. -/
def bothStarted : List (Event 2) := List.replicate 11 .main

/-- The thread stores `F_DONE`. -/
def finishes (i : Fin 2) : List (Event 2) := [.server i 0, .thread i, .server i 0, .thread i]

/-- The thread counts itself and returns. -/
def returns (i : Fin 2) : List (Event 2) := List.replicate 5 (.thread i)

/-- The first thread returns, `main` joins it, and the second is still connecting. -/
def oneJoined : List (Event 2) :=
  let first : Fin 2 := ⟨0, Nat.two_pos⟩
  bothStarted ++ finishes first ++ returns first ++ List.replicate 10 .main

/-- Two files over one connection and over two. -/
theorem deadlock_free_iff_twoFiles
    : (∃ s, runEvents step (start 2 2) oneJoined = some s ∧ s.nlefttoread = 1 ∧ Live s)
      ∧ ∀ s, Reachable step (start 2 1) s → 0 < s.nlefttoread → Live s := by
  refine ⟨?_, (deadlock_free_iff 2 1 (by decide)).2.2.mpr (.inr rfl)⟩
  have happens : ∃ s ∈ runEvents step (start 2 2) oneJoined, s.nlefttoread = 1 := by decide
  obtain ⟨s, run, unread⟩ := happens
  refine ⟨s, run, unread, ?_⟩
  exact (deadlock_free_iff 2 2 (by decide)).1 oneJoined s run (by decide) (by omega)

/-- With two files and room for two connections: the first thread counts itself and returns,
`main` locks the mutex and finds that `ndone` is 1, and the second thread stores `F_DONE` before
`main` comes to its file. `main` waits in `Pthread_join` for the second thread, which waits for
the mutex, and no thread waits for a server.
-/
theorem deadlock_two_files
    : ∃ s, runEvents step (start 2 2)
          (bothStarted ++ finishes 0 ++ returns 0 ++ [.main, .main] ++ finishes 1
            ++ List.replicate 6 .main)
          = some s
        ∧ s.nlefttoread = 1 ∧ s.loc = .join 1 [] ∧ (s.file 1).thread = .locking
        ∧ s.mutex = some .main ∧ ¬ Live s := by
  have happens : ∃ s ∈ runEvents step (start 2 2)
      (bothStarted ++ finishes 0 ++ returns 0 ++ [.main, .main] ++ finishes 1
        ++ List.replicate 6 .main),
      s.nlefttoread = 1 ∧ s.loc = .join 1 [] ∧ (s.file 1).thread = .locking
        ∧ s.mutex = some .main ∧ ¬ Live s := by
    decide
  exact happens

end Minions.Unp.Web03
