import Minions.Unp.WebThreads

/-! The web client of `web02.c`, whose `main` polls `ndone`.
`main` stores `F_CONNECTING` after it has created the thread, and the thread stores `F_READING`
and `F_DONE` in the same word without a lock.
-/

namespace Minions.Unp.Web02

open Minions.Data Minions.Logic Minions.Unp.WebThreads

variable {nfiles : Nat}

/-- The next step of `main`. -/
def mainStep (s : Client nfiles) : Option (Client nfiles) :=
  match s.loc with
  | .create i =>
      let f := s.file i
      some { s.setFile i { f with thread := .connecting, starts := f.starts + 1 } with
        loc := .mark i }
  | .mark i =>
      some { s.setFile i { s.file i with fFlags := .connecting } with
        nconn := s.nconn + 1
        nlefttoconn := s.nlefttoconn - 1
        loc := .inner }
  | .lock => lockStep s
  | .test =>
      some { s with loc := if s.ndone > 0 then .scan (List.finRange nfiles) else .unlock }
  | .outer => loopStep .create s
  | .inner => loopStep .create s
  | .find _ => loopStep .create s
  | _ => joinStep s

def step (s : Client nfiles) : Event nfiles → Option (Client nfiles)
  | .main => mainStep s
  | .thread i => threadStep false s i
  | .server i n => serverStep s i n
  | .wakeup => none

/-- `main` stores `F_CONNECTING` before the thread has stored `F_DONE`. -/
def Early (s : Client nfiles) : Event nfiles → Prop
  | .main =>
      match s.loc with
      | .mark i => (s.file i).fFlags ≠ .done
      | _ => True
  | _ => True

instance (s : Client nfiles) (event : Event nfiles) : Decidable (Early s event) := by
  unfold Early
  split
  · split <;> infer_instance
  · infer_instance

-----------------------------------------------------------------------------------------
-- The invariant along a run
-----------------------------------------------------------------------------------------

variable {s s' : Client nfiles} {event : Event nfiles} {i : Fin nfiles}

/-- The loop may create a thread. -/
theorem create_expects : Expects true (Loc.create : Fin nfiles → Loc nfiles) :=
  ⟨fun _ => ⟨rfl, rfl, nofun⟩, fun _ => rfl, fun absent => ⟨absent, .inl rfl⟩⟩

/-- `main` creates a thread for a file that has none. -/
theorem create_inv (inv : Inv true s) (here : s.loc = .create i)
    : Inv true { s.setFile i { s.file i with
          thread := .connecting, starts := (s.file i).starts + 1 } with loc := .mark i } := by
  have ok := inv.loc
  rw [here] at ok
  have absent : (s.file i).thread = .absent := ok.1
  have flags := inv.flags i
  have starts := inv.starts i
  simp only [StartsOk, absent, if_pos] at starts
  refine ⟨?_, forall_setFile (P := FlagsOk (.mark i)) ?_ ?_,
    forall_setFile (P := fun _ => StartsOk) ?_ fun j _ => inv.starts j, ?_⟩
  · exact inv.guarded.quiet absent rfl rfl (by simp) (by rw [here]; rfl) (by rw [here]; rfl)
      (by simp)
  · simp only [FlagsOk, absent] at flags
    simp only [FlagsOk]
    rcases flags with zero | ⟨connecting, -⟩
    · exact .inr ⟨zero, trivial⟩
    · exact .inl connecting
  · exact fun j other => (inv.flags j).elsewhere other (.inl here) rfl
  · simp [StartsOk, starts]
  · simp [LocOk, Client.setFile]

/-- `main` marks a file whose thread is not done. -/
theorem mark_inv (inv : Inv true s) (here : s.loc = .mark i) (early : (s.file i).fFlags ≠ .done)
    : Inv true { s.setFile i { s.file i with fFlags := .connecting } with
        nconn := s.nconn + 1, nlefttoconn := s.nlefttoconn - 1, loc := .inner } := by
  have ok := inv.loc
  rw [here] at ok
  obtain ⟨present, joined⟩ := ok
  have flags := inv.flags i
  have guarded : Guarded { s.setFile i { s.file i with fFlags := .connecting } with
      loc := .inner } :=
    inv.guarded.quiet rfl rfl rfl (fun _ => id) (by rw [here]; rfl) (by rw [here]; rfl) nofun
  refine ⟨⟨guarded.threads, guarded.main, guarded.threadLoaded, guarded.mainLoaded,
      guarded.ndone⟩,
    forall_setFile (P := FlagsOk .inner) ?_ ?_,
    forall_setFile (P := fun _ => StartsOk) (inv.starts i) fun j _ => inv.starts j, trivial⟩
  · cases at_ : (s.file i).thread <;> simp_all [FlagsOk]
  · exact fun j other => (inv.flags j).elsewhere other (.inr (.inl here)) rfl

/-- Every step under the condition keeps the invariant, by the kind of event. -/
theorem step_inv (early : Early s event) (h : step s event = some s') (inv : Inv true s)
    : Inv true s' := by
  cases event with
  | thread i => exact inv.threadStep h
  | server i n => exact inv.serverStep h
  | wakeup => cases h
  | main =>
      simp only [step, mainStep] at h
      split at h
      · next i here =>
          cases h
          exact create_inv inv here
      · next i here =>
          cases h
          simp only [Early, here] at early
          exact mark_inv inv here early
      · next here => exact inv.lockStep (by rw [here]; rfl) (by rw [here]; rfl) h
      · next here =>
          cases h
          split
          · exact inv.move (inv.guarded.move here rfl rfl nofun) rfl (by rw [here]; rfl) rfl trivial
          · exact inv.move (inv.guarded.move here rfl rfl nofun) rfl (by rw [here]; rfl) rfl trivial
      · exact inv.loopStep create_expects h
      · exact inv.loopStep create_expects h
      · exact inv.loopStep create_expects h
      · exact inv.joinStep h

-----------------------------------------------------------------------------------------
-- Finished downloads
-----------------------------------------------------------------------------------------

/-- The file that `main` has marked as joined and is about to take off `ndone`. -/
def taken : Loc nfiles → Int
  | .load _ => 1
  | .store _ _ => 1
  | _ => 0

/-- The file of a thread that has incremented `ndone` is marked as done until `main` joins the
thread, and as joined from the next step of `main` on.
-/
def Remembered (s : Client nfiles) (i : Fin nfiles) : Prop :=
  (s.file i).thread.counted ∧ (s.file i).fFlags = .done
  ∨ (s.file i).thread = .joined
    ∧ ((s.file i).fFlags = .joined
      ∨ (s.file i).fFlags = .done ∧ ∃ rest, s.loc = .settle i rest)

/-- A file that was counted is remembered. -/
theorem remembered_of_inv (inv : Inv true s) (incremented : (s.file i).incremented)
    : Remembered s i := by
  have flags := inv.flags i
  simp only [File.incremented, decide_eq_true_eq] at incremented
  rcases incremented with counted | joined
  · exact .inl ⟨counted, flags.of_finished (ThreadLoc.counted_finished counted)⟩
  · refine .inr ⟨joined, ?_⟩
    simp only [FlagsOk, joined] at flags
    split at flags
    · next settles =>
        refine .inr ⟨flags, ?_⟩
        unfold Loc.settles at settles
        split at settles
        · next j rest here =>
            obtain rfl := Option.some.inj settles
            exact ⟨rest, here⟩
        · cases settles
    · exact .inl flags

/-- Every thread on the count of `ndone` has its file marked as done, but for the one that
`main` has just marked as joined.
-/
theorem ndone_le_of_inv (inv : Inv true s) : s.ndone ≤ tally File.done s.file + taken s.loc := by
  have weaker : ∀ j, (s.file j).counted → (s.file j).done := by
    intro j counted
    simpa [File.done] using (inv.flags j).of_finished (ThreadLoc.counted_finished counted)
  have le : tally File.counted s.file ≤ tally File.done s.file := tally_mono weaker
  have count := inv.guarded.ndone
  have ok := inv.loc
  cases here : s.loc with
  | settle j rest =>
      rw [here] at count ok
      have joined : (s.file j).thread = .joined := ok
      have flags := inv.flags j
      simp only [FlagsOk, joined, here, Loc.settles, if_pos] at flags
      have lt : tally File.counted s.file < tally File.done s.file :=
        tally_lt weaker (i := j) (by simp [File.done, flags])
          (by simp [File.counted, joined, ThreadLoc.counted])
      simp only [Loc.pending] at count
      simp only [taken]
      omega
  | _ =>
      simp only [here, Loc.pending] at count
      simp only [taken]
      omega

/-- A file that is marked as joined stays so, and so does a thread that has incremented
`ndone`, by the kind of event.
-/
theorem step_keeps (h : step s event = some s') (inv : Inv true s) (i : Fin nfiles)
    : Keeps (s.file i) (s'.file i) := by
  have ok := inv.loc
  cases event with
  | thread j => exact inv.keeps_threadStep h i
  | server j n => exact keeps_serverStep h i
  | wakeup => cases h
  | main =>
      simp only [step, mainStep] at h
      split at h
      · next j here =>
          cases h
          rw [here] at ok
          have absent : (s.file j).thread = .absent := ok.1
          refine keeps_update rfl ⟨?_, ?_⟩ i
          · intro joined
            have at_ := (inv.flags j).joined joined
            rw [absent] at at_
            cases at_
          · simp [File.incremented, absent, ThreadLoc.counted]
      · next j here =>
          cases h
          rw [here] at ok
          refine keeps_update rfl ⟨?_, ?_⟩ i
          · exact fun joined => absurd ((inv.flags j).joined joined) ok.2
          · exact id
      · next here =>
          rw [lockStep_file h]
          exact .refl _
      · next here =>
          cases h
          exact .refl _
      · rw [loopStep_file h]
        exact .refl _
      · rw [loopStep_file h]
        exact .refl _
      · rw [loopStep_file h]
        exact .refl _
      · exact keeps_joinStep h i

/-- In every run of `web02.c` in which each store of `F_CONNECTING` comes before the new thread
stores `F_DONE`: once a thread has incremented `ndone` its file is marked as done until `main`
joins the thread, and as joined ever after; `ndone` does not exceed the number of files that
are marked as done, where the one that `main` is taking off counts; and no file is started
twice. Witness: induction over the run.
-/
theorem finished_remembered (nfiles : Nat) (maxnconn : Int) (before after : List (Event nfiles))
    (s s' : Client nfiles)
    (run : runEvents step (start nfiles maxnconn) before = some s)
    (early : EveryStep step Early (start nfiles maxnconn) before)
    (run' : runEvents step s after = some s') (early' : EveryStep step Early s after)
    : (∀ i, (s.file i).incremented → Remembered s' i)
      ∧ (∀ i, (s.file i).fFlags = .joined → (s'.file i).fFlags = .joined)
      ∧ s'.ndone ≤ tally File.done s'.file + taken s'.loc
      ∧ ∀ i, (s'.file i).starts ≤ 1 := by
  have inv : Inv true s :=
    runEvents_invariant_of_everyStep step_inv early run (start_inv true nfiles maxnconn)
  have kept : Inv true s' ∧ ∀ i, Keeps (s.file i) (s'.file i) := by
    refine runEvents_invariant_of_everyStep
      (P := fun t => Inv true t ∧ ∀ i, Keeps (s.file i) (t.file i)) ?_ early' run'
      ⟨inv, fun i => .refl _⟩
    intro t event t' early h ⟨inv, keeps⟩
    exact ⟨step_inv early h inv, fun i => (keeps i).trans (step_keeps h inv i)⟩
  obtain ⟨inv', keeps⟩ := kept
  refine ⟨fun i incremented => ?_, fun i => (keeps i).joined, ndone_le_of_inv inv', fun i => ?_⟩
  · exact remembered_of_inv inv' ((keeps i).incremented incremented)
  · have starts := inv'.starts i
    unfold StartsOk at starts
    split at starts <;> omega

/-- The thread of the only file runs to its end. -/
def threadRun : List (Event 1) :=
  [.server 0 0, .thread 0, .server 0 0, .thread 0, .thread 0, .thread 0, .thread 0, .thread 0]

/-- `main` starts the thread and marks the file; the thread runs to its end, and `main` finds
it done.
-/
def markedFirst : List (Event 1) :=
  [.main, .main, .main, .main, .main] ++ threadRun ++ [.main, .main, .main, .main]

/-- `main` joins the thread, marks the file as joined and exits. -/
def joinedLast : List (Event 1) :=
  [.main, .main, .main, .main, .main, .main, .main]

/-- A run with one file. -/
theorem finished_remembered_oneFile
    : ∃ s s', runEvents step (start 1 1) markedFirst = some s
        ∧ runEvents step s joinedLast = some s' ∧ (s.file 0).incremented ∧ s'.loc = .exit
        ∧ ∀ i, (s.file i).incremented → Remembered s' i := by
  have happens : ∃ s ∈ runEvents step (start 1 1) markedFirst, ∃ s' ∈ runEvents step s joinedLast,
      (s.file 0).incremented ∧ s'.loc = .exit ∧ EveryStep step Early s joinedLast := by
    decide +kernel
  obtain ⟨s, run, s', run', incremented, exits, early'⟩ := happens
  refine ⟨s, s', run, run', incremented, exits, ?_⟩
  exact (finished_remembered 1 1 markedFirst joinedLast s s' run (by decide) run' early').1

/-- `main` has created the thread of the only file and has not marked the file yet. The thread
runs to its end, and then `main` stores `F_CONNECTING` over its `F_DONE`: `ndone` is 1, and no
file is marked as done.
-/
theorem finished_forgotten
    : ∃ s,
        runEvents step (start 1 1) ([.main, .main, .main, .main] ++ threadRun ++ [.main]) = some s
        ∧ (s.file 0).incremented ∧ (s.file 0).fFlags = .connecting ∧ ¬ Remembered s 0
        ∧ ¬ s.ndone ≤ tally File.done s.file + taken s.loc := by
  have happens : ∃ s ∈ runEvents step (start 1 1)
      ([.main, .main, .main, .main] ++ threadRun ++ [.main]),
      (s.file 0).incremented ∧ (s.file 0).fFlags = .connecting
      ∧ ¬ s.ndone ≤ tally File.done s.file + taken s.loc := by
    decide +kernel
  obtain ⟨s, run, incremented, flags, more⟩ := happens
  refine ⟨s, run, incremented, flags, ?_, more⟩
  rintro (⟨-, done⟩ | ⟨-, joined | ⟨done, -⟩⟩)
  · rw [flags] at done
    cases done
  · rw [flags] at joined
    cases joined
  · rw [flags] at done
    cases done

end Minions.Unp.Web02
