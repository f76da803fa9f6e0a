import Minions.Data.Tally
import Minions.Logic.Events

/-! The web clients with threads: what `web02.c` and `web03.c` share.
`main` keeps up to `maxnconn` threads going at once, each to read one file. Every access to a
variable that two threads use and every operation on a mutex, a condition variable or a thread
is one step. No wrapped call fails.
-/

namespace Minions.Unp.WebThreads

open Minions.Data Minions.Logic

variable {nfiles : Nat}

-----------------------------------------------------------------------------------------
-- The state
-----------------------------------------------------------------------------------------

/-- `f_flags`: 0, `F_CONNECTING`, `F_READING`, `F_DONE` or `F_JOINED`. -/
inductive Flags
  | zero
  | connecting
  | reading
  | done
  | joined
  deriving DecidableEq

/-- Where the thread of a file is in `do_get_read`. -/
inductive ThreadLoc
  /-- It has not been created. -/
  | absent
  /-- In `Tcp_connect`. -/
  | connecting
  /-- In `write_get_cmd`, before `F_READING` is stored. -/
  | sending
  /-- In `Read`. -/
  | reading
  /-- Before `F_DONE` is stored. -/
  | closing
  | locking
  /-- Before `ndone` is loaded for `ndone++`. -/
  | counting
  /-- Before the successor of what was loaded is stored. -/
  | storing (ndone : Int)
  | signalling
  | unlocking
  | returned
  /-- `main` has joined it. -/
  | joined
  deriving DecidableEq

/-- `struct file`, with its thread and how often one was created. -/
structure File where
  fFlags : Flags
  thread : ThreadLoc
  starts : Nat
  deriving DecidableEq

/-- Who holds `ndone_mutex`. -/
inductive Owner (nfiles : Nat)
  | main
  | thread (i : Fin nfiles)
  deriving DecidableEq

/-- Where `main` is. A loop over the files has those that are still to come. -/
inductive Loc (nfiles : Nat)
  | outer
  | inner
  | find (rest : List (Fin nfiles))
  /-- Before `F_CONNECTING` is stored. -/
  | mark (i : Fin nfiles)
  | create (i : Fin nfiles)
  | lock
  /-- Before `ndone` is tested. -/
  | test
  /-- Before `Pthread_cond_wait`. -/
  | wait
  | waiting
  /-- In `Pthread_cond_wait`, before the mutex is locked again. -/
  | woken
  | scan (rest : List (Fin nfiles))
  | join (i : Fin nfiles) (rest : List (Fin nfiles))
  /-- Before `F_JOINED` is stored. -/
  | settle (i : Fin nfiles) (rest : List (Fin nfiles))
  /-- Before `ndone` is loaded for `ndone--`. -/
  | load (rest : List (Fin nfiles))
  | store (ndone : Int) (rest : List (Fin nfiles))
  | unlock
  | exit
  | quit
  deriving DecidableEq

structure Client (nfiles : Nat) where
  maxnconn : Int
  nconn : Int
  nlefttoconn : Int
  nlefttoread : Int
  ndone : Int
  mutex : Option (Owner nfiles)
  file : Fin nfiles → File
  loc : Loc nfiles
  deriving DecidableEq

/-- Before the outer loop. -/
def start (nfiles : Nat) (maxnconn : Int) : Client nfiles where
  maxnconn := maxnconn
  nconn := 0
  nlefttoconn := nfiles
  nlefttoread := nfiles
  ndone := 0
  mutex := none
  file := fun _ => { fFlags := .zero, thread := .absent, starts := 0 }
  loc := .outer

/-- `file[i] = …` -/
def Client.setFile (s : Client nfiles) (i : Fin nfiles) (f : File) : Client nfiles :=
  { s with file := Function.update s.file i f }

@[simp] theorem Client.setFile_loc (s : Client nfiles) (i : Fin nfiles) (f : File)
    : (s.setFile i f).loc = s.loc := rfl

@[simp] theorem Client.setFile_ndone (s : Client nfiles) (i : Fin nfiles) (f : File)
    : (s.setFile i f).ndone = s.ndone := rfl

/-- The next step of the thread of a file, if it is not waiting for its server and not blocked.
The threads of `web03.c` signal after they have counted themselves, those of `web02.c` do not.
-/
def threadStep (signals : Bool) (s : Client nfiles) (i : Fin nfiles) : Option (Client nfiles) :=
  let f := s.file i
  match f.thread with
  | .sending => some (s.setFile i { f with fFlags := .reading, thread := .reading })
  | .closing => some (s.setFile i { f with fFlags := .done, thread := .locking })
  | .locking =>
      if s.mutex = none then
        some { s.setFile i { f with thread := .counting } with mutex := some (.thread i) }
      else none
  | .counting => some (s.setFile i { f with thread := .storing s.ndone })
  | .storing ndone =>
      let thread := if signals then .signalling else .unlocking
      some { s.setFile i { f with thread } with ndone := ndone + 1 }
  | .signalling =>
      some { s.setFile i { f with thread := .unlocking } with
        loc := if s.loc = .waiting then .woken else s.loc }
  | .unlocking => some { s.setFile i { f with thread := .returned } with mutex := none }
  | _ => none

/-- The server of a file is connected to, or has sent that many bytes. It has closed the
connection when there are none.
-/
def serverStep (s : Client nfiles) (i : Fin nfiles) (n : Nat) : Option (Client nfiles) :=
  let f := s.file i
  match f.thread with
  | .connecting => some (s.setFile i { f with thread := .sending })
  | .reading => some (if n = 0 then s.setFile i { f with thread := .closing } else s)
  | _ => none

/-- The conditions of the two outer loops, and the search for a file to read. -/
def loopStep (found : Fin nfiles → Loc nfiles) (s : Client nfiles) : Option (Client nfiles) :=
  match s.loc with
  | .outer => some { s with loc := if s.nlefttoread > 0 then .inner else .exit }
  | .inner =>
      some { s with
        loc :=
          if s.nconn < s.maxnconn ∧ s.nlefttoconn > 0 then .find (List.finRange nfiles)
          else .lock }
  | .find [] => some { s with loc := .quit }
  | .find (i :: rest) =>
      some { s with loc := if (s.file i).fFlags = .zero then found i else .find rest }
  | _ => none

/-- The loop that joins the threads that are done, and the end of the critical section. The
joined thread returns the address of its own file.
-/
def joinStep (s : Client nfiles) : Option (Client nfiles) :=
  match s.loc with
  | .scan [] => some { s with loc := .unlock }
  | .scan (i :: rest) =>
      some { s with loc := if (s.file i).fFlags = .done then .join i rest else .scan rest }
  | .join i rest =>
      if (s.file i).thread = .returned then
        some { s.setFile i { s.file i with thread := .joined } with loc := .settle i rest }
      else none
  | .settle i rest =>
      some { s.setFile i { s.file i with fFlags := .joined } with loc := .load rest }
  | .load rest => some { s with loc := .store s.ndone rest }
  | .store ndone rest =>
      some { s with
        ndone := ndone - 1
        nconn := s.nconn - 1
        nlefttoread := s.nlefttoread - 1
        loc := .scan rest }
  | .unlock => some { s with mutex := none, loc := .outer }
  | _ => none

/-- `Pthread_mutex_lock`, also at the end of `Pthread_cond_wait`. -/
def lockStep (s : Client nfiles) : Option (Client nfiles) :=
  if s.mutex = none then some { s with mutex := some .main, loc := .test } else none

inductive Event (nfiles : Nat)
  | main
  | thread (i : Fin nfiles)
  | server (i : Fin nfiles) (n : Nat)
  /-- `Pthread_cond_wait` returns without a signal. -/
  | wakeup

/-- The file whose thread `main` has joined, and which it has not yet marked. -/
def Loc.settles : Loc nfiles → Option (Fin nfiles)
  | .settle i _ => some i
  | _ => none

/-- The thread has stored `F_DONE`, and has not been joined. -/
def ThreadLoc.finished : ThreadLoc → Bool
  | .locking => true
  | .counting => true
  | .storing _ => true
  | .signalling => true
  | .unlocking => true
  | .returned => true
  | _ => false

-----------------------------------------------------------------------------------------
-- The mutex and what it protects
-----------------------------------------------------------------------------------------

/-- The thread is in its critical section. -/
def ThreadLoc.holds : ThreadLoc → Bool
  | .counting => true
  | .storing _ => true
  | .signalling => true
  | .unlocking => true
  | _ => false

/-- The thread has incremented `ndone`, and has not been joined. -/
def ThreadLoc.counted : ThreadLoc → Bool
  | .signalling => true
  | .unlocking => true
  | .returned => true
  | _ => false

def File.counted (f : File) : Bool := f.thread.counted

/-- The thread has incremented `ndone`. -/
def File.incremented (f : File) : Bool := f.thread.counted ∨ f.thread = .joined

def File.done (f : File) : Bool := f.fFlags = .done

/-- The thread has been created and has not stored `F_DONE`. -/
def File.unfinished (f : File) : Bool :=
  match f.thread with
  | .connecting => true
  | .sending => true
  | .reading => true
  | .closing => true
  | _ => false

def File.absent (f : File) : Bool := f.thread = .absent

/-- The thread has been created and not joined. -/
def File.out (f : File) : Bool := f.thread ≠ .absent ∧ f.thread ≠ .joined

/-- `main` is in its critical section. -/
def Loc.holds : Loc nfiles → Bool
  | .test => true
  | .wait => true
  | .scan _ => true
  | .join _ _ => true
  | .settle _ _ => true
  | .load _ => true
  | .store _ _ => true
  | .unlock => true
  | _ => false

/-- `main` is in the loop that joins. -/
def Loc.joining : Loc nfiles → Bool
  | .scan _ => true
  | .join _ _ => true
  | .settle _ _ => true
  | .load _ => true
  | .store _ _ => true
  | _ => false

/-- The threads that `main` has joined and not yet taken off its counters. -/
def Loc.pending : Loc nfiles → Int
  | .settle _ _ => 1
  | .load _ => 1
  | .store _ _ => 1
  | _ => 0

/-- The mutex is held where its holder is in the critical section, and `ndone` is the number of
threads that have counted themselves and are not yet taken off.
-/
structure Guarded (s : Client nfiles) : Prop where
  threads : ∀ i, s.mutex = some (.thread i) ↔ (s.file i).thread.holds
  main : s.mutex = some .main ↔ s.loc.holds
  threadLoaded : ∀ i v, (s.file i).thread = .storing v → v = s.ndone
  mainLoaded : ∀ v rest, s.loc = .store v rest → v = s.ndone
  ndone : s.ndone = tally File.counted s.file + s.loc.pending

variable {s s' : Client nfiles} {i : Fin nfiles} {f : File} {signals : Bool} {loc : Loc nfiles}

/-- What holds of each file after one of them has changed. -/
theorem forall_setFile {P : Fin nfiles → File → Prop} (one : P i f)
    (others : ∀ j, j ≠ i → P j (s.file j))
    : ∀ j, P j ((s.setFile i f).file j) :=
  (Function.forall_update_iff s.file P).mpr ⟨one, others⟩

/-- The mutex guards the count at the start. -/
theorem start_guarded (nfiles : Nat) (maxnconn : Int) : Guarded (start nfiles maxnconn) := by
  constructor <;> simp [start, ThreadLoc.holds, Loc.holds, Loc.pending, tally, File.counted,
    ThreadLoc.counted]

/-- One file changes: what is new of its thread, of `main` and of `ndone`. -/
theorem Guarded.update (file : s'.file = Function.update s.file i f)
    (own : s'.mutex = some (.thread i) ↔ f.thread.holds)
    (others : ∀ j, j ≠ i → (s'.mutex = some (.thread j) ↔ (s.file j).thread.holds))
    (main : s'.mutex = some .main ↔ s'.loc.holds)
    (loaded : ∀ v, f.thread = .storing v → v = s'.ndone)
    (othersLoaded : ∀ j, j ≠ i → ∀ v, (s.file j).thread = .storing v → v = s'.ndone)
    (mainLoaded : ∀ v rest, s'.loc = .store v rest → v = s'.ndone)
    (ndone : s'.ndone = tally File.counted s.file - ((s.file i).counted.toNat : Int)
      + (f.counted.toNat : Int) + s'.loc.pending)
    : Guarded s' := by
  refine ⟨?_, main, ?_, mainLoaded, ?_⟩
  · rw [file]
    exact (Function.forall_update_iff s.file
      fun j f => s'.mutex = some (.thread j) ↔ f.thread.holds).mpr ⟨own, others⟩
  · rw [file]
    exact (Function.forall_update_iff s.file
      fun _ f => ∀ v, f.thread = .storing v → v = s'.ndone).mpr ⟨loaded, othersLoaded⟩
  · rw [file, tally_update_int]
    exact ndone

/-- A step outside the critical sections, of a thread and of `main`. -/
theorem Guarded.quiet {thread : ThreadLoc} (inv : Guarded s) (at_ : (s.file i).thread = thread)
    (holds : f.thread.holds = thread.holds) (counted : f.thread.counted = thread.counted)
    (unloaded : ∀ v, f.thread = .storing v → thread = .storing v)
    (locHolds : loc.holds = s.loc.holds) (pending : loc.pending = s.loc.pending)
    (locUnloaded : ∀ v rest, loc = .store v rest → s.loc = .store v rest)
    : Guarded { s.setFile i f with loc } := by
  subst at_
  have same : f.counted = (s.file i).counted := counted
  refine .update rfl ?_ (fun j _ => inv.threads j) ?_ ?_ (fun j _ => inv.threadLoaded j) ?_ ?_
  · rw [holds]
    exact inv.threads i
  · rw [locHolds]
    exact inv.main
  · exact fun v at_ => inv.threadLoaded i v (unloaded v at_)
  · exact fun v rest at_ => inv.mainLoaded v rest (locUnloaded v rest at_)
  · rw [same, pending, Int.sub_add_cancel]
    exact inv.ndone

/-- A thread enters its critical section. -/
theorem Guarded.enter (inv : Guarded s) (free : s.mutex = none)
    (at_ : (s.file i).thread = .locking)
    : Guarded { s.setFile i { s.file i with thread := .counting } with
        mutex := some (.thread i) } := by
  refine .update rfl (by simp [ThreadLoc.holds]) ?_ ?_ nofun (fun j _ => inv.threadLoaded j)
    inv.mainLoaded ?_
  · intro j other
    have outside := inv.threads j
    have apart : i ≠ j := other.symm
    rw [free] at outside
    simpa [apart] using outside
  · have outside := inv.main
    rw [free] at outside
    simpa using outside
  · simpa [File.counted, ThreadLoc.counted, at_] using inv.ndone

/-- A thread loads `ndone`. -/
theorem Guarded.load (inv : Guarded s) (at_ : (s.file i).thread = .counting)
    : Guarded (s.setFile i { s.file i with thread := .storing s.ndone }) := by
  refine .update rfl ?_ (fun j _ => inv.threads j) inv.main ?_ (fun j _ => inv.threadLoaded j)
    inv.mainLoaded ?_
  · have before := inv.threads i
    rw [at_] at before
    exact before
  · intro v same
    exact (ThreadLoc.storing.inj same).symm
  · simpa [File.counted, ThreadLoc.counted, at_] using inv.ndone

/-- A thread that holds the mutex is the only one in a critical section. -/
theorem Guarded.alone (inv : Guarded s) (holds : (s.file i).thread.holds)
    : s.loc.holds = false ∧ ∀ j, j ≠ i → (s.file j).thread.holds = false := by
  have mine := (inv.threads i).mpr holds
  constructor
  · have theirs := inv.main
    rw [mine] at theirs
    simpa using theirs
  · intro j other
    have theirs := inv.threads j
    have apart : i ≠ j := other.symm
    rw [mine] at theirs
    simpa [apart] using theirs

/-- A thread stores `ndone`. Nobody else has loaded it. -/
theorem Guarded.store (inv : Guarded s) {v : Int} (at_ : (s.file i).thread = .storing v)
    {thread : ThreadLoc} (after : thread = .signalling ∨ thread = .unlocking)
    : Guarded { s.setFile i { s.file i with thread } with ndone := v + 1 } := by
  have holds : (s.file i).thread.holds := by simp [at_, ThreadLoc.holds]
  obtain ⟨outside, others⟩ := inv.alone holds
  have loaded := inv.threadLoaded i v at_
  refine .update rfl ?_ (fun j _ => inv.threads j) inv.main ?_ ?_ ?_ ?_
  · have before := inv.threads i
    rw [at_] at before
    rcases after with rfl | rfl <;> exact before
  · rcases after with rfl | rfl <;> nofun
  · intro j other w storing
    have theirs := others j other
    simp [storing, ThreadLoc.holds] at theirs
  · intro w rest storing
    have here : s.loc = .store w rest := storing
    simp [here, Loc.holds] at outside
  · have count := inv.ndone
    rcases after with rfl | rfl <;> simp [File.counted, ThreadLoc.counted, at_] <;> omega

/-- A thread leaves its critical section. -/
theorem Guarded.leave (inv : Guarded s) (at_ : (s.file i).thread = .unlocking)
    : Guarded { s.setFile i { s.file i with thread := .returned } with mutex := none } := by
  have holds : (s.file i).thread.holds := by simp [at_, ThreadLoc.holds]
  obtain ⟨outside, others⟩ := inv.alone holds
  refine .update rfl (by simp [ThreadLoc.holds]) ?_ ?_ nofun (fun j _ => inv.threadLoaded j)
    inv.mainLoaded ?_
  · intro j other
    simp [others j other]
  · simpa using outside
  · simpa [File.counted, ThreadLoc.counted, at_] using inv.ndone

/-- Every step of a thread keeps to the mutex. -/
theorem Guarded.threadStep (inv : Guarded s) (h : threadStep signals s i = some s')
    : Guarded s' := by
  simp only [WebThreads.threadStep] at h
  split at h
  · next at_ =>
      cases h
      exact inv.quiet at_ rfl rfl nofun rfl rfl fun _ _ => id
  · next at_ =>
      cases h
      exact inv.quiet at_ rfl rfl nofun rfl rfl fun _ _ => id
  · next at_ =>
      split at h <;> cases h
      next free => exact inv.enter free at_
  · next at_ =>
      cases h
      exact inv.load at_
  · next v at_ =>
      cases h
      exact inv.store at_ (by cases signals <;> simp)
  · next at_ =>
      cases h
      refine inv.quiet at_ rfl rfl nofun ?_ ?_ ?_
      · split
        · next here => simp [here, Loc.holds]
        · rfl
      · split
        · next here => simp [here, Loc.pending]
        · rfl
      · intro v rest
        split
        · nofun
        · exact id
  · next at_ =>
      cases h
      exact inv.leave at_
  · cases h

/-- A step of a server keeps the count guarded. -/
theorem Guarded.serverStep {n : Nat} (inv : Guarded s) (h : serverStep s i n = some s')
    : Guarded s' := by
  simp only [WebThreads.serverStep] at h
  split at h
  · next at_ =>
      cases h
      exact inv.quiet at_ rfl rfl nofun rfl rfl fun _ _ => id
  · next at_ =>
      cases h
      split
      · exact inv.quiet at_ rfl rfl nofun rfl rfl fun _ _ => id
      · exact inv
  · cases h

/-- `main` goes on outside the accesses to what the mutex protects. -/
theorem Guarded.move {before : Loc nfiles} (inv : Guarded s) (here : s.loc = before)
    (holds : loc.holds = before.holds) (pending : loc.pending = before.pending)
    (unloaded : ∀ v rest, loc ≠ .store v rest)
    : Guarded { s with loc } := by
  subst here
  refine ⟨inv.threads, ?_, inv.threadLoaded, fun v rest at_ => absurd at_ (unloaded v rest), ?_⟩
  · show _ ↔ loc.holds
    rw [holds]
    exact inv.main
  · show _ = _ + loc.pending
    rw [pending]
    exact inv.ndone

/-- While `main` is in its critical section no thread is in one. -/
theorem Guarded.excluded (inv : Guarded s) (holds : s.loc.holds) (j : Fin nfiles)
    : (s.file j).thread.holds = false := by
  have mine := inv.main.mpr holds
  have theirs := inv.threads j
  rw [mine] at theirs
  simpa using theirs

/-- A step on the mutex keeps the count guarded. -/
theorem Guarded.lockStep (inv : Guarded s) (outside : s.loc.pending = 0)
    (h : lockStep s = some s')
    : Guarded s' := by
  unfold WebThreads.lockStep at h
  split at h
  · next free =>
      cases h
      refine ⟨fun j => ?_, by simp [Loc.holds], inv.threadLoaded, nofun, ?_⟩
      · have theirs := inv.threads j
        rw [free] at theirs
        simpa using theirs
      · show s.ndone = _ + 0
        rw [inv.ndone, outside]
  · cases h

/-- `main` leaves its critical section. -/
theorem Guarded.release (inv : Guarded s) (inside : s.loc.holds) (settled : s.loc.pending = 0)
    (holds : loc.holds = false) (pending : loc.pending = 0)
    (unloaded : ∀ v rest, loc ≠ .store v rest)
    : Guarded { s with mutex := none, loc } := by
  refine ⟨fun j => ?_, by simp [holds], inv.threadLoaded,
    fun v rest at_ => absurd at_ (unloaded v rest), ?_⟩
  · simp [inv.excluded inside j]
  · show s.ndone = _ + loc.pending
    rw [inv.ndone, settled, pending]

/-- The steps of the loop that joins. -/
theorem Guarded.joinStep (inv : Guarded s) (h : joinStep s = some s')
    : Guarded s' := by
  simp only [WebThreads.joinStep] at h
  split at h
  · next here =>
      cases h
      exact inv.move here rfl rfl nofun
  · next i rest here =>
      cases h
      split <;> exact inv.move here rfl rfl nofun
  · next i rest here =>
      split at h <;> cases h
      next at_ =>
        refine .update rfl ?_ (fun j _ => inv.threads j) ?_ nofun
          (fun j _ => inv.threadLoaded j) nofun ?_
        · have before := inv.threads i
          rw [at_] at before
          exact before
        · have before := inv.main
          rw [here] at before
          exact before
        · have count := inv.ndone
          simpa [File.counted, ThreadLoc.counted, at_, here, Loc.pending] using count
  · next i rest here =>
      cases h
      exact inv.quiet rfl rfl rfl (fun _ => id) (by rw [here]; rfl) (by rw [here]; rfl) nofun
  · next rest here =>
      cases h
      refine ⟨inv.threads, ?_, inv.threadLoaded, ?_, ?_⟩
      · show _ ↔ (Loc.store s.ndone rest).holds
        rw [show (Loc.store s.ndone rest).holds = s.loc.holds by simp [here, Loc.holds]]
        exact inv.main
      · intro v rest' same
        exact (Loc.store.inj same).1.symm
      · show s.ndone = _ + 1
        rw [inv.ndone, here]
        rfl
  · next v rest here =>
      cases h
      have loaded := inv.mainLoaded v rest here
      have holds : s.loc.holds := by simp [here, Loc.holds]
      refine ⟨inv.threads, ?_, ?_, nofun, ?_⟩
      · show _ ↔ (Loc.scan rest).holds
        rw [show (Loc.scan rest).holds = s.loc.holds by simp [here, Loc.holds]]
        exact inv.main
      · intro j w storing
        have theirs := inv.excluded holds j
        have there : (s.file j).thread = .storing w := storing
        simp [there, ThreadLoc.holds] at theirs
      · show v - 1 = _ + 0
        rw [loaded, inv.ndone, here]
        simp [Loc.pending]
  · next here =>
      cases h
      exact inv.release (by simp [here, Loc.holds]) (by simp [here, Loc.pending]) rfl rfl nofun
  · cases h

/-- A step of the loop keeps the count guarded. -/
theorem Guarded.loopStep {found : Fin nfiles → Loc nfiles} (inv : Guarded s)
    (outside : ∀ i, (found i).holds = false ∧ (found i).pending = 0
      ∧ ∀ v rest, found i ≠ .store v rest)
    (h : loopStep found s = some s')
    : Guarded s' := by
  simp only [WebThreads.loopStep] at h
  split at h
  · next here =>
      cases h
      split <;> exact inv.move here rfl rfl nofun
  · next here =>
      cases h
      split <;> exact inv.move here rfl rfl nofun
  · next here =>
      cases h
      exact inv.move here rfl rfl nofun
  · next i rest here =>
      cases h
      obtain ⟨holds, pending, unloaded⟩ := outside i
      split
      · exact inv.move here holds pending unloaded
      · exact inv.move here rfl rfl nofun
  · cases h

-----------------------------------------------------------------------------------------
-- Flags and threads
-----------------------------------------------------------------------------------------

/-- The flags of a file, by where its thread is and where `main` is. -/
def FlagsOk (loc : Loc nfiles) (i : Fin nfiles) (f : File) : Prop :=
  match f.thread with
  | .absent => f.fFlags = .zero ∨ f.fFlags = .connecting ∧ loc = .create i
  | .connecting => f.fFlags = .connecting ∨ f.fFlags = .zero ∧ loc = .mark i
  | .sending => f.fFlags = .connecting ∨ f.fFlags = .zero ∧ loc = .mark i
  | .reading => f.fFlags = .reading ∨ f.fFlags = .connecting
  | .closing => f.fFlags = .reading ∨ f.fFlags = .connecting
  | .joined => f.fFlags = if loc.settles = some i then .done else .joined
  | _ => f.fFlags = .done

/-- Where the thread is of the file that `main` is at. `main` marks a file before it creates the
thread, or after.
-/
def LocOk (created : Bool) (file : Fin nfiles → File) : Loc nfiles → Prop
  | .create i => (file i).thread = .absent ∧ (created ∨ (file i).fFlags = .connecting)
  | .mark i => ((file i).thread = .absent ↔ created = false) ∧ (file i).thread ≠ .joined
  | .join i _ => (file i).thread.finished
  | .settle i _ => (file i).thread = .joined
  | _ => True

/-- A thread was created once, if there is one. -/
def StartsOk (f : File) : Prop := f.starts = if f.thread = .absent then 0 else 1

/-- The invariant that the two programs share. -/
structure Inv (created : Bool) (s : Client nfiles) : Prop where
  guarded : Guarded s
  flags : ∀ i, FlagsOk s.loc i (s.file i)
  starts : ∀ i, StartsOk (s.file i)
  loc : LocOk created s.file s.loc

variable {created : Bool} {loc' : Loc nfiles}

/-- The invariant holds at the start. -/
theorem start_inv (created : Bool) (nfiles : Nat) (maxnconn : Int)
    : Inv created (start nfiles maxnconn) :=
  ⟨start_guarded nfiles maxnconn, fun _ => Or.inl rfl, fun _ => rfl, trivial⟩

/-- A thread that has finished has marked its file. -/
theorem FlagsOk.of_finished (ok : FlagsOk loc i f) (finished : f.thread.finished)
    : f.fFlags = .done := by
  cases at_ : f.thread <;> simp_all [FlagsOk, ThreadLoc.finished]

/-- The flags of a file whose thread has finished. -/
theorem flagsOk_finished (finished : f.thread.finished) (done : f.fFlags = .done)
    : FlagsOk loc i f := by
  cases at_ : f.thread <;> simp_all [FlagsOk, ThreadLoc.finished]

/-- A thread that was counted has finished. -/
theorem ThreadLoc.counted_finished {thread : ThreadLoc} (counted : thread.counted)
    : thread.finished := by
  cases thread <;> simp_all [ThreadLoc.counted, ThreadLoc.finished]

/-- A file that is marked as joined has a thread that has been joined. -/
theorem FlagsOk.joined (ok : FlagsOk loc i f) (joined : f.fFlags = .joined)
    : f.thread = .joined := by
  cases at_ : f.thread <;> simp_all [FlagsOk]

/-- The flags of a file that `main` is not at do not depend on where it is. -/
theorem FlagsOk.frame (ok : FlagsOk loc i f) (creates : loc = .create i → loc' = .create i)
    (marks : loc = .mark i → loc' = .mark i)
    (settles : loc'.settles = some i ↔ loc.settles = some i)
    : FlagsOk loc' i f := by
  unfold FlagsOk at ok ⊢
  split at ok
  · exact ok.imp_right fun h => ⟨h.1, creates h.2⟩
  · exact ok.imp_right fun h => ⟨h.1, marks h.2⟩
  · exact ok.imp_right fun h => ⟨h.1, marks h.2⟩
  · exact ok
  · exact ok
  · rw [ok]
    simp only [settles]
  · exact ok

/-- The flags of a file stay right when `main` is done with another one. -/
theorem FlagsOk.elsewhere {j : Fin nfiles} (ok : FlagsOk loc j f) (other : j ≠ i)
    (here : loc = .create i ∨ loc = .mark i ∨ ∃ rest, loc = .settle i rest)
    (settles : loc'.settles = none)
    : FlagsOk loc' j f := by
  have apart : i ≠ j := other.symm
  have after : loc'.settles ≠ some j := by simp [settles]
  rcases here with rfl | rfl | ⟨rest, rfl⟩
  · exact ok.frame (by simp [apart]) nofun (iff_of_false after nofun)
  · exact ok.frame nofun (by simp [apart]) (iff_of_false after nofun)
  · exact ok.frame nofun nofun (iff_of_false after (by simp [Loc.settles, apart]))

/-- A file without flags has no thread, unless `main` has just created it. -/
theorem FlagsOk.absent (ok : FlagsOk loc i f) (zero : f.fFlags = .zero) (marks : loc ≠ .mark i)
    : f.thread = .absent := by
  cases at_ : f.thread with
  | absent => rfl
  | joined =>
      simp only [FlagsOk, at_, zero] at ok
      split at ok <;> cases ok
  | _ => simp_all [FlagsOk]

/-- The thread of a file that is marked as done has finished, unless `main` has just joined
it.
-/
theorem FlagsOk.finished (ok : FlagsOk loc i f) (done : f.fFlags = .done)
    (settles : loc.settles ≠ some i)
    : f.thread.finished := by
  cases at_ : f.thread <;> simp_all [FlagsOk, ThreadLoc.finished]

/-- What `main` knows of its file, the file's thread does not take away. -/
theorem LocOk.update {file : Fin nfiles → File} (ok : LocOk created file loc)
    (before : (file i).thread ≠ .absent ∧ (file i).thread ≠ .joined)
    (after : f.thread ≠ .absent ∧ f.thread ≠ .joined)
    (finished : (file i).thread.finished → f.thread.finished)
    : LocOk created (Function.update file i f) loc := by
  have at_ : ∀ j, Function.update file i f j = if j = i then f else file j := fun j => by
    by_cases same : j = i
    · subst same
      simp
    · simp [same]
  unfold LocOk at ok ⊢
  split at ok <;> simp only [at_] <;> split <;> simp_all

/-- The counters of `main` are the same. -/
structure SameCounters (s s' : Client nfiles) : Prop where
  maxnconn : s'.maxnconn = s.maxnconn
  nconn : s'.nconn = s.nconn
  nlefttoconn : s'.nlefttoconn = s.nlefttoconn
  nlefttoread : s'.nlefttoread = s.nlefttoread

/-- What a step of the thread of a file does to its file, and to where `main` is. -/
structure ThreadMoves (s : Client nfiles) (i : Fin nfiles) (s' : Client nfiles) (f : File)
    : Prop where
  file : s'.file = Function.update s.file i f
  starts : f.starts = (s.file i).starts
  loc : s'.loc = s.loc ∨ s.loc = .waiting ∧ s'.loc = .woken
  move : (s.file i).thread = .sending ∧ f.thread = .reading ∧ f.fFlags = .reading
    ∨ (s.file i).thread = .closing ∧ f.thread = .locking ∧ f.fFlags = .done
    ∨ (s.file i).thread.finished ∧ f.thread.finished ∧ f.fFlags = (s.file i).fFlags
  counted : (s.file i).thread.counted → f.thread.counted
  counters : SameCounters s s'
  ndone : s'.ndone = s.ndone ∨ (s.file i).thread.holds

/-- What a step of a thread changes. -/
theorem threadStep_moves (h : threadStep signals s i = some s') : ∃ f, ThreadMoves s i s' f := by
  simp only [threadStep] at h
  split at h
  · next at_ =>
      cases h
      exact ⟨_, rfl, rfl, .inl rfl, .inl ⟨at_, rfl, rfl⟩, by simp [at_, ThreadLoc.counted],
        ⟨rfl, rfl, rfl, rfl⟩, .inl rfl⟩
  · next at_ =>
      cases h
      exact ⟨_, rfl, rfl, .inl rfl, .inr (.inl ⟨at_, rfl, rfl⟩), by simp [at_, ThreadLoc.counted],
        ⟨rfl, rfl, rfl, rfl⟩, .inl rfl⟩
  · next at_ =>
      split at h <;> cases h
      exact ⟨_, rfl, rfl, .inl rfl, .inr (.inr ⟨by rw [at_]; rfl, rfl, rfl⟩),
        by simp [at_, ThreadLoc.counted], ⟨rfl, rfl, rfl, rfl⟩, .inl rfl⟩
  · next at_ =>
      cases h
      exact ⟨_, rfl, rfl, .inl rfl, .inr (.inr ⟨by rw [at_]; rfl, rfl, rfl⟩),
        by simp [at_, ThreadLoc.counted], ⟨rfl, rfl, rfl, rfl⟩, .inl rfl⟩
  · next at_ =>
      cases h
      refine ⟨_, rfl, rfl, .inl rfl, .inr (.inr ⟨by rw [at_]; rfl, ?_, rfl⟩), ?_,
        ⟨rfl, rfl, rfl, rfl⟩, .inr (by rw [at_]; rfl)⟩
      · cases signals <;> rfl
      · simp [at_, ThreadLoc.counted]
  · next at_ =>
      cases h
      refine ⟨_, rfl, rfl, ?_, .inr (.inr ⟨by rw [at_]; rfl, rfl, rfl⟩), fun _ => rfl,
        ⟨rfl, rfl, rfl, rfl⟩, .inl rfl⟩
      by_cases here : s.loc = .waiting
      · exact .inr ⟨here, if_pos here⟩
      · exact .inl (if_neg here)
  · next at_ =>
      cases h
      exact ⟨_, rfl, rfl, .inl rfl, .inr (.inr ⟨by rw [at_]; rfl, rfl, rfl⟩),
        by simp [at_, ThreadLoc.counted], ⟨rfl, rfl, rfl, rfl⟩, .inl rfl⟩
  · cases h

/-- A thread that has finished is there and not joined. -/
theorem ThreadLoc.finished_ne {thread : ThreadLoc} (finished : thread.finished)
    : thread ≠ .absent ∧ thread ≠ .joined := by
  constructor <;>
    · rintro rfl
      cases finished

/-- A thread that moves has been created and not joined, before and after. -/
theorem ThreadMoves.out (moves : ThreadMoves s i s' f)
    : ((s.file i).thread ≠ .absent ∧ (s.file i).thread ≠ .joined)
      ∧ f.thread ≠ .absent ∧ f.thread ≠ .joined := by
  rcases moves.move with ⟨before, after, -⟩ | ⟨before, after, -⟩ | ⟨before, after, -⟩
  · simp [before, after]
  · simp [before, after]
  · exact ⟨ThreadLoc.finished_ne before, ThreadLoc.finished_ne after⟩

/-- A file changes, and its thread stays where it is for `main`. -/
theorem Inv.change (inv : Inv created s) (guarded : Guarded s')
    (file : s'.file = Function.update s.file i f)
    (loc : s'.loc = s.loc ∨ s.loc = .waiting ∧ s'.loc = .woken)
    (flags : FlagsOk s.loc i f) (starts : StartsOk f)
    (before : (s.file i).thread ≠ .absent ∧ (s.file i).thread ≠ .joined)
    (after : f.thread ≠ .absent ∧ f.thread ≠ .joined)
    (finished : (s.file i).thread.finished → f.thread.finished)
    : Inv created s' := by
  have frame : ∀ {j g}, FlagsOk s.loc j g → FlagsOk s'.loc j g := by
    intro j g ok
    rcases loc with same | ⟨waiting, woken⟩
    · rw [same]
      exact ok
    · rw [waiting] at ok
      rw [woken]
      exact ok.frame nofun nofun Iff.rfl
  refine ⟨guarded, ?_, ?_, ?_⟩
  · rw [file]
    exact (Function.forall_update_iff s.file fun j g => FlagsOk s'.loc j g).mpr
      ⟨frame flags, fun j _ => frame (inv.flags j)⟩
  · rw [file]
    exact (Function.forall_update_iff s.file fun _ g => StartsOk g).mpr
      ⟨starts, fun j _ => inv.starts j⟩
  · rw [file]
    rcases loc with same | ⟨-, woken⟩
    · rw [same]
      exact inv.loc.update before after finished
    · rw [woken]
      trivial

/-- A step of a thread keeps the invariant. -/
theorem Inv.threadStep (inv : Inv created s) (h : threadStep signals s i = some s')
    : Inv created s' := by
  obtain ⟨f, moves⟩ := threadStep_moves h
  obtain ⟨out, out'⟩ := moves.out
  have starts := inv.starts i
  rw [StartsOk, if_neg out.1, ← moves.starts] at starts
  refine inv.change (inv.guarded.threadStep h) moves.file moves.loc ?_ ?_ out out' ?_
  · rcases moves.move with ⟨-, after, same⟩ | ⟨-, after, same⟩ | ⟨before, after, same⟩
    · simp [FlagsOk, after, same]
    · simp [FlagsOk, after, same]
    · exact flagsOk_finished after (same.trans ((inv.flags i).of_finished before))
  · rw [StartsOk, if_neg out'.1]
    exact starts
  · rcases moves.move with ⟨before, -⟩ | ⟨before, -⟩ | ⟨-, after, -⟩
    · simp [before, ThreadLoc.finished]
    · simp [before, ThreadLoc.finished]
    · exact fun _ => after

/-- What the server of a file does to it. -/
theorem serverStep_moves {n : Nat} (h : serverStep s i n = some s')
    : s' = s ∨ ∃ thread, s' = s.setFile i { s.file i with thread }
        ∧ ((s.file i).thread = .connecting ∧ thread = .sending
          ∨ (s.file i).thread = .reading ∧ thread = .closing) := by
  simp only [serverStep] at h
  split at h
  · next at_ =>
      cases h
      exact .inr ⟨_, rfl, .inl ⟨at_, rfl⟩⟩
  · next at_ =>
      cases h
      split
      · exact .inr ⟨_, rfl, .inr ⟨at_, rfl⟩⟩
      · exact .inl rfl
  · cases h

/-- A step of a server keeps the invariant. -/
theorem Inv.serverStep {n : Nat} (inv : Inv created s) (h : serverStep s i n = some s')
    : Inv created s' := by
  have guarded := inv.guarded.serverStep h
  have flags := inv.flags i
  have starts := inv.starts i
  rcases serverStep_moves h with rfl | ⟨thread, rfl, ⟨at_, rfl⟩ | ⟨at_, rfl⟩⟩
  · exact inv
  · refine inv.change guarded rfl (.inl rfl) ?_ ?_ (by simp [at_]) (by simp) ?_
    · simpa [FlagsOk, at_] using flags
    · simpa [StartsOk, at_] using starts
    · simp [at_, ThreadLoc.finished]
  · refine inv.change guarded rfl (.inl rfl) ?_ ?_ (by simp [at_]) (by simp) ?_
    · simpa [FlagsOk, at_] using flags
    · simpa [StartsOk, at_] using starts
    · simp [at_, ThreadLoc.finished]

/-- `main` is not between the two steps that start a thread or end it. -/
def Loc.plain : Loc nfiles → Bool
  | .create _ => false
  | .mark _ => false
  | .settle _ _ => false
  | _ => true

/-- The place of the main thread does not matter to the flags. -/
theorem FlagsOk.of_plain (ok : FlagsOk loc i f) (plain : loc.plain)
    (settles : loc'.settles ≠ some i)
    : FlagsOk loc' i f := by
  have none_ : loc.settles ≠ some i := by
    unfold Loc.plain at plain
    unfold Loc.settles
    split <;> simp_all
  refine ok.frame ?_ ?_ (iff_of_false settles none_)
  · rintro rfl
    cases plain
  · rintro rfl
    cases plain

/-- `main` goes on, and no file changes. -/
theorem Inv.move (inv : Inv created s) (guarded : Guarded s') (file : s'.file = s.file)
    (plain : s.loc.plain) (settles : s'.loc.settles = none) (ok : LocOk created s.file s'.loc)
    : Inv created s' := by
  refine ⟨guarded, ?_, ?_, ?_⟩
  · rw [file]
    exact fun i => (inv.flags i).of_plain plain (by simp [settles])
  · rw [file]
    exact inv.starts
  · rw [file]
    exact ok

/-- A join keeps the invariant. -/
theorem Inv.joinStep (inv : Inv created s) (h : joinStep s = some s')
    : Inv created s' := by
  have guarded := inv.guarded.joinStep h
  have ok := inv.loc
  simp only [WebThreads.joinStep] at h
  split at h
  · next here =>
      cases h
      exact inv.move guarded rfl (by rw [here]; rfl) rfl trivial
  · next i rest here =>
      cases h
      by_cases done : (s.file i).fFlags = .done
      · simp only [if_pos done] at guarded ⊢
        refine inv.move guarded rfl (by rw [here]; rfl) rfl ?_
        exact (inv.flags i).finished done (by simp [here, Loc.settles])
      · simp only [if_neg done] at guarded ⊢
        exact inv.move guarded rfl (by rw [here]; rfl) rfl trivial
  · next i rest here =>
      split at h <;> cases h
      next at_ =>
        have done := (inv.flags i).of_finished (by rw [at_]; rfl)
        have starts := inv.starts i
        refine ⟨guarded, forall_setFile (P := FlagsOk (.settle i rest)) ?_ ?_,
          forall_setFile (P := fun _ => StartsOk) ?_ fun j _ => inv.starts j, ?_⟩
        · simp [FlagsOk, Loc.settles, done]
        · intro j other
          have apart : i ≠ j := other.symm
          exact (inv.flags j).of_plain (by rw [here]; rfl) (by simp [Loc.settles, apart])
        · simpa [StartsOk, at_] using starts
        · simp [LocOk, Client.setFile]
  · next i rest here =>
      cases h
      rw [here] at ok
      have joined : (s.file i).thread = .joined := ok
      have starts := inv.starts i
      refine ⟨guarded, forall_setFile (P := FlagsOk (.load rest)) ?_ ?_,
        forall_setFile (P := fun _ => StartsOk) starts fun j _ => inv.starts j, trivial⟩
      · simp [FlagsOk, joined, Loc.settles]
      · exact fun j other => (inv.flags j).elsewhere other (.inr (.inr ⟨rest, here⟩)) rfl
  · next rest here =>
      cases h
      exact inv.move guarded rfl (by rw [here]; rfl) rfl trivial
  · next v rest here =>
      cases h
      exact inv.move guarded rfl (by rw [here]; rfl) rfl trivial
  · next here =>
      cases h
      exact inv.move guarded rfl (by rw [here]; rfl) rfl trivial
  · cases h

/-- `found` is a place outside the critical section that expects a file without a thread. -/
structure Expects (created : Bool) (found : Fin nfiles → Loc nfiles) : Prop where
  outside : ∀ i, (found i).holds = false ∧ (found i).pending = 0
    ∧ ∀ v rest, found i ≠ .store v rest
  settles : ∀ i, (found i).settles = none
  absent : ∀ {file : Fin nfiles → File} {i}, (file i).thread = .absent
    → LocOk created file (found i)

/-- A step of the loop keeps the invariant. -/
theorem Inv.loopStep {found : Fin nfiles → Loc nfiles} (inv : Inv created s)
    (expects : Expects created found) (h : loopStep found s = some s')
    : Inv created s' := by
  have guarded := inv.guarded.loopStep expects.outside h
  simp only [WebThreads.loopStep] at h
  split at h
  · next here =>
      cases h
      refine inv.move guarded rfl (by rw [here]; rfl) ?_ ?_ <;> split <;> trivial
  · next here =>
      cases h
      refine inv.move guarded rfl (by rw [here]; rfl) ?_ ?_ <;> split <;> trivial
  · next here =>
      cases h
      exact inv.move guarded rfl (by rw [here]; rfl) rfl trivial
  · next i rest here =>
      cases h
      by_cases zero : (s.file i).fFlags = .zero
      · simp only [if_pos zero] at guarded ⊢
        refine inv.move guarded rfl (by rw [here]; rfl) (expects.settles i) ?_
        exact expects.absent ((inv.flags i).absent zero (by simp [here]))
      · simp only [if_neg zero] at guarded ⊢
        exact inv.move guarded rfl (by rw [here]; rfl) rfl trivial
  · cases h

/-- A step on the mutex keeps the invariant. -/
theorem Inv.lockStep (inv : Inv created s) (plain : s.loc.plain) (outside : s.loc.pending = 0)
    (h : lockStep s = some s')
    : Inv created s' := by
  have guarded := inv.guarded.lockStep outside h
  unfold WebThreads.lockStep at h
  split at h <;> cases h
  exact inv.move guarded rfl plain rfl trivial

-----------------------------------------------------------------------------------------
-- What a file does not lose
-----------------------------------------------------------------------------------------

/-- The mark of a joined thread stays, and a thread does not come back before its increment. -/
structure Keeps (f f' : File) : Prop where
  joined : f.fFlags = .joined → f'.fFlags = .joined
  incremented : f.incremented → f'.incremented

/-- Nothing has changed. -/
theorem Keeps.refl (f : File) : Keeps f f := ⟨id, id⟩

/-- Two steps that keep what is remembered. -/
theorem Keeps.trans {f f' f'' : File} (first : Keeps f f') (second : Keeps f' f'')
    : Keeps f f'' :=
  ⟨second.joined ∘ first.joined, second.incremented ∘ first.incremented⟩

/-- The files other than the changed one stay as they are. -/
theorem keeps_update (file : s'.file = Function.update s.file i f) (keeps : Keeps (s.file i) f)
    (j : Fin nfiles)
    : Keeps (s.file j) (s'.file j) := by
  rw [file]
  by_cases same : j = i
  · subst same
    rwa [Function.update_self]
  · rw [Function.update_of_ne same]
    exact .refl _

/-- A step of a thread keeps what is remembered. -/
theorem Inv.keeps_threadStep (inv : Inv created s)
    (h : WebThreads.threadStep signals s i = some s') (j : Fin nfiles)
    : Keeps (s.file j) (s'.file j) := by
  obtain ⟨f, moves⟩ := threadStep_moves h
  obtain ⟨out, -⟩ := moves.out
  refine keeps_update moves.file ⟨fun joined => ?_, fun incremented => ?_⟩ j
  · exact absurd ((inv.flags i).joined joined) out.2
  · simp only [File.incremented, decide_eq_true_eq] at incremented ⊢
    rcases incremented with counted | joined
    · exact .inl (moves.counted counted)
    · exact absurd joined out.2

/-- A step of a server keeps what is remembered. -/
theorem keeps_serverStep {n : Nat} (h : serverStep s i n = some s') (j : Fin nfiles)
    : Keeps (s.file j) (s'.file j) := by
  rcases serverStep_moves h with rfl | ⟨thread, rfl, ⟨at_, rfl⟩ | ⟨at_, rfl⟩⟩
  · exact .refl _
  · refine keeps_update rfl ⟨?_, ?_⟩ j
    · exact id
    · simp [File.incremented, at_, ThreadLoc.counted]
  · refine keeps_update rfl ⟨?_, ?_⟩ j
    · exact id
    · simp [File.incremented, at_, ThreadLoc.counted]

/-- A join keeps what is remembered. -/
theorem keeps_joinStep (h : joinStep s = some s') (j : Fin nfiles)
    : Keeps (s.file j) (s'.file j) := by
  simp only [joinStep] at h
  split at h
  · cases h
    exact .refl _
  · cases h
    exact .refl _
  · split at h <;> cases h
    refine keeps_update rfl ⟨?_, ?_⟩ j
    · exact id
    · simp [File.incremented]
  · cases h
    refine keeps_update rfl ⟨?_, ?_⟩ j
    · exact fun _ => rfl
    · exact id
  · cases h
    exact .refl _
  · cases h
    exact .refl _
  · cases h
    exact .refl _
  · cases h

/-- A step of the loop leaves the files alone. -/
theorem loopStep_file {found : Fin nfiles → Loc nfiles} (h : loopStep found s = some s')
    : s'.file = s.file := by
  simp only [loopStep] at h
  split at h <;> cases h <;> rfl

/-- A step on the mutex leaves the files alone. -/
theorem lockStep_file (h : lockStep s = some s') : s'.file = s.file := by
  simp only [lockStep] at h
  split at h <;> cases h
  rfl

end Minions.Unp.WebThreads
