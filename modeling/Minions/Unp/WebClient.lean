import Minions.Data.Tally
import Minions.Logic.Events

/-! The web client with nonblocking connects: `web.c`, `start_connect.c` and
`write_get_cmd.c`.
The client keeps up to `maxnconn` connections going at once, each to read one file. The kernel
may hand out a descriptor again as soon as it is closed. No wrapped call fails.
-/

namespace Minions.Unp.WebClient

open Minions.Data Minions.Logic

variable {nfiles : Nat}

/-- `f_flags`: 0, `F_CONNECTING`, `F_READING` or `F_DONE`. -/
inductive Flags
  | zero
  | connecting
  | reading
  | done
  deriving DecidableEq

/-- `struct file`, with how often it was connected to and marked done. -/
structure File where
  fFd : Nat
  fFlags : Flags
  connects : Nat
  dones : Nat

/-- Where `main` is: at the condition of one of the two loops, before `Select`, or in the loop
over the files, with those still to come.
-/
inductive Loc (nfiles : Nat)
  | outer
  | inner
  | connecting
  | selecting
  | scanning (rest : List (Fin nfiles)) (rs ws : Finset Nat)
  | exit
  | quit
  deriving DecidableEq

structure Client (nfiles : Nat) where
  maxnconn : Int
  nconn : Int
  nlefttoconn : Int
  nlefttoread : Int
  maxfd : Int
  rset : Finset Nat
  wset : Finset Nat
  file : Fin nfiles → File
  loc : Loc nfiles

/-- Before the outer loop. The descriptors of the files are not set. -/
def start (nfiles : Nat) (maxnconn : Int) (fFd : Fin nfiles → Nat) : Client nfiles where
  maxnconn := maxnconn
  nconn := 0
  nlefttoconn := nfiles
  nlefttoread := nfiles
  maxfd := -1
  rset := ∅
  wset := ∅
  file := fun i => { fFd := fFd i, fFlags := .zero, connects := 0, dones := 0 }
  loc := .outer

/-- `file[i] = …` -/
def Client.setFile (s : Client nfiles) (i : Fin nfiles) (f : File) : Client nfiles :=
  { s with file := Function.update s.file i f }

def writeGetCmd (s : Client nfiles) (i : Fin nfiles) : Client nfiles :=
  let f := s.file i
  let s := s.setFile i { f with fFlags := .reading }
  { s with rset := insert f.fFd s.rset, maxfd := if f.fFd > s.maxfd then f.fFd else s.maxfd }

/-- `start_connect`, when `Socket` returns `fd` and `connect` succeeds at once or is in
progress.
-/
def startConnect (s : Client nfiles) (i : Fin nfiles) (fd : Nat) (immediate : Bool)
    : Client nfiles :=
  let f := { s.file i with fFd := fd, connects := (s.file i).connects + 1 }
  if immediate then writeGetCmd (s.setFile i f) i
  else
    let s := s.setFile i { f with fFlags := .connecting }
    { s with
      rset := insert fd s.rset
      wset := insert fd s.wset
      maxfd := if fd > s.maxfd then fd else s.maxfd }

/-- The body of the inner loop. -/
def connectNext (s : Client nfiles) (fd : Nat) (immediate : Bool) : Client nfiles :=
  match (List.finRange nfiles).find? fun i => (s.file i).fFlags = .zero with
  | none => { s with loc := .quit }
  | some i =>
      let s := startConnect s i fd immediate
      { s with nconn := s.nconn + 1, nlefttoconn := s.nlefttoconn - 1, loc := .inner }

/-- `Close`, `F_DONE` and the rest of what follows the end of a file. -/
def finish (s : Client nfiles) (i : Fin nfiles) : Client nfiles :=
  let f := s.file i
  let s := s.setFile i { f with fFlags := .done, dones := f.dones + 1 }
  { s with
    rset := s.rset.erase f.fFd
    nconn := s.nconn - 1
    nlefttoread := s.nlefttoread - 1 }

/-- What the loop over the files does for one of them. `Read` returns `n` where it is
called.
-/
def visit (s : Client nfiles) (i : Fin nfiles) (rs ws : Finset Nat) (n : Nat) : Client nfiles :=
  let f := s.file i
  match f.fFlags with
  | .zero => s
  | .done => s
  | .connecting =>
      if f.fFd ∈ rs ∨ f.fFd ∈ ws then writeGetCmd { s with wset := s.wset.erase f.fFd } i
      else s
  | .reading =>
      if f.fFd ∈ rs then
        if n = 0 then finish s i else s
      else s

inductive Event
  /-- The next condition of a loop is evaluated. -/
  | test
  /-- The body of the inner loop, with what `Socket` and `connect` return. -/
  | connect (fd : Nat) (immediate : Bool)
  | select (rs ws : Finset Nat)
  /-- The next file of the loop, with what `Read` returns. -/
  | visit (n : Nat)

def File.unconnected (f : File) : Bool := f.fFlags = .zero

def File.connecting (f : File) : Bool := f.fFlags = .connecting

/-- The file is being connected to or read. -/
def File.active (f : File) : Bool := f.fFlags = .connecting ∨ f.fFlags = .reading

def File.unread (f : File) : Bool := f.fFlags ≠ .done

/-- One step. `Socket` returns a descriptor that is not in use; `Select` returns some of the
ready descriptors it was asked for.
-/
def step (s : Client nfiles) : Event → Option (Client nfiles)
  | .test =>
      match s.loc with
      | .outer => some { s with loc := if s.nlefttoread > 0 then .inner else .exit }
      | .inner =>
          some { s with
            loc := if s.nconn < s.maxnconn ∧ s.nlefttoconn > 0 then .connecting else .selecting }
      | _ => none
  | .connect fd immediate =>
      match s.loc with
      | .connecting =>
          if ∀ i, (s.file i).active → (s.file i).fFd ≠ fd then some (connectNext s fd immediate)
          else none
      | _ => none
  | .select rs ws =>
      match s.loc with
      | .selecting =>
          if rs ⊆ s.rset ∧ ws ⊆ s.wset then
            some { s with loc := .scanning (List.finRange nfiles) rs ws }
          else none
      | _ => none
  | .visit n =>
      match s.loc with
      | .scanning [] _ _ => some { s with loc := .outer }
      | .scanning (i :: rest) rs ws =>
          some { visit s i rs ws n with loc := .scanning rest rs ws }
      | _ => none

-----------------------------------------------------------------------------------------
-- What the counters count
-----------------------------------------------------------------------------------------

/-- Some file with the property uses the descriptor. -/
def Client.Uses (s : Client nfiles) (p : File → Bool) (fd : Nat) : Prop :=
  ∃ i, p (s.file i) ∧ (s.file i).fFd = fd

/-- The counters, the descriptor sets and the flags of the files agree. -/
structure Accounted (s : Client nfiles) : Prop where
  nlefttoconn : s.nlefttoconn = tally File.unconnected s.file
  nconn : s.nconn = tally File.active s.file
  bound : s.nconn ≤ s.maxnconn
  nlefttoread : s.nlefttoread = tally File.unread s.file
  rset : ∀ fd, fd ∈ s.rset ↔ s.Uses File.active fd
  wset : ∀ fd, fd ∈ s.wset ↔ s.Uses File.connecting fd
  maxfd : ∀ fd ∈ s.rset ∪ s.wset, (fd : Int) ≤ s.maxfd
  once : ∀ i, (s.file i).connects ≤ 1 ∧ (s.file i).dones ≤ 1

/-- The invariant: the accounts, and that two connections never share a descriptor. -/
structure Inv (s : Client nfiles) : Prop where
  nlefttoconn : s.nlefttoconn = tally File.unconnected s.file
  nconn : s.nconn = tally File.active s.file
  bound : s.nconn ≤ s.maxnconn
  nlefttoread : s.nlefttoread = tally File.unread s.file
  rset : ∀ fd, fd ∈ s.rset ↔ s.Uses File.active fd
  wset : ∀ fd, fd ∈ s.wset ↔ s.Uses File.connecting fd
  maxfd : ∀ fd, s.Uses File.active fd → (fd : Int) ≤ s.maxfd
  apart : KeysApart File.active File.fFd s.file
  connects : ∀ i, (s.file i).connects = if (s.file i).fFlags = .zero then 0 else 1
  dones : ∀ i, (s.file i).dones = if (s.file i).fFlags = .done then 1 else 0

variable {s s' : Client nfiles} {event : Event} {i : Fin nfiles} {f : File} {p : File → Bool}
  {fd : Nat}

/-- A file that is connecting is active. -/
theorem active_of_connecting (h : f.connecting)
    : f.active := by
  simp_all [File.connecting, File.active]

/-- What holds of each file after one of them has changed. -/
theorem forall_setFile {P : Fin nfiles → File → Prop} (one : P i f)
    (others : ∀ j, j ≠ i → P j (s.file j))
    : ∀ j, P j ((s.setFile i f).file j) :=
  (Function.forall_update_iff s.file P).mpr ⟨one, others⟩

/-- The count of connections is right for all files when it is for the one that changes. -/
theorem Inv.connects_setFile (inv : Inv s) (one : f.connects = if f.fFlags = .zero then 0 else 1)
    : ∀ j, ((s.setFile i f).file j).connects
        = if ((s.setFile i f).file j).fFlags = .zero then 0 else 1 :=
  forall_setFile (P := fun _ f => f.connects = if f.fFlags = .zero then 0 else 1) one
    fun j _ => inv.connects j

/-- Each file is done at most once. -/
theorem Inv.dones_setFile (inv : Inv s) (one : f.dones = if f.fFlags = .done then 1 else 0)
    : ∀ j, ((s.setFile i f).file j).dones
        = if ((s.setFile i f).file j).fFlags = .done then 1 else 0 :=
  forall_setFile (P := fun _ f => f.dones = if f.fFlags = .done then 1 else 0) one
    fun j _ => inv.dones j

/-- A changed file uses its own descriptor; the others use theirs. -/
theorem uses_setFile
    : (s.setFile i f).Uses p fd
      ↔ (p f ∧ f.fFd = fd) ∨ ∃ j, j ≠ i ∧ p (s.file j) ∧ (s.file j).fFd = fd := by
  unfold Client.Uses Client.setFile
  constructor
  · intro ⟨j, hp, hfd⟩
    by_cases same : j = i
    · subst same
      exact .inl (by simpa using And.intro hp hfd)
    · exact .inr ⟨j, same, by simpa [same] using And.intro hp hfd⟩
  · rintro (own | ⟨j, other, rest⟩)
    · exact ⟨i, by simpa using own⟩
    · exact ⟨j, by simpa [other] using rest⟩

/-- A file that had no descriptor leaves the others with all of them. -/
theorem uses_others_of_not (off : ¬ p (s.file i))
    : (∃ j, j ≠ i ∧ p (s.file j) ∧ (s.file j).fFd = fd) ↔ s.Uses p fd := by
  constructor
  · intro ⟨j, _, use⟩
    exact ⟨j, use⟩
  · intro ⟨j, hp, hfd⟩
    refine ⟨j, ?_, hp, hfd⟩
    intro same
    exact off (same ▸ hp)

/-- An active file leaves the others with all descriptors but its own. -/
theorem Inv.uses_others (inv : Inv s) (on : (s.file i).active) (le : ∀ f, p f → f.active)
    : (∃ j, j ≠ i ∧ p (s.file j) ∧ (s.file j).fFd = fd)
      ↔ fd ≠ (s.file i).fFd ∧ s.Uses p fd := by
  constructor
  · intro ⟨j, other, hp, hfd⟩
    refine ⟨?_, j, hp, hfd⟩
    intro same
    exact other (inv.apart j i (le _ hp) on (hfd.trans same))
  · intro ⟨own, j, hp, hfd⟩
    refine ⟨j, ?_, hp, hfd⟩
    intro same
    exact own (same ▸ hfd.symm)

-----------------------------------------------------------------------------------------
-- The three changes of a file
-----------------------------------------------------------------------------------------

/-- Both branches of `start_connect` leave one file with a new descriptor. -/
theorem startConnect_eq (s : Client nfiles) (i : Fin nfiles) (fd : Nat) (immediate : Bool)
    : startConnect s i fd immediate
      = { s.setFile i { s.file i with
            fFd := fd
            fFlags := if immediate then .reading else .connecting
            connects := (s.file i).connects + 1 } with
          rset := insert fd s.rset
          wset := if immediate then s.wset else insert fd s.wset
          maxfd := if fd > s.maxfd then fd else s.maxfd } := by
  cases immediate <;> simp [startConnect, writeGetCmd, Client.setFile]

/-- A file with no flags gets a descriptor that no other connection uses. -/
theorem Inv.connect (inv : Inv s) (zero : (s.file i).fFlags = .zero)
    (fresh : ∀ j, (s.file j).active → (s.file j).fFd ≠ fd) (room : s.nconn < s.maxnconn)
    (immediate : Bool)
    : Inv { startConnect s i fd immediate with
        nconn := s.nconn + 1, nlefttoconn := s.nlefttoconn - 1, loc := .inner } := by
  rw [startConnect_eq]
  generalize hf : ({ s.file i with
    fFd := fd
    fFlags := if immediate then .reading else .connecting
    connects := (s.file i).connects + 1 } : File) = f
  have own : f.fFd = fd := by rw [← hf]
  have flags : f.fFlags = if immediate then .reading else .connecting := by rw [← hf]
  have on : f.active := by
    unfold File.active
    cases immediate <;> simp [flags]
  have off : ¬ (s.file i).active := by simp [File.active, zero]
  have uses : ∀ fd', (s.setFile i f).Uses File.active fd' ↔ fd' = fd ∨ s.Uses File.active fd' := by
    intro fd'
    rw [uses_setFile, uses_others_of_not off, own]
    simp [on, eq_comm]
  constructor
  case nlefttoconn =>
    show s.nlefttoconn - 1 = (tally _ (Function.update s.file i f) : Int)
    rw [tally_update_int, ← inv.nlefttoconn]
    cases immediate <;> simp [File.unconnected, zero, flags]
  case nconn =>
    show s.nconn + 1 = (tally _ (Function.update s.file i f) : Int)
    rw [tally_update_int, ← inv.nconn]
    simp [off, on]
  case bound =>
    show s.nconn + 1 ≤ s.maxnconn
    omega
  case nlefttoread =>
    show s.nlefttoread = (tally _ (Function.update s.file i f) : Int)
    rw [tally_update_int, ← inv.nlefttoread]
    cases immediate <;> simp [File.unread, zero, flags]
  case rset =>
    intro fd'
    show fd' ∈ insert fd s.rset ↔ _
    rw [Finset.mem_insert, inv.rset]
    exact (uses fd').symm
  case wset =>
    intro fd'
    have off : ¬ (s.file i).connecting := by simp [File.connecting, zero]
    show fd' ∈ (if immediate then s.wset else insert fd s.wset)
      ↔ (s.setFile i f).Uses File.connecting fd'
    rw [uses_setFile, uses_others_of_not off, own]
    cases immediate <;> simp [File.connecting, flags, inv.wset, eq_comm]
  case maxfd =>
    intro fd' hu
    have bounded := inv.maxfd fd'
    show (fd' : Int) ≤ if fd > s.maxfd then (fd : Int) else s.maxfd
    rcases (uses fd').mp hu with rfl | hu
    · split <;> omega
    · have := bounded hu
      split <;> omega
  case apart =>
    apply inv.apart.update
    intro j _ _ hj
    rw [own]
    exact fresh j hj
  case connects =>
    apply inv.connects_setFile
    have before := inv.connects i
    rw [if_pos zero] at before
    rw [← hf]
    cases immediate <;> simp [before]
  case dones =>
    apply inv.dones_setFile
    have before := inv.dones i
    rw [zero] at before
    rw [← hf]
    cases immediate <;> simpa using before

/-- A connection in progress is established: its file keeps the descriptor and is read. -/
theorem Inv.establish (inv : Inv s) (connecting : (s.file i).fFlags = .connecting)
    : Inv (writeGetCmd { s with wset := s.wset.erase (s.file i).fFd } i) := by
  have on : (s.file i).active := by simp [File.active, connecting]
  generalize hf : ({ s.file i with fFlags := .reading } : File) = f
  have own : f.fFd = (s.file i).fFd := by rw [← hf]
  have flags : f.fFlags = .reading := by rw [← hf]
  have still : f.active := by simp [File.active, flags]
  have used : s.Uses File.active (s.file i).fFd := ⟨i, on, rfl⟩
  have uses : ∀ fd, (s.setFile i f).Uses File.active fd ↔ s.Uses File.active fd := by
    intro fd
    rw [uses_setFile, inv.uses_others on fun _ => id, own]
    by_cases same : fd = (s.file i).fFd
    · simp [same, still, used]
    · have : ¬ (s.file i).fFd = fd := fun met => same met.symm
      simp [same, this]
  have bounded := inv.maxfd _ used
  unfold writeGetCmd
  simp only [hf]
  constructor
  case nlefttoconn =>
    show s.nlefttoconn = (tally _ (Function.update s.file i f) : Int)
    rw [tally_update_int, ← inv.nlefttoconn]
    simp [File.unconnected, connecting, flags]
  case nconn =>
    show s.nconn = (tally _ (Function.update s.file i f) : Int)
    rw [tally_update_int, ← inv.nconn]
    simp [on, still]
  case bound => exact inv.bound
  case nlefttoread =>
    show s.nlefttoread = (tally _ (Function.update s.file i f) : Int)
    rw [tally_update_int, ← inv.nlefttoread]
    simp [File.unread, connecting, flags]
  case rset =>
    intro fd
    show fd ∈ insert (s.file i).fFd s.rset ↔ (s.setFile i f).Uses File.active fd
    rw [uses, Finset.mem_insert, inv.rset]
    constructor
    · rintro (rfl | hu)
      · exact used
      · exact hu
    · exact .inr
  case wset =>
    intro fd
    show fd ∈ s.wset.erase (s.file i).fFd ↔ (s.setFile i f).Uses File.connecting fd
    rw [uses_setFile, inv.uses_others on @active_of_connecting, Finset.mem_erase, inv.wset]
    simp [File.connecting, flags]
  case maxfd =>
    intro fd hu
    have := inv.maxfd fd ((uses fd).mp hu)
    show (fd : Int) ≤ if ((s.file i).fFd : Int) > s.maxfd then ((s.file i).fFd : Int) else s.maxfd
    split <;> omega
  case apart =>
    apply inv.apart.update
    intro j other _ hj
    rw [own]
    exact fun same => other (inv.apart j i hj on same)
  case connects =>
    apply inv.connects_setFile
    have before := inv.connects i
    rw [connecting] at before
    rw [← hf]
    simpa using before
  case dones =>
    apply inv.dones_setFile
    have before := inv.dones i
    rw [connecting] at before
    rw [← hf]
    simpa using before

/-- The end of a file gives its descriptor back. -/
theorem Inv.finish (inv : Inv s) (reading : (s.file i).fFlags = .reading)
    : Inv (finish s i) := by
  have on : (s.file i).active := by simp [File.active, reading]
  generalize hf : ({ s.file i with fFlags := .done, dones := (s.file i).dones + 1 } : File) = f
  have flags : f.fFlags = .done := by rw [← hf]
  have off : ¬ f.active := by simp [File.active, flags]
  have uses : ∀ fd, (s.setFile i f).Uses File.active fd
      ↔ fd ≠ (s.file i).fFd ∧ s.Uses File.active fd := by
    intro fd
    rw [uses_setFile, inv.uses_others on fun _ => id]
    simp [off]
  unfold WebClient.finish
  simp only [hf]
  constructor
  case nlefttoconn =>
    show s.nlefttoconn = (tally _ (Function.update s.file i f) : Int)
    rw [tally_update_int, ← inv.nlefttoconn]
    simp [File.unconnected, reading, flags]
  case nconn =>
    show s.nconn - 1 = (tally _ (Function.update s.file i f) : Int)
    rw [tally_update_int, ← inv.nconn]
    simp [on, off]
  case bound =>
    have := inv.bound
    show s.nconn - 1 ≤ s.maxnconn
    omega
  case nlefttoread =>
    show s.nlefttoread - 1 = (tally _ (Function.update s.file i f) : Int)
    rw [tally_update_int, ← inv.nlefttoread]
    simp [File.unread, reading, flags]
  case rset =>
    intro fd
    show fd ∈ s.rset.erase (s.file i).fFd ↔ (s.setFile i f).Uses File.active fd
    rw [uses, Finset.mem_erase, inv.rset]
  case wset =>
    intro fd
    have other : ¬ (s.file i).connecting := by simp [File.connecting, reading]
    show fd ∈ s.wset ↔ (s.setFile i f).Uses File.connecting fd
    rw [uses_setFile, uses_others_of_not other, inv.wset]
    simp [File.connecting, flags]
  case maxfd =>
    intro fd hu
    exact inv.maxfd fd ((uses fd).mp hu).2
  case apart =>
    apply inv.apart.update
    intro j _ on'
    exact absurd on' off
  case connects =>
    apply inv.connects_setFile
    have before := inv.connects i
    rw [reading] at before
    rw [← hf]
    simpa using before
  case dones =>
    apply inv.dones_setFile
    have before := inv.dones i
    rw [reading] at before
    rw [← hf]
    simpa using before

-----------------------------------------------------------------------------------------
-- Every run
-----------------------------------------------------------------------------------------

/-- The body of the inner loop is entered only with a file to connect to, and `err_quit` is
not.
-/
def Client.Placed (s : Client nfiles) : Prop :=
  match s.loc with
  | .connecting => s.nconn < s.maxnconn ∧ 0 < s.nlefttoconn
  | .quit => False
  | _ => True

/-- The invariant does not look at where `main` is. -/
theorem Inv.move (inv : Inv s) (loc : Loc nfiles)
    : Inv { s with loc } :=
  ⟨inv.nlefttoconn, inv.nconn, inv.bound, inv.nlefttoread, inv.rset, inv.wset, inv.maxfd,
    inv.apart, inv.connects, inv.dones⟩

/-- The invariant holds at the start. -/
theorem start_inv {maxnconn : Int} (nonnegative : 0 ≤ maxnconn) (fFd : Fin nfiles → Nat)
    : Inv (start nfiles maxnconn fFd) := by
  constructor <;>
    simp [start, tally, nonnegative, Client.Uses, File.unconnected, File.active, File.connecting,
      File.unread, KeysApart]

/-- With files left to connect to, the search finds one. -/
theorem Inv.connectNext (inv : Inv s) (room : s.nconn < s.maxnconn)
    (left : 0 < s.nlefttoconn) (fresh : ∀ j, (s.file j).active → (s.file j).fFd ≠ fd)
    (immediate : Bool)
    : Inv (connectNext s fd immediate) ∧ (connectNext s fd immediate).loc = .inner := by
  unfold WebClient.connectNext
  split
  · next notFound =>
      have positive : 0 < tally File.unconnected s.file := by
        have := inv.nlefttoconn
        omega
      obtain ⟨i, hi⟩ := tally_pos_iff.mp positive
      exact absurd hi (by
        simpa [File.unconnected] using List.find?_eq_none.mp notFound i (List.mem_finRange i))
  · next i found =>
      have zero : (s.file i).fFlags = .zero := by
        simpa using List.find?_some found
      have connected := inv.connect zero fresh room immediate
      rw [startConnect_eq] at connected ⊢
      exact ⟨connected, rfl⟩

/-- A visit of a file keeps the invariant. -/
theorem Inv.visit (inv : Inv s) (i : Fin nfiles) (rs ws : Finset Nat) (n : Nat)
    : Inv (visit s i rs ws n) := by
  unfold WebClient.visit
  dsimp only
  split
  · exact inv
  · exact inv
  · next connecting =>
      split
      · exact inv.establish connecting
      · exact inv
  · next reading =>
      split
      · split
        · exact inv.finish reading
        · exact inv
      · exact inv

/-- Every step keeps the invariant, by the kind of event. -/
theorem step_inv (h : step s event = some s') (inv : Inv s ∧ s.Placed)
    : Inv s' ∧ s'.Placed := by
  obtain ⟨inv, placed⟩ := inv
  cases event with
  | test =>
      simp only [step] at h
      split at h <;> cases h
      · refine ⟨inv.move _, ?_⟩
        by_cases left : s.nlefttoread > 0 <;> simp [Client.Placed, left]
      · refine ⟨inv.move _, ?_⟩
        by_cases more : s.nconn < s.maxnconn ∧ s.nlefttoconn > 0
        · simp [Client.Placed, more]
        · simp [Client.Placed, more]
  | connect fd immediate =>
      simp only [step] at h
      split at h
      · next here =>
          simp only [Client.Placed, here] at placed
          split at h <;> cases h
          next fresh =>
            obtain ⟨after, at_⟩ := inv.connectNext placed.1 placed.2 fresh immediate
            exact ⟨after, by simp [Client.Placed, at_]⟩
      · cases h
  | select rs ws =>
      simp only [step] at h
      split at h
      · split at h <;> cases h
        exact ⟨inv.move _, trivial⟩
      · cases h
  | visit n =>
      simp only [step] at h
      split at h <;> cases h
      · exact ⟨inv.move _, trivial⟩
      · exact ⟨(inv.visit _ _ _ n).move _, trivial⟩

/-- Under the invariant every file is accounted for. -/
theorem Inv.accounted (inv : Inv s)
    : Accounted s := by
  have once : ∀ i, (s.file i).connects ≤ 1 ∧ (s.file i).dones ≤ 1 := by
    intro i
    rw [inv.connects, inv.dones]
    constructor <;> split <;> omega
  have maxfd : ∀ fd ∈ s.rset ∪ s.wset, (fd : Int) ≤ s.maxfd := by
    intro fd mem
    apply inv.maxfd
    rcases Finset.mem_union.mp mem with mem | mem
    · exact (inv.rset fd).mp mem
    · obtain ⟨i, connecting, own⟩ := (inv.wset fd).mp mem
      exact ⟨i, active_of_connecting connecting, own⟩
  exact ⟨inv.nlefttoconn, inv.nconn, inv.bound, inv.nlefttoread, inv.rset, inv.wset, maxfd, once⟩

/-- Along every run the counters, the descriptor sets and the flags agree whenever a loop
condition is evaluated, no file is connected to or marked done twice, and the search for a
file never fails. Witness: induction over the run.
-/
theorem reachable_accounted {maxnconn : Int} (nonnegative : 0 ≤ maxnconn)
    {fFd : Fin nfiles → Nat} (h : Reachable step (start nfiles maxnconn fFd) s)
    : Accounted s ∧ s.loc ≠ .quit := by
  obtain ⟨inv, placed⟩ := h.invariant ⟨start_inv nonnegative fFd, trivial⟩ step_inv
  refine ⟨inv.accounted, ?_⟩
  intro quit
  simp [Client.Placed, quit] at placed

/-- The first file connects at once and ends; the third takes over its descriptor while the
second is still connecting.
-/
def threeFiles : List Event :=
  [.test, .test, .connect 3 true, .test, .connect 4 false, .test, .select {3} {}, .visit 0,
    .visit 0, .visit 0, .visit 0, .test, .test, .connect 3 false, .test]

/-- A run with three files and two connections. -/
theorem reachable_accounted_threeFiles
    : ∃ s, runEvents step (start 3 2 fun _ => 0) threeFiles = some s
      ∧ s.loc = .selecting ∧ s.wset = {3, 4} ∧ s.nlefttoread = 2
      ∧ Accounted s ∧ s.loc ≠ .quit := by
  have happens : (runEvents step (start 3 2 fun _ => 0) threeFiles).isSome := by decide
  exact ⟨_, (Option.some_get happens).symm, rfl, by decide +revert, rfl,
    reachable_accounted (by decide) (.of_isSome happens)⟩

end Minions.Unp.WebClient
