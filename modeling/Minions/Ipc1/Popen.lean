import Minions.Logic.Events
import Mathlib.Logic.Function.Basic

/-! `popen` and `pclose`: a pipe to a child that runs a command.
The process is its descriptors, its children and the array `childpid[]` that joins them. What the
system calls answer is given with each call.
-/

namespace Minions.Ipc1.Popen

open Minions.Logic

/-- What a descriptor refers to: one end of a pipe, or anything else. -/
inductive File where
  | pipe (id : Nat) (writeEnd : Bool)
  | other (id : Nat)
  deriving DecidableEq

/-- The descriptor table of a process. -/
abbrev Fds := Nat → Option File

def STDIN_FILENO : Nat := 0
def STDOUT_FILENO : Nat := 1

/-- `close(fd)` -/
def close (fds : Fds) (fd : Nat) : Fds := Function.update fds fd none

/-- `dup2(oldfd, newfd)` -/
def dup2 (fds : Fds) (oldfd newfd : Nat) : Fds := Function.update fds newfd (fds oldfd)

/-- A process that calls `popen` and `pclose`. -/
structure State where
  fds : Fds
  /-- the array allocated at run-time, `none` for `NULL` -/
  childpid : Option (List Nat)
  maxfd : Nat
  /-- the children that are running -/
  children : List Nat
  /-- `fileno` of the streams that `popen` has returned and that are still open -/
  streams : List Nat
  /-- the number of pipes there have been -/
  pipes : Nat

/-- `childpid[i]`, which is 0 where the array does not say otherwise. -/
def State.recorded (s : State) (i : Nat) : Nat := s.childpid.elim 0 (·.getD i 0)

/-- What the system calls of one call of `popen` answer, as far as they are made. -/
structure Answers where
  openMax : Nat
  calloc : Bool
  pipe : Option (Nat × Nat)
  fork : Option Nat
  fdopen : Bool

/-- What a call of `popen` leaves: its result, the process, and the descriptors with which the
child reaches `execl`, if there is one.
-/
structure Opened where
  fp : Option Nat
  state : State
  child : Option Fds

/-- `type` is neither `"r"` nor `"w"`. -/
def badType (type : List Char) : Bool :=
  (type.getD 0 '\x00' ≠ 'r' ∧ type.getD 0 '\x00' ≠ 'w') ∨ type.getD 1 '\x00' ≠ '\x00'

/-- The array is allocated, the first time through. -/
def State.allocate (s : State) (a : Answers) : State :=
  match s.childpid with
  | some _ => s
  | none =>
      { s with
        maxfd := a.openMax
        childpid := if a.calloc then some (List.replicate a.openMax 0) else none }

/-- `pipe(pfd)` -/
def State.pipe (s : State) (pfd : Nat × Nat) : State :=
  { s with
    fds := Function.update (Function.update s.fds pfd.1 (some (.pipe s.pipes false)))
      pfd.2 (some (.pipe s.pipes true))
    pipes := s.pipes + 1 }

/-- The child makes its end of the pipe its standard output or its standard input. -/
def wire (type : List Char) (pfd : Nat × Nat) (fds : Fds) : Fds :=
  if type.getD 0 '\x00' = 'r' then
    let fds := close fds pfd.1
    if pfd.2 ≠ STDOUT_FILENO then close (dup2 fds pfd.2 STDOUT_FILENO) pfd.2 else fds
  else
    let fds := close fds pfd.2
    if pfd.1 ≠ STDIN_FILENO then close (dup2 fds pfd.1 STDIN_FILENO) pfd.1 else fds

/-- The descriptors of the child when it reaches `execl`: all those in `childpid[]` are closed. -/
def childFds (type : List Char) (pfd : Nat × Nat) (s : State) : Fds :=
  (List.range s.maxfd).foldl (fun fds i => if s.recorded i > 0 then close fds i else fds)
    (wire type pfd s.fds)

/-- `popen` from `fork` on. -/
def popenFork (type : List Char) (a : Answers) (pfd : Nat × Nat) (s : State) : Opened :=
  match a.fork with
  | none => ⟨none, s, none⟩
  | some pid =>
      let child := childFds type pfd s
      -- The parent closes the end that it has given to the child.
      let (kept, given) := if type.getD 0 '\x00' = 'r' then pfd else pfd.swap
      let s := { s with children := pid :: s.children, fds := close s.fds given }
      if a.fdopen then
        ⟨some kept,
          { s with childpid := s.childpid.map (·.set kept pid), streams := kept :: s.streams },
          some child⟩
      else ⟨none, s, some child⟩

/-- `popen(cmdstring, type)` -/
def popen (type : List Char) (a : Answers) (s : State) : Opened :=
  if badType type then ⟨none, s, none⟩
  else
    let s := s.allocate a
    if s.childpid = none then ⟨none, s, none⟩
    else match a.pipe with
    | none => ⟨none, s, none⟩
    | some pfd =>
        let s := s.pipe pfd
        if pfd.1 ≥ s.maxfd ∨ pfd.2 ≥ s.maxfd then
          ⟨none, { s with fds := close (close s.fds pfd.1) pfd.2 }, none⟩
        else popenFork type a pfd s

/-- What `fclose` and `waitpid` answer. -/
structure Waited where
  fclose : Bool
  /-- the status of the child, `none` for an error other than `EINTR` -/
  waitpid : Option Int

/-- `pclose(fp)`, for the stream with the descriptor `fd`. -/
def pclose (fd : Nat) (w : Waited) (s : State) : Int × State :=
  if s.childpid = none then (-1, s)
  else if fd ≥ s.maxfd then (-1, s)
  else
    let pid := s.recorded fd
    if pid = 0 then (-1, s)
    else
      let s :=
        { s with
          childpid := s.childpid.map (·.set fd 0)
          fds := close s.fds fd
          streams := s.streams.filter (· ≠ fd) }
      if ¬ w.fclose then (-1, s)
      else match w.waitpid with
      | none => (-1, s)
      | some stat => (stat, { s with children := s.children.filter (· ≠ pid) })

/-- `pipe` answers two descriptors that are not open, and `fork` a process that is not there. -/
def Answers.Possible (a : Answers) (s : State) : Prop :=
  (∀ pfd ∈ a.pipe, s.fds pfd.1 = none ∧ s.fds pfd.2 = none ∧ pfd.1 ≠ pfd.2)
  ∧ ∀ pid ∈ a.fork, 0 < pid ∧ pid ∉ s.children

instance {a : Answers} {s : State} : Decidable (a.Possible s) :=
  inferInstanceAs (Decidable (_ ∧ _))

/-- A file that the process can have after so many pipes. -/
def File.Known (pipes : Nat) : File → Prop
  | .pipe id _ => id < pipes
  | .other _ => True

instance {pipes : Nat} : DecidablePred (File.Known pipes)
  | .pipe id _ => inferInstanceAs (Decidable (id < pipes))
  | .other _ => .isTrue trivial

/-- What can happen next in the process. -/
inductive Event where
  | popen (type : List Char) (a : Answers)
  | pclose (fd : Nat) (w : Waited)
  /-- the process opens or duplicates anything else -/
  | opens (fd : Nat) (file : File)
  /-- it closes a descriptor that is not that of a stream of `popen` -/
  | closes (fd : Nat)
  /-- a child ends -/
  | exits (pid : Nat)

def step (s : State) : Event → Option State
  | .popen type a => if a.Possible s then some (popen type a s).state else none
  | .pclose fd w => if s.fds fd ≠ none then some (pclose fd w s).2 else none
  | .opens fd file =>
      if s.fds fd = none ∧ file.Known s.pipes then
        some { s with fds := Function.update s.fds fd (some file) }
      else none
  | .closes fd => if fd ∉ s.streams then some { s with fds := close s.fds fd } else none
  | .exits pid => some { s with children := s.children.filter (· ≠ pid) }

/-- A process that has not called `popen`, with any descriptors and any children. -/
structure Starts (s : State) : Prop where
  childpid : s.childpid = none
  streams : s.streams = []
  known : ∀ fd, ∀ file ∈ s.fds fd, file.Known s.pipes

-- ------------------------------------------------------------------------------------------
-- Descriptors
-- ------------------------------------------------------------------------------------------

variable {s s' : State} {a : Answers} {type : List Char} {pfd : Nat × Nat} {fd : Nat}

/-- `close` takes one descriptor away. -/
@[simp]
theorem close_apply (fds : Fds) (i fd : Nat)
    : close fds i fd = if fd = i then none else fds fd :=
  Function.update_apply fds i none fd

/-- `dup2` makes one descriptor a copy of another. -/
@[simp]
theorem dup2_apply (fds : Fds) (oldfd newfd fd : Nat)
    : dup2 fds oldfd newfd fd = if fd = newfd then fds oldfd else fds fd :=
  Function.update_apply fds newfd (fds oldfd) fd

/-- A file that is open after `close` was open before. -/
theorem mem_of_mem_close {fds : Fds} {i : Nat} {file : File} (h : file ∈ close fds i fd)
    : file ∈ fds fd := by
  rw [close_apply] at h
  split at h
  · cases h
  · exact h

/-- A loop that closes some descriptors closes these and no others, by induction on the loop. -/
theorem foldl_close_apply (p : Nat → Prop) [DecidablePred p] (loop : List Nat) (fds : Fds)
    : loop.foldl (fun fds i => if p i then close fds i else fds) fds fd
      = if fd ∈ loop ∧ p fd then none else fds fd := by
  induction loop generalizing fds with
  | nil => simp
  | cons i rest ih =>
      rw [List.foldl_cons, ih]
      by_cases same : fd = i
      · subst same
        by_cases closed : p fd <;> simp [closed]
      · have : (if p i then close fds i else fds) fd = fds fd := by
          split <;> simp [same]
        simp [this, same]

/-- The descriptor that the child's end of the pipe is to have. -/
def target (type : List Char) : Nat :=
  if type.getD 0 '\x00' = 'r' then STDOUT_FILENO else STDIN_FILENO

/-- The child's end of the pipe. -/
def childEnd (type : List Char) (pfd : Nat × Nat) : Nat :=
  if type.getD 0 '\x00' = 'r' then pfd.2 else pfd.1

/-- Closing one descriptor and moving another leaves that one at its new place only. -/
theorem move_apply {other own target : Nat} (different : own ≠ other) (fds : Fds)
    : (if own ≠ target then close (dup2 (close fds other) own target) own else close fds other) fd
      = if fd = target then fds own else if fd = other ∨ fd = own then none else fds fd := by
  by_cases there : own = target
  · rw [if_neg (not_not.mpr there), close_apply]
    by_cases same : fd = target
    · rw [if_pos same, if_neg (by omega), same, there]
    · simp only [if_neg same, or_iff_left (show ¬ fd = own by omega)]
  · rw [if_pos there, close_apply, dup2_apply, close_apply, close_apply, if_neg different]
    by_cases same : fd = target
    · rw [if_neg (by omega), if_pos same, if_pos same]
    · rw [if_neg same, if_neg same]
      by_cases own_fd : fd = own
      · rw [if_pos own_fd, if_pos (.inr own_fd)]
      · simp only [if_neg own_fd, or_iff_left own_fd]

/-- The wiring leaves the child's end at its place and the pipe nowhere else. -/
theorem wire_apply (different : pfd.1 ≠ pfd.2) (fds : Fds)
    : wire type pfd fds fd
      = if fd = target type then fds (childEnd type pfd)
        else if fd = pfd.1 ∨ fd = pfd.2 then none else fds fd := by
  unfold wire target childEnd
  by_cases r : type.getD 0 '\x00' = 'r'
  · rw [if_pos r, if_pos r, if_pos r]
    exact move_apply different.symm fds
  · simp only [if_neg r, or_comm (a := fd = pfd.1)]
    exact move_apply different fds

-- ------------------------------------------------------------------------------------------
-- The records
-- ------------------------------------------------------------------------------------------

/-- What holds between the calls. -/
structure Inv (s : State) : Prop where
  size : ∀ array ∈ s.childpid, array.length = s.maxfd
  stream : ∀ fd, fd ∈ s.streams ↔ 0 < s.recorded fd
  known : ∀ fd, ∀ file ∈ s.fds fd, file.Known s.pipes

/-- The invariant holds of a process that has not called `popen`. -/
theorem Starts.inv (starts : Starts s) : Inv s where
  size := by simp [starts.childpid]
  stream := by simp [starts.streams, State.recorded, starts.childpid]
  known := starts.known

/-- Allocation of the array records no process. -/
@[simp]
theorem recorded_allocate (s : State) (a : Answers) (i : Nat)
    : (s.allocate a).recorded i = s.recorded i := by
  unfold State.allocate
  cases h : s.childpid with
  | some array => simp
  | none =>
      cases ha : a.calloc with
      | false => simp [State.recorded, h]
      | true =>
          simp only [State.recorded, h, if_true, Option.elim_some, Option.elim_none,
            List.getD_eq_getElem?_getD, List.getElem?_replicate]
          split <;> rfl

/-- Allocation of the array leaves the descriptors alone. -/
@[simp]
theorem allocate_fds (s : State) (a : Answers) : (s.allocate a).fds = s.fds := by
  unfold State.allocate
  split <;> rfl

/-- Allocation of the array leaves the children alone. -/
@[simp]
theorem allocate_children (s : State) (a : Answers) : (s.allocate a).children = s.children := by
  unfold State.allocate
  split <;> rfl

/-- Allocation of the array leaves the streams alone. -/
@[simp]
theorem allocate_streams (s : State) (a : Answers) : (s.allocate a).streams = s.streams := by
  unfold State.allocate
  split <;> rfl

/-- Allocation of the array leaves the pipes alone. -/
@[simp]
theorem allocate_pipes (s : State) (a : Answers) : (s.allocate a).pipes = s.pipes := by
  unfold State.allocate
  split <;> rfl

/-- Allocation of the array keeps the invariant. -/
theorem Inv.allocate (inv : Inv s) (a : Answers) : Inv (s.allocate a) where
  size := by
    unfold State.allocate
    cases h : s.childpid with
    | some array => exact inv.size
    | none => cases ha : a.calloc <;> simp
  stream := by simpa using inv.stream
  known fd file h := by
    rw [allocate_pipes]
    exact inv.known fd file (by simpa using h)

/-- A descriptor that is recorded is one of those that the child's loop comes to. -/
theorem Inv.lt_maxfd (inv : Inv s) {i : Nat} (recorded : 0 < s.recorded i) : i < s.maxfd := by
  unfold State.recorded at recorded
  cases h : s.childpid with
  | none => simp [h] at recorded
  | some array =>
      rw [← inv.size array h]
      by_contra outside
      simp [h, List.getElem?_eq_none (Nat.le_of_not_lt outside)] at recorded

/-- The record of one descriptor is written. -/
theorem recorded_set {array : List Nat} (h : s.childpid = some array) {i pid : Nat}
    (inside : i < array.length) (j : Nat)
    : (State.recorded { s with childpid := s.childpid.map (·.set i pid) } j)
      = if j = i then pid else s.recorded j := by
  simp only [State.recorded, h, Option.map_some, Option.elim_some, List.getD_eq_getElem?_getD,
    List.getElem?_set]
  by_cases same : j = i
  · simp [same, inside]
  · simp [same, Ne.symm same]

/-- The call gets as far as `fork`: the type is right, there is an array, and `pipe` answers two
descriptors within the limit.
-/
def ReachesFork (type : List Char) (a : Answers) (s : State) : Prop :=
  badType type = false ∧ (s.allocate a).childpid ≠ none
  ∧ ∃ pfd ∈ a.pipe, pfd.1 < (s.allocate a).maxfd ∧ pfd.2 < (s.allocate a).maxfd

/-- A call that gets as far as `fork` is what follows it. -/
theorem popen_eq_popenFork (good : badType type = false) (array : (s.allocate a).childpid ≠ none)
    (pipe : a.pipe = some pfd)
    (within : pfd.1 < (s.allocate a).maxfd ∧ pfd.2 < (s.allocate a).maxfd)
    : popen type a s = popenFork type a pfd ((s.allocate a).pipe pfd) := by
  have limit : ¬ (pfd.1 ≥ ((s.allocate a).pipe pfd).maxfd
      ∨ pfd.2 ≥ ((s.allocate a).pipe pfd).maxfd) := by
    have same : ((s.allocate a).pipe pfd).maxfd = (s.allocate a).maxfd := rfl
    omega
  simp only [popen, good, array, pipe, limit, if_false, Bool.false_eq_true]

/-- A call that does not get as far as `fork` has no child and at most allocates the array. -/
theorem popen_early (possible : a.Possible s) (early : ¬ ReachesFork type a s)
    : popen type a s = ⟨none, s, none⟩
      ∨ ∃ pipes ≥ s.pipes, popen type a s = ⟨none, { s.allocate a with pipes := pipes }, none⟩ := by
  by_cases bad : badType type = true
  · exact .inl (by simp [popen, bad])
  have good : badType type = false := Bool.eq_false_iff.mpr bad
  refine .inr ?_
  by_cases array : (s.allocate a).childpid = none
  · exact ⟨(s.allocate a).pipes, Nat.le_of_eq (allocate_pipes s a).symm,
      by simp only [popen, good, Bool.false_eq_true, if_false, if_pos array]⟩
  cases pipe : a.pipe with
  | none =>
      exact ⟨(s.allocate a).pipes, Nat.le_of_eq (allocate_pipes s a).symm,
        by simp only [popen, good, array, pipe, Bool.false_eq_true, if_false]⟩
  | some pfd =>
      have limit : pfd.1 ≥ (s.allocate a).maxfd ∨ pfd.2 ≥ (s.allocate a).maxfd := by
        by_contra within
        exact early ⟨good, array, pfd, pipe, by omega⟩
      obtain ⟨unused, unused', -⟩ := possible.1 pfd pipe
      refine ⟨(s.allocate a).pipes + 1, by simp, ?_⟩
      have same : close (close ((s.allocate a).pipe pfd).fds pfd.1) pfd.2 = (s.allocate a).fds := by
        funext fd
        simp only [close_apply, State.pipe, Function.update_apply, allocate_fds]
        by_cases second : fd = pfd.2
        · rw [if_pos second, second, unused']
        · by_cases first : fd = pfd.1
          · rw [if_neg second, if_pos first, first, unused]
          · simp only [if_neg second, if_neg first]
      have exits : pfd.1 ≥ ((s.allocate a).pipe pfd).maxfd
          ∨ pfd.2 ≥ ((s.allocate a).pipe pfd).maxfd := limit
      simp only [popen, good, Bool.false_eq_true, array, pipe, if_false, if_pos exits, same]
      rfl

-- ------------------------------------------------------------------------------------------
-- What a failed call leaves behind
-- ------------------------------------------------------------------------------------------

/-- The open descriptors, the running children and the records are the same. -/
structure NoTrace (s s' : State) : Prop where
  fds : ∀ fd, (s'.fds fd).isSome = (s.fds fd).isSome
  children : ∀ pid, pid ∈ s'.children ↔ pid ∈ s.children
  childpid : ∀ i, s'.recorded i = s.recorded i

/-- A call of `popen` that fails leaves no trace exactly where it fails before `fork`. -/
theorem popen_noTrace_iff (possible : a.Possible s) (failed : (popen type a s).fp = none)
    : NoTrace s (popen type a s).state ↔ ¬ ReachesFork type a s := by
  constructor
  · rintro noTrace ⟨good, array, pfd, pipe, within⟩
    obtain ⟨unused, unused', different⟩ := possible.1 pfd pipe
    have eq := popen_eq_popenFork good array pipe within
    rw [eq] at noTrace failed
    unfold popenFork at noTrace failed
    cases fork : a.fork with
    | none =>
        -- Both ends of the pipe stay open.
        have open_now := noTrace.fds pfd.2
        simp [fork, State.pipe, unused'] at open_now
    | some pid =>
        cases fdopen : a.fdopen with
        | true => simp [fork, fdopen] at failed
        | false =>
            -- The child runs, and nothing records it.
            have running := noTrace.children pid
            simp [fork, fdopen, State.pipe, (possible.2 pid fork).2] at running
  · intro early
    rcases popen_early possible early with eq | ⟨pipes, -, eq⟩
    · rw [eq]
      exact ⟨fun _ => rfl, fun _ => Iff.rfl, fun _ => rfl⟩
    · rw [eq]
      exact ⟨fun _ => by simp, fun _ => by simp, fun i => recorded_allocate s a i⟩

/-- A process with the three standard descriptors. -/
private def fresh : State where
  fds fd := if fd < 3 then some (.other fd) else none
  childpid := none
  maxfd := 0
  children := []
  streams := []
  pipes := 0

private theorem starts_fresh : Starts fresh where
  childpid := rfl
  streams := rfl
  known fd file h := by
    simp only [fresh] at h
    split at h
    · obtain rfl := Option.some.inj h
      trivial
    · cases h

/-- The process has opened one stream for reading, with room for five descriptors. -/
private def reading : State := (popen ['r'] ⟨5, true, some (3, 4), some 100, true⟩ fresh).state

/-- The next pipe does not fit the array: both ends are closed again, and the first stream stays. -/
theorem popen_noTrace_iff_full
    : reading.streams = [3] ∧ reading.recorded 3 = 100
        ∧ (popen ['w'] ⟨5, true, some (4, 5), none, true⟩ reading).fp = none
        ∧ NoTrace reading (popen ['w'] ⟨5, true, some (4, 5), none, true⟩ reading).state := by
  have early : ¬ ReachesFork ['w'] ⟨5, true, some (4, 5), none, true⟩ reading := by
    rintro ⟨-, -, pfd, pipe, -, within⟩
    obtain rfl : (4, 5) = pfd := Option.some.inj pipe
    exact absurd within (by decide)
  exact ⟨rfl, rfl, rfl, (popen_noTrace_iff (by decide) rfl).mpr early⟩

/-- Where `fork` fails, both ends of the pipe stay open. -/
theorem popen_leaves_pipe
    : ¬ ∀ start s, Starts start → Reachable step start s →
        ∀ type a, a.Possible s → (popen type a s).fp = none → NoTrace s (popen type a s).state := by
  intro never
  have noTrace := never fresh fresh starts_fresh (.refl _) ['r'] ⟨16, true, some (3, 4), none, true⟩
    (by decide) rfl
  exact absurd (noTrace.fds 3) (by decide)

-- ------------------------------------------------------------------------------------------
-- What the child gets
-- ------------------------------------------------------------------------------------------

/-- Known files stay known when there are more pipes. -/
theorem File.Known.mono {pipes more : Nat} {file : File} (known : file.Known pipes)
    (le : pipes ≤ more)
    : file.Known more := by
  cases file with
  | pipe id _ => exact Nat.lt_of_lt_of_le known le
  | other _ => trivial

/-- A new pipe keeps the invariant. -/
theorem Inv.pipe (inv : Inv s) (pfd : Nat × Nat) : Inv (s.pipe pfd) where
  size := inv.size
  stream := inv.stream
  known fd file h := by
    simp only [State.pipe, Function.update_apply] at h ⊢
    split at h
    · obtain rfl := Option.some.inj h
      exact Nat.lt_succ_self s.pipes
    · split at h
      · obtain rfl := Option.some.inj h
        exact Nat.lt_succ_self s.pipes
      · exact (inv.known fd file h).mono (Nat.le_succ _)

/-- A process that the call has forked is recorded once the stream is there. -/
theorem Inv.popenFork (inv : Inv s) (within : pfd.1 < s.maxfd ∧ pfd.2 < s.maxfd)
    (array : s.childpid ≠ none) (positive : ∀ pid ∈ a.fork, 0 < pid)
    : Inv (popenFork type a pfd s).state := by
  obtain ⟨childpid, some_array⟩ := Option.ne_none_iff_exists'.mp array
  have size := inv.size childpid some_array
  unfold Popen.popenFork
  cases fork : a.fork with
  | none => exact inv
  | some pid =>
      simp only
      generalize ends : (if type.getD 0 '\x00' = 'r' then pfd else pfd.swap) = both
      have inside : both.1 < childpid.length := by
        rw [size, ← ends]
        split
        · exact within.1
        · exact within.2
      split
      · refine ⟨by simpa [some_array] using size, ?_,
          fun i file h => inv.known i file (mem_of_mem_close h)⟩
        intro i
        have eq : State.recorded { s with childpid := s.childpid.map (·.set both.1 pid) } i
            = if i = both.1 then pid else s.recorded i :=
          recorded_set some_array inside i
        have old := inv.stream i
        simp only [State.recorded] at eq old ⊢
        rw [eq, List.mem_cons]
        by_cases same : i = both.1
        · simp [same, positive pid fork]
        · simp [same, old]
      · exact ⟨inv.size, inv.stream, fun i file h => inv.known i file (mem_of_mem_close h)⟩

/-- A call of `popen` keeps the invariant. -/
theorem Inv.popen (inv : Inv s) (possible : a.Possible s) : Inv (popen type a s).state := by
  by_cases forks : ReachesFork type a s
  · obtain ⟨good, array, pfd, pipe, within⟩ := forks
    rw [popen_eq_popenFork good array pipe within]
    exact ((inv.allocate a).pipe pfd).popenFork within array fun pid fork => (possible.2 pid fork).1
  · rcases popen_early possible forks with eq | ⟨pipes, more, eq⟩
    · rw [eq]
      exact inv
    · have allocated := inv.allocate a
      rw [eq]
      refine ⟨allocated.size, allocated.stream, fun fd file h => ?_⟩
      exact (allocated.known fd file h).mono (by simpa using more)

/-- Every call of `pclose` leaves the records of the streams that are still open. -/
theorem Inv.pclose (inv : Inv s) (fd : Nat) (w : Waited) : Inv (pclose fd w s).2 := by
  unfold Popen.pclose
  split
  · exact inv
  next allocated =>
    split
    · exact inv
    next within =>
      obtain ⟨array, some_array⟩ := Option.ne_none_iff_exists'.mp allocated
      have inside : fd < array.length := by
        have := inv.size array some_array
        omega
      simp only
      split
      · exact inv
      next =>
        have closed : Inv { s with
            childpid := s.childpid.map (·.set fd 0)
            fds := close s.fds fd
            streams := s.streams.filter (· ≠ fd) } := by
          refine ⟨?_, ?_, ?_⟩
          · simpa [some_array] using inv.size array some_array
          · intro i
            have eq : State.recorded { s with childpid := s.childpid.map (·.set fd 0) } i
                = if i = fd then 0 else s.recorded i :=
              recorded_set some_array inside i
            have old := inv.stream i
            simp only [State.recorded] at eq old ⊢
            rw [eq]
            by_cases same : i = fd <;> simp [same, old]
          · exact fun i file h => inv.known i file (mem_of_mem_close h)
        split
        · exact closed
        · split
          · exact closed
          · exact ⟨closed.size, closed.stream, closed.known⟩

/-- Every event keeps the invariant. -/
theorem inv_step {event : Event} (h : step s event = some s') (inv : Inv s) : Inv s' := by
  cases event with
  | popen type a =>
      obtain ⟨possible, eq⟩ := Option.ite_none_right_eq_some.mp h
      cases eq
      exact inv.popen possible
  | pclose fd w =>
      obtain ⟨-, eq⟩ := Option.ite_none_right_eq_some.mp h
      cases eq
      exact inv.pclose fd w
  | opens fd file =>
      obtain ⟨⟨-, known⟩, eq⟩ := Option.ite_none_right_eq_some.mp h
      cases eq
      refine ⟨inv.size, inv.stream, fun i file' h' => ?_⟩
      have h' : file' ∈ Function.update s.fds fd (some file) i := h'
      rw [Function.update_apply] at h'
      split at h'
      · obtain rfl := Option.some.inj h'
        exact known
      · exact inv.known i file' h'
  | closes fd =>
      obtain ⟨-, eq⟩ := Option.ite_none_right_eq_some.mp h
      cases eq
      exact ⟨inv.size, inv.stream, fun i file h' => inv.known i file (mem_of_mem_close h')⟩
  | exits pid =>
      cases h
      exact ⟨inv.size, inv.stream, inv.known⟩

/-- The child has the new pipe at its standard output or standard input and nowhere else, and the
streams from earlier calls are closed.
-/
structure WiresChild (type : List Char) (s : State) (child : Fds) : Prop where
  target : child (target type) = some (.pipe s.pipes (type.getD 0 '\x00' = 'r'))
  alone : ∀ fd, fd ≠ Popen.target type → ∀ writeEnd, child fd ≠ some (.pipe s.pipes writeEnd)
  closed : ∀ fd ∈ s.streams, fd ≠ Popen.target type → child fd = none

/-- The descriptors of the child after its closes and `dup2`. -/
theorem childFds_apply (inv : Inv s) (different : pfd.1 ≠ pfd.2)
    : childFds type pfd s fd
      = if 0 < s.recorded fd then none
        else if fd = target type then s.fds (childEnd type pfd)
        else if fd = pfd.1 ∨ fd = pfd.2 then none else s.fds fd := by
  have loop : fd ∈ List.range s.maxfd ∧ s.recorded fd > 0 ↔ 0 < s.recorded fd :=
    ⟨And.right, fun recorded => ⟨List.mem_range.mpr (inv.lt_maxfd recorded), recorded⟩⟩
  rw [childFds, foldl_close_apply, wire_apply different]
  simp only [loop]

/-- The child's end of the pipe is at the descriptor that `pipe` gave for it. -/
theorem pipe_childEnd (different : pfd.1 ≠ pfd.2)
    : (s.pipe pfd).fds (childEnd type pfd)
      = some (.pipe s.pipes (type.getD 0 '\x00' = 'r')) := by
  unfold childEnd
  by_cases r : type.getD 0 '\x00' = 'r'
  · simp only [r, if_true, State.pipe, Function.update_self, decide_true]
  · simp only [r, if_false, State.pipe, Function.update_apply, if_neg different, if_true,
      decide_false]

/-- In every reachable state, the child of a call of `popen` is wired correctly exactly where no
earlier stream is recorded at the descriptor that it is to have.
-/
theorem popen_child_iff {start : State} (starts : Starts start)
    (reachable : Reachable step start s) (possible : a.Possible s) {child : Fds}
    (forked : (popen type a s).child = some child)
    : WiresChild type s child ↔ s.recorded (target type) = 0 := by
  have inv : Inv s := reachable.invariant starts.inv inv_step
  have reaches : ReachesFork type a s := by
    by_contra early
    rcases popen_early possible early with eq | ⟨_, -, eq⟩ <;> simp [eq] at forked
  obtain ⟨good, array, pfd, pipe, within⟩ := reaches
  obtain ⟨unused, unused', different⟩ := possible.1 pfd pipe
  have child_eq : child = childFds type pfd ((s.allocate a).pipe pfd) := by
    rw [popen_eq_popenFork good array pipe within, popenFork] at forked
    cases fork : a.fork with
    | none => simp [fork] at forked
    | some pid =>
        simp only [fork] at forked
        split at forked <;> exact (Option.some.inj forked).symm
  have recorded : ∀ fd, ((s.allocate a).pipe pfd).recorded fd = s.recorded fd :=
    recorded_allocate s a
  have at_fd : ∀ fd, child fd
      = if 0 < s.recorded fd then none
        else if fd = target type then some (.pipe s.pipes (type.getD 0 '\x00' = 'r'))
        else if fd = pfd.1 ∨ fd = pfd.2 then none else s.fds fd := by
    intro fd
    rw [child_eq, childFds_apply ((inv.allocate a).pipe pfd) different, recorded,
      pipe_childEnd different, allocate_pipes]
    split
    · rfl
    · split
      · rfl
      · split
        · rfl
        next neither =>
          rw [not_or] at neither
          simp [State.pipe, neither.1, neither.2]
  constructor
  · intro wires
    by_contra earlier
    have lost := at_fd (target type)
    rw [wires.target, if_pos (Nat.pos_of_ne_zero earlier)] at lost
    cases lost
  · intro free
    refine ⟨?_, ?_, ?_⟩
    · rw [at_fd, free, if_neg (Nat.lt_irrefl 0), if_pos rfl]
    · intro fd other writeEnd new
      rw [at_fd, if_neg other] at new
      split at new
      · cases new
      · split at new
        · cases new
        · exact Nat.lt_irrefl _ (inv.known fd _ new)
    · intro fd stream _
      rw [at_fd, if_pos ((inv.stream fd).mp stream)]

/-- A process whose standard output is closed has the stream of its first call there. -/
private def noStdout : State where
  fds fd := if fd = 0 ∨ fd = 2 then some (.other fd) else none
  childpid := none
  maxfd := 0
  children := []
  streams := []
  pipes := 0

private theorem starts_noStdout : Starts noStdout where
  childpid := rfl
  streams := rfl
  known fd file h := by
    simp only [noStdout] at h
    split at h
    · obtain rfl := Option.some.inj h
      trivial
    · cases h

/-- The first stream of a process without a standard output. -/
theorem popen_child_iff_first
    : WiresChild ['r'] noStdout
        (childFds ['r'] (1, 3)
          ((noStdout.allocate ⟨16, true, some (1, 3), some 100, true⟩).pipe (1, 3)))
      ↔ noStdout.recorded (target ['r']) = 0 :=
  popen_child_iff (a := ⟨16, true, some (1, 3), some 100, true⟩) starts_noStdout (.refl _)
    (by decide) rfl

/-- The child of the second call has its standard output closed, by the loop that is to close the
stream of the first.
-/
theorem popen_closes_stdout
    : ¬ ∀ start s, Starts start → Reachable step start s →
        ∀ type a child, a.Possible s → (popen type a s).child = some child →
          WiresChild type s child := by
  intro always
  have first : Reachable step noStdout
      (popen ['r'] ⟨16, true, some (1, 3), some 100, true⟩ noStdout).state :=
    .single (show step noStdout (.popen ['r'] ⟨16, true, some (1, 3), some 100, true⟩) = some _ by
      rw [step, if_pos (by decide)])
  have wires := always _ _ starts_noStdout first ['r'] ⟨16, true, some (3, 4), some 101, true⟩ _
    (by decide) rfl
  exact absurd wires.target (by decide)

end Minions.Ipc1.Popen
