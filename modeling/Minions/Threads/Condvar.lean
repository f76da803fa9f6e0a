import Mathlib.Data.Finset.Basic
import Minions.Data.LinkedList
import Minions.Logic.Events

/-! The work queue of `condvar.c`. Any number of threads call `process_msg`, and any number of
others `enqueue_msg`. A step is one access to the queue or one call of the thread library. A
thread that `pthread_cond_wait` puts to sleep can be woken without a signal.
-/

namespace Minions.Threads.Condvar

open Minions.Data Minions.Logic

-----------------------------------------------------------------------------------------
-- A stack of messages
-----------------------------------------------------------------------------------------

/-- What happens to the queue. -/
inductive Move where
  | put (mp : Nat)
  | take (mp : Nat)

/-- The queue as a stack: only the message that was put last can be taken. -/
def Move.apply : List Nat → Move → Option (List Nat)
  | stack, .put mp => some (mp :: stack)
  | [], .take _ => none
  | first :: rest, .take mp => if first = mp then some rest else none

/-- The stack after the moves, if each of them can be made. -/
def stackAfter (moves : List Move) : Option (List Nat) := moves.foldlM Move.apply []

def Move.isPut : Move → Option Nat
  | .put mp => some mp
  | .take _ => none

def Move.isTake : Move → Option Nat
  | .put _ => none
  | .take mp => some mp

/-- The stack after one more move. -/
theorem stackAfter_snoc {moves : List Move} {l : List Nat} (h : stackAfter moves = some l)
    (move : Move)
    : stackAfter (moves ++ [move]) = move.apply l := by
  rw [stackAfter, List.foldlM_append, ← stackAfter, h]
  simp

/-- Every message that is put is taken once or still there, by induction on the moves. -/
theorem perm_of_foldlM {moves : List Move} {l l' : List Nat}
    (h : moves.foldlM Move.apply l = some l')
    : (moves.filterMap Move.isPut ++ l).Perm (moves.filterMap Move.isTake ++ l') := by
  induction moves generalizing l with
  | nil =>
      cases h
      exact .refl _
  | cons move rest ih =>
      rw [List.foldlM_cons] at h
      obtain ⟨middle, applied, later⟩ := Option.bind_eq_some_iff.mp h
      cases move with
      | put mp =>
          cases applied
          exact List.perm_middle.symm.trans (ih later)
      | take mp =>
          cases l with
          | nil => cases applied
          | cons first rest' =>
              simp only [Move.apply, Option.ite_none_right_eq_some, Option.some.injEq] at applied
              obtain ⟨rfl, rfl⟩ := applied
              exact List.perm_middle.trans ((ih later).cons first)

-----------------------------------------------------------------------------------------
-- The threads
-----------------------------------------------------------------------------------------

/-- Where a thread is. -/
inductive Loc where
  | idle
  -- process_msg
  | lock
  | check
  | sleep
  /-- Until it has been woken and has the lock again. -/
  | wait
  | takeFirst
  | takeNext (mp : Nat)
  | unlockTaken (mp : Nat)
  | process (mp : Nat)
  -- enqueue_msg
  | putLock (mp : Nat)
  | putLink (mp : Nat)
  | putFirst (mp : Nat)
  | putUnlock
  | putSignal
deriving DecidableEq

/-- The queue, the thread with the lock, the threads that sleep on the condition variable, where
each thread is, the messages that the queue or a caller of `enqueue_msg` has, and what has
happened to the queue.
-/
structure State (ι : Type) where
  workq : Nat := 0
  m_next : Nat → Nat := fun _ => 0
  qlock : Option ι := none
  qready : Finset ι := ∅
  loc : ι → Loc := fun _ => .idle
  inUse : Nat → Bool := fun _ => false
  moves : List Move := []

variable {ι : Type} [DecidableEq ι]

def State.goto (s : State ι) (t : ι) (loc : Loc) : State ι :=
  { s with loc := Function.update s.loc t loc }

/-- `process_msg`, one step. -/
def processMsg (s : State ι) (t : ι) : Loc → Option (State ι)
  | .lock => if s.qlock = none then some ({ s with qlock := some t }.goto t .check) else none
  | .check => some (s.goto t (if s.workq = 0 then .sleep else .takeFirst))
  | .sleep => some ({ s with qlock := none, qready := insert t s.qready }.goto t .wait)
  | .wait =>
      if t ∉ s.qready ∧ s.qlock = none then some ({ s with qlock := some t }.goto t .check)
      else none
  | .takeFirst => some (s.goto t (.takeNext s.workq))
  | .takeNext mp =>
      some ({ s with
        workq := s.m_next mp
        inUse := Function.update s.inUse mp false
        moves := s.moves ++ [Move.take mp] }.goto t (.unlockTaken mp))
  | .unlockTaken mp => some ({ s with qlock := none }.goto t (.process mp))
  | .process _ => some (s.goto t .lock)
  | _ => none

/-- `enqueue_msg`, one step before the signal. -/
def enqueueMsg (s : State ι) (t : ι) : Loc → Option (State ι)
  | .putLock mp =>
      if s.qlock = none then some ({ s with qlock := some t }.goto t (.putLink mp)) else none
  | .putLink mp =>
      some ({ s with m_next := Function.update s.m_next mp s.workq }.goto t (.putFirst mp))
  | .putFirst mp =>
      some ({ s with workq := mp, moves := s.moves ++ [Move.put mp] }.goto t .putUnlock)
  | .putUnlock => some ({ s with qlock := none }.goto t .putSignal)
  | _ => none

inductive Event (ι : Type) where
  /-- A thread calls `process_msg`. -/
  | process (t : ι)
  /-- A thread calls `enqueue_msg`, with a message that is not in use. -/
  | enqueue (t : ι) (mp : Nat)
  | run (t : ι)
  /-- A thread signals, and one that sleeps is woken, if there is any. -/
  | signal (t : ι) (woken : Option ι)
  /-- A thread is woken that nobody has signalled. -/
  | wake (t : ι)

/-- Who still sleeps after `pthread_cond_signal`, which wakes a thread if any sleeps. -/
def signalled (qready : Finset ι) : Option ι → Option (Finset ι)
  | none => if qready = ∅ then some ∅ else none
  | some u => if u ∈ qready then some (qready.erase u) else none

def step (s : State ι) : Event ι → Option (State ι)
  | .process t => if s.loc t = .idle then some (s.goto t .lock) else none
  | .enqueue t mp =>
      if s.loc t = .idle ∧ mp ≠ 0 ∧ s.inUse mp = false then
        some ({ s with inUse := Function.update s.inUse mp true }.goto t (.putLock mp))
      else none
  | .run t => (processMsg s t (s.loc t)).orElse fun _ => enqueueMsg s t (s.loc t)
  | .signal t woken =>
      if s.loc t = .putSignal then
        (signalled s.qready woken).map fun qready => { s with qready := qready }.goto t .idle
      else none
  | .wake t => if t ∈ s.qready then some { s with qready := s.qready.erase t } else none

-----------------------------------------------------------------------------------------
-- What holds in every state
-----------------------------------------------------------------------------------------

/-- The cell at address 0 is `workq`. -/
def State.cells (s : State ι) (a : Nat) : Option Nat :=
  some (if a = 0 then s.workq else s.m_next a)

/-- Whether a thread has the lock. -/
def Loc.holds : Loc → Bool
  | .check | .sleep | .takeFirst | .takeNext _ | .unlockTaken _ | .putLink _ | .putFirst _
  | .putUnlock => true
  | .idle | .lock | .wait | .process _ | .putLock _ | .putSignal => false

/-- The message that a thread is about to put. -/
def Loc.puts : Loc → Option Nat
  | .putLock mp | .putLink mp | .putFirst mp => some mp
  | _ => none

/-- Whether a thread is in `process_msg`. -/
def Loc.works : Loc → Bool
  | .lock | .check | .sleep | .wait | .takeFirst | .takeNext _ | .unlockTaken _ | .process _ => true
  | _ => false

/-- Whether a thread will look at the queue or signal, unless it sleeps. -/
def Loc.attends : Loc → Bool
  | .idle | .sleep => false
  | _ => true

/-- What a thread with the lock knows of the queue. -/
def Knows (workq : Nat) (m_next : Nat → Nat) : Loc → Prop
  | .sleep => workq = 0
  | .takeFirst => workq ≠ 0
  | .takeNext mp => workq = mp ∧ mp ≠ 0
  | .putFirst mp => m_next mp = workq
  | _ => True

/-- The queue has the messages `l`. -/
structure Inv (s : State ι) (l : List Nat) : Prop where
  mutex : ∀ t, (s.loc t).holds ↔ s.qlock = some t
  asleep : ∀ t ∈ s.qready, s.loc t = .wait
  stack : stackAfter s.moves = some l
  chain : Linked s.cells 0 l
  used : ∀ mp ∈ l, s.inUse mp
  putting : ∀ t, ∀ mp ∈ (s.loc t).puts, mp ≠ 0 ∧ s.inUse mp ∧ mp ∉ l
  alone : ∀ t u, ∀ mp ∈ (s.loc t).puts, mp ∈ (s.loc u).puts → t = u
  knows : ∀ t, Knows s.workq s.m_next (s.loc t)
  attended : s.workq ≠ 0 → s.qready.Nonempty → ∃ t, (s.loc t).attends ∧ t ∉ s.qready

variable {s s' : State ι} {t u : ι} {l : List Nat} {next : Loc} {mp : Nat}

omit [DecidableEq ι] in
/-- The invariant holds at the start. -/
theorem start_inv : Inv ({} : State ι) [] where
  mutex t := by simp [Loc.holds]
  asleep t impossible := by simp at impossible
  stack := rfl
  chain := rfl
  used mp impossible := by simp at impossible
  putting t mp impossible := by simp [Loc.puts] at impossible
  alone t u mp impossible := by simp [Loc.puts] at impossible
  knows t := trivial
  attended impossible := absurd rfl impossible

/-- What a thread without the lock knows is not about the queue. -/
theorem knows_of_free {loc : Loc} (free : loc.holds = false) (workq : Nat) (m_next : Nat → Nat)
    : Knows workq m_next loc := by
  cases loc <;> simp_all [Loc.holds, Knows]

omit [DecidableEq ι] in
/-- No other thread has the lock. -/
theorem Inv.others_free (inv : Inv s l) (holds : (s.loc t).holds) (other : u ≠ t)
    : (s.loc u).holds = false := by
  have mine := (inv.mutex t).mp holds
  have theirs := inv.mutex u
  rw [mine, Option.some.injEq, iff_false_right other.symm] at theirs
  simpa using theirs

omit [DecidableEq ι] in
/-- The head pointer is the top of the stack. -/
theorem Inv.workq_eq (inv : Inv s l) : s.workq = l.headD 0 := by
  have entry := inv.chain.next_entry
  simpa [State.cells] using entry

/-- A thread moves on, with a lock operation or without, and the queue stays as it is. -/
theorem Inv.moves (inv : Inv s l) {qlock : Option ι} {qready : Finset ι}
    (own : next.holds ↔ qlock = some t) (mutex : ∀ u, u ≠ t → (qlock = some u ↔ s.qlock = some u))
    (asleep : ∀ u ∈ qready, u ∈ s.qready ∧ u ≠ t ∨ u = t ∧ next = .wait)
    (puts : ∀ mp ∈ next.puts, mp ∈ (s.loc t).puts) (knows : Knows s.workq s.m_next next)
    (attended : s.workq ≠ 0 → qready.Nonempty
      → ∃ u, (Function.update s.loc t next u).attends ∧ u ∉ qready)
    : Inv ({ s with qlock, qready }.goto t next) l where
  mutex := (Function.forall_update_iff s.loc fun u loc => loc.holds ↔ qlock = some u).mpr
    ⟨own, fun u other => (inv.mutex u).trans (mutex u other).symm⟩
  asleep u member := by
    rcases asleep u member with ⟨slept, other⟩ | ⟨rfl, waits⟩
    · exact (Function.update_of_ne other _ _).trans (inv.asleep u slept)
    · exact (Function.update_self ..).trans waits
  stack := inv.stack
  chain := inv.chain
  used := inv.used
  putting := (Function.forall_update_iff s.loc fun _ loc =>
      ∀ mp ∈ loc.puts, mp ≠ 0 ∧ s.inUse mp ∧ mp ∉ l).mpr
    ⟨fun mp member => inv.putting t mp (puts mp member), fun u _ => inv.putting u⟩
  alone u v mp mine theirs := by
    have before : ∀ w, mp ∈ (Function.update s.loc t next w).puts → mp ∈ (s.loc w).puts := by
      intro w member
      by_cases same : w = t
      · subst same
        rw [Function.update_self] at member
        exact puts mp member
      · rwa [Function.update_of_ne same] at member
    exact inv.alone u v mp (before u mine) (before v theirs)
  knows := (Function.forall_update_iff s.loc fun _ loc => Knows s.workq s.m_next loc).mpr
    ⟨knows, fun u _ => inv.knows u⟩
  attended := attended

/-- A thread goes on without a lock operation. -/
theorem Inv.goto (inv : Inv s l) (holds : next.holds = (s.loc t).holds) (awake : t ∉ s.qready)
    (puts : next.puts = none) (knows : Knows s.workq s.m_next next)
    (attends : s.workq ≠ 0 → next.attends)
    : Inv (s.goto t next) l := by
  refine inv.moves (by rw [holds]; exact inv.mutex t) (fun _ _ => Iff.rfl)
    (fun u member => .inl ⟨member, fun same => awake (same ▸ member)⟩) (by simp [puts]) knows ?_
  intro nonempty _
  exact ⟨t, by rw [Function.update_self]; exact attends nonempty, awake⟩

/-- A thread takes the lock, which is free. -/
theorem Inv.acquire (inv : Inv s l) (free : s.qlock = none) (awake : t ∉ s.qready)
    (holds : next.holds) (puts : ∀ mp ∈ next.puts, mp ∈ (s.loc t).puts)
    (knows : Knows s.workq s.m_next next) (attends : (s.loc t).attends → next.attends)
    : Inv ({ s with qlock := some t }.goto t next) l := by
  refine inv.moves (by simp [holds]) (fun u other => by simp [free, other.symm])
    (fun u member => .inl ⟨member, fun same => awake (same ▸ member)⟩) puts knows ?_
  intro nonempty sleeps
  obtain ⟨u, attending, up⟩ := inv.attended nonempty sleeps
  refine ⟨u, ?_, up⟩
  by_cases same : u = t
  · subst same
    rw [Function.update_self]
    exact attends attending
  · rwa [Function.update_of_ne same]

/-- The thread that has the lock gives it up. -/
theorem Inv.release (inv : Inv s l) {qready : Finset ι} (held : (s.loc t).holds)
    (holds : next.holds = false)
    (asleep : ∀ u ∈ qready, u ∈ s.qready ∧ u ≠ t ∨ u = t ∧ next = .wait)
    (puts : next.puts = none) (attends : s.workq ≠ 0 → next.attends ∧ t ∉ qready)
    : Inv ({ s with qlock := none, qready }.goto t next) l := by
  have mine := (inv.mutex t).mp held
  refine inv.moves (by simp [holds]) (fun u other => by simp [mine, other.symm]) asleep
    (by simp [puts]) (knows_of_free holds _ _) ?_
  intro nonempty _
  obtain ⟨attending, up⟩ := attends nonempty
  exact ⟨t, by rwa [Function.update_self], up⟩

omit [DecidableEq ι] in
/-- A thread that does not wait does not sleep. -/
theorem Inv.awake (inv : Inv s l) (place : s.loc t ≠ .wait) : t ∉ s.qready :=
  fun member => place (inv.asleep t member)

/-- The thread that has the lock changes the queue. -/
theorem Inv.change (inv : Inv s l) {workq : Nat} {m_next : Nat → Nat} {inUse : Nat → Bool}
    {moves : List Move} {l' : List Nat} (held : (s.loc t).holds) (holds : next.holds)
    (stack : stackAfter moves = some l')
    (chain : Linked { s with workq, m_next }.cells 0 l') (used : ∀ mp ∈ l', inUse mp)
    (putting : ∀ u mp, mp ∈ (Function.update s.loc t next u).puts
      → mp ∈ (s.loc u).puts ∧ inUse mp ∧ mp ∉ l')
    (knows : Knows workq m_next next) (attends : next.attends)
    : Inv ({ s with workq, m_next, inUse, moves }.goto t next) l' where
  mutex := (Function.forall_update_iff s.loc fun u loc => loc.holds ↔ s.qlock = some u).mpr
    ⟨iff_of_true holds ((inv.mutex t).mp held), fun u _ => inv.mutex u⟩
  asleep u member := by
    have slept := inv.asleep u member
    have other : u ≠ t := by
      rintro rfl
      simp [slept, Loc.holds] at held
    exact (Function.update_of_ne other _ _).trans slept
  stack := stack
  chain := chain
  used := used
  putting u mp member := by
    obtain ⟨before, use, outside⟩ := putting u mp member
    exact ⟨(inv.putting u mp before).1, use, outside⟩
  alone u v mp mine theirs := inv.alone u v mp (putting u mp mine).1 (putting v mp theirs).1
  knows := (Function.forall_update_iff s.loc fun _ loc => Knows workq m_next loc).mpr
    ⟨knows, fun u other => knows_of_free (inv.others_free held other) _ _⟩
  attended _ _ := by
    refine ⟨t, ?_, inv.awake fun waits => by simp [waits, Loc.holds] at held⟩
    exact (congrArg Loc.attends (Function.update_self ..)).trans attends

/-- The first message is taken. -/
theorem Inv.takeNext (inv : Inv s l) (here : s.loc t = .takeNext mp)
    : ∃ rest, Inv ({ s with
        workq := s.m_next mp
        inUse := Function.update s.inUse mp false
        moves := s.moves ++ [Move.take mp] }.goto t (.unlockTaken mp)) rest := by
  have held : (s.loc t).holds := by
    rw [here]
    rfl
  obtain ⟨first, nonzero⟩ : s.workq = mp ∧ mp ≠ 0 := by
    have := inv.knows t
    rwa [here] at this
  obtain ⟨rest, rfl⟩ : ∃ rest, l = mp :: rest := by
    have head := inv.workq_eq
    cases l with
    | nil => simp [first, nonzero] at head
    | cons x rest => exact ⟨rest, by rw [← first, head]; rfl⟩
  have nodup := inv.chain.nodup
  have outside : mp ∉ rest := (List.nodup_cons.mp (List.nodup_cons.mp nodup).2).1
  have apart : ∀ x, x ≠ mp → Function.update s.inUse mp false x = s.inUse x :=
    fun x other => Function.update_of_ne other _ _
  refine ⟨rest, inv.change held rfl ?_ ?_ ?_ ?_ trivial rfl⟩
  · rw [stackAfter_snoc inv.stack, Move.apply, if_pos rfl]
  · obtain ⟨-, -, back⟩ := inv.chain
    cases rest with
    | nil =>
        have entry := back.next_entry
        simpa [Linked, State.cells, nonzero] using entry
    | cons x rest =>
        obtain ⟨link, positive, more⟩ := back
        refine ⟨?_, positive, more.congr ?_⟩
        · simpa [State.cells, nonzero] using link
        · intro a member
          have other : a ≠ 0 := by
            rintro rfl
            exact (List.nodup_cons.mp nodup).1 (List.mem_cons_of_mem _ member)
          simp [State.cells, other]
  · intro x member
    rw [apart x fun same => outside (same ▸ member)]
    exact inv.used x (List.mem_cons_of_mem _ member)
  · intro u x member
    by_cases same : u = t
    · subst same
      simp [Function.update_self, Loc.puts] at member
    · rw [Function.update_of_ne same] at member
      obtain ⟨-, use, off⟩ := inv.putting u x member
      have other : x ≠ mp := fun same => off (by simp [same])
      exact ⟨member, by rwa [apart x other], fun behind => off (List.mem_cons_of_mem _ behind)⟩

/-- The link of the message that is put. -/
theorem Inv.putLink (inv : Inv s l) (here : s.loc t = .putLink mp)
    : Inv ({ s with m_next := Function.update s.m_next mp s.workq }.goto t (.putFirst mp)) l := by
  have held : (s.loc t).holds := by
    rw [here]
    rfl
  obtain ⟨-, -, outside⟩ := inv.putting t mp (by simp [here, Loc.puts])
  refine inv.change held rfl inv.stack (inv.chain.congr ?_) inv.used ?_
    (Function.update_self ..) rfl
  · intro a member
    by_cases entry : a = 0
    · simp [State.cells, entry]
    · have other : a ≠ mp := by
        rintro rfl
        exact outside ((List.mem_cons.mp member).resolve_left entry)
      simp [State.cells, entry, other]
  · intro u x member
    have before : x ∈ (s.loc u).puts := by
      by_cases same : u = t
      · subst same
        rw [here]
        rwa [Function.update_self] at member
      · rwa [Function.update_of_ne same] at member
    exact ⟨before, (inv.putting u x before).2⟩

/-- The message that is put becomes the first. -/
theorem Inv.putFirst (inv : Inv s l) (here : s.loc t = .putFirst mp)
    : Inv ({ s with workq := mp, moves := s.moves ++ [Move.put mp] }.goto t .putUnlock)
        (mp :: l) := by
  have held : (s.loc t).holds := by
    rw [here]
    rfl
  have mine : mp ∈ (s.loc t).puts := by simp [here, Loc.puts]
  obtain ⟨nonzero, use, outside⟩ := inv.putting t mp mine
  have link : s.m_next mp = s.workq := by
    have := inv.knows t
    rwa [here] at this
  refine inv.change held rfl ?_ ?_ ?_ ?_ trivial rfl
  · rw [stackAfter_snoc inv.stack, Move.apply]
  · refine inv.chain.push (by simp [nonzero, outside]) nonzero ?_ ?_ ?_
    · simp [State.cells]
    · simp [State.cells, nonzero, link]
    · intro a member
      have other : a ≠ 0 := inv.chain.ne_zero member
      simp [State.cells, other]
  · intro x member
    rcases List.mem_cons.mp member with rfl | old
    · exact use
    · exact inv.used x old
  · intro u x member
    by_cases same : u = t
    · subst same
      simp [Function.update_self, Loc.puts] at member
    · rw [Function.update_of_ne same] at member
      obtain ⟨-, theirs, off⟩ := inv.putting u x member
      have other : x ≠ mp := fun eq => same (inv.alone u t x member (eq ▸ mine))
      exact ⟨member, theirs, by simp [other, off]⟩

/-- A thread calls `enqueue_msg` with a message that is not in use. -/
theorem Inv.enqueue (inv : Inv s l) (here : s.loc t = .idle) (nonzero : mp ≠ 0)
    (free : s.inUse mp = false)
    : Inv ({ s with inUse := Function.update s.inUse mp true }.goto t (.putLock mp)) l := by
  have unused : ∀ x, s.inUse x → x ≠ mp := by
    rintro x use rfl
    simp [free] at use
  have still : ∀ x, s.inUse x → Function.update s.inUse mp true x := by
    intro x use
    rw [Function.update_of_ne (unused x use)]
    exact use
  have up : t ∉ s.qready := inv.awake (by simp [here])
  refine ⟨?_, ?_, inv.stack, inv.chain, fun x member => still x (inv.used x member), ?_, ?_, ?_, ?_⟩
  · refine (Function.forall_update_iff s.loc fun u loc => loc.holds ↔ s.qlock = some u).mpr
      ⟨?_, fun u _ => inv.mutex u⟩
    rw [← inv.mutex t, here]
    rfl
  · intro u member
    have other : u ≠ t := fun same => up (same ▸ member)
    exact (Function.update_of_ne other _ _).trans (inv.asleep u member)
  · refine (Function.forall_update_iff s.loc fun _ loc => ∀ x ∈ loc.puts,
      x ≠ 0 ∧ Function.update s.inUse mp true x ∧ x ∉ l).mpr ⟨?_, fun u _ x member => ?_⟩
    · intro x member
      obtain rfl : mp = x := by simpa [Loc.puts] using member
      refine ⟨nonzero, Function.update_self .., fun member => ?_⟩
      exact unused mp (inv.used mp member) rfl
    · obtain ⟨positive, use, off⟩ := inv.putting u x member
      exact ⟨positive, still x use, off⟩
  · have mine : ∀ u x, x ∈ (Function.update s.loc t (.putLock mp) u).puts
        → u = t ∧ x = mp ∨ x ∈ (s.loc u).puts ∧ x ≠ mp := by
      intro u x member
      by_cases same : u = t
      · subst same
        left
        simpa [Loc.puts, eq_comm] using member
      · rw [Function.update_of_ne same] at member
        exact .inr ⟨member, unused x (inv.putting u x member).2.1⟩
    intro u v x putsU putsV
    rcases mine u x putsU with ⟨rfl, rfl⟩ | ⟨before, other⟩
    · rcases mine v x putsV with ⟨rfl, -⟩ | ⟨-, other⟩
      · rfl
      · exact absurd rfl other
    · rcases mine v x putsV with ⟨-, same⟩ | ⟨before', -⟩
      · exact absurd same other
      · exact inv.alone u v x before before'
  · exact (Function.forall_update_iff s.loc fun _ loc => Knows s.workq s.m_next loc).mpr
      ⟨trivial, fun u _ => inv.knows u⟩
  · intro _ _
    exact ⟨t, (congrArg Loc.attends (Function.update_self ..)).trans rfl, up⟩

/-- A step of `process_msg` keeps the invariant. -/
theorem Inv.processMsg (inv : Inv s l) (h : processMsg s t (s.loc t) = some s')
    : ∃ l', Inv s' l' := by
  have knows := inv.knows t
  have held := inv.mutex t
  cases here : s.loc t with
  | lock =>
      simp only [here, Condvar.processMsg, Option.ite_none_right_eq_some] at h
      obtain ⟨free, h⟩ := h
      cases h
      exact ⟨l, inv.acquire free (inv.awake (by simp [here])) rfl (by simp [Loc.puts]) trivial
        fun _ => rfl⟩
  | check =>
      rw [here] at h held
      cases h
      have up := inv.awake (t := t) (by simp [here])
      by_cases empty : s.workq = 0
      · rw [if_pos empty]
        exact ⟨l, inv.goto (by rw [here]; rfl) up rfl empty fun nonempty => absurd empty nonempty⟩
      · rw [if_neg empty]
        exact ⟨l, inv.goto (by rw [here]; rfl) up rfl empty fun _ => rfl⟩
  | sleep =>
      rw [here] at h knows
      cases h
      refine ⟨l, inv.release (by rw [here]; rfl) rfl ?_ rfl fun nonempty => absurd knows nonempty⟩
      intro u member
      rcases Finset.mem_insert.mp member with same | slept
      · exact .inr ⟨same, rfl⟩
      · have up := inv.awake (t := t) (by simp [here])
        exact .inl ⟨slept, fun same => up (same ▸ slept)⟩
  | wait =>
      simp only [here, Condvar.processMsg, Option.ite_none_right_eq_some] at h
      obtain ⟨⟨up, free⟩, h⟩ := h
      cases h
      exact ⟨l, inv.acquire free up rfl (by simp [Loc.puts]) trivial fun _ => rfl⟩
  | takeFirst =>
      rw [here] at h knows
      cases h
      exact ⟨l, inv.goto (by rw [here]; rfl) (inv.awake (by simp [here])) rfl ⟨rfl, knows⟩
        fun _ => rfl⟩
  | takeNext mp =>
      rw [here] at h
      cases h
      exact inv.takeNext here
  | unlockTaken mp =>
      rw [here] at h
      cases h
      have up := inv.awake (t := t) (by simp [here])
      exact ⟨l, inv.release (by rw [here]; rfl) rfl
        (fun u member => .inl ⟨member, fun same => up (same ▸ member)⟩) rfl fun _ => ⟨rfl, up⟩⟩
  | process mp =>
      rw [here] at h
      cases h
      exact ⟨l, inv.goto (by rw [here]; rfl) (inv.awake (by simp [here])) rfl trivial fun _ => rfl⟩
  | idle | putLock mp | putLink mp | putFirst mp | putUnlock | putSignal =>
      rw [here] at h
      cases h

/-- A step of `enqueue_msg` keeps the invariant. -/
theorem Inv.enqueueMsg (inv : Inv s l) (h : enqueueMsg s t (s.loc t) = some s')
    : ∃ l', Inv s' l' := by
  cases here : s.loc t with
  | putLock mp =>
      simp only [here, Condvar.enqueueMsg, Option.ite_none_right_eq_some] at h
      obtain ⟨free, h⟩ := h
      cases h
      exact ⟨l, inv.acquire free (inv.awake (by simp [here])) rfl (by simp [here, Loc.puts]) trivial
        fun _ => rfl⟩
  | putLink mp =>
      rw [here] at h
      cases h
      exact ⟨l, inv.putLink here⟩
  | putFirst mp =>
      rw [here] at h
      cases h
      exact ⟨_, inv.putFirst here⟩
  | putUnlock =>
      rw [here] at h
      cases h
      have up := inv.awake (t := t) (by simp [here])
      exact ⟨l, inv.release (by rw [here]; rfl) rfl
        (fun u member => .inl ⟨member, fun same => up (same ▸ member)⟩) rfl fun _ => ⟨rfl, up⟩⟩
  | idle | lock | check | sleep | wait | takeFirst | takeNext mp | unlockTaken mp | process mp
  | putSignal =>
      rw [here] at h
      cases h

/-- Where some thread still sleeps after a signal, another one has been woken. -/
theorem signalled_cases {qready qready' : Finset ι} {woken : Option ι}
    (h : signalled qready woken = some qready')
    : qready' = ∅ ∧ qready = ∅ ∨ ∃ u ∈ qready, qready' = qready.erase u := by
  cases woken with
  | none =>
      simp only [signalled, Option.ite_none_right_eq_some, Option.some.injEq] at h
      exact .inl ⟨h.2.symm, h.1⟩
  | some u =>
      simp only [signalled, Option.ite_none_right_eq_some, Option.some.injEq] at h
      exact .inr ⟨u, h.1, h.2.symm⟩

/-- A signal keeps the invariant. -/
theorem Inv.signal (inv : Inv s l) (here : s.loc t = .putSignal) {qready : Finset ι}
    {woken : Option ι} (h : signalled s.qready woken = some qready)
    : Inv ({ s with qready := qready }.goto t .idle) l := by
  have up := inv.awake (t := t) (by simp [here])
  have fewer : qready ⊆ s.qready := by
    rcases signalled_cases h with ⟨rfl, -⟩ | ⟨u, -, rfl⟩
    · exact Finset.empty_subset _
    · exact Finset.erase_subset u _
  refine inv.moves (by rw [← inv.mutex t, here]; rfl) (fun _ _ => Iff.rfl)
    (fun u member => .inl ⟨fewer member, fun same => up (same ▸ fewer member)⟩) (by simp [Loc.puts])
    trivial ?_
  intro _ sleeps
  rcases signalled_cases h with ⟨rfl, -⟩ | ⟨u, slept, rfl⟩
  · exact absurd sleeps Finset.not_nonempty_empty
  · refine ⟨u, ?_, Finset.notMem_erase u _⟩
    have other : u ≠ t := fun same => up (same ▸ slept)
    rw [Function.update_of_ne other, inv.asleep u slept]
    rfl

/-- A wakeup keeps the invariant. -/
theorem Inv.wake (inv : Inv s l) (slept : t ∈ s.qready)
    : Inv { s with qready := s.qready.erase t } l where
  mutex := inv.mutex
  asleep u member := inv.asleep u (Finset.mem_of_mem_erase member)
  stack := inv.stack
  chain := inv.chain
  used := inv.used
  putting := inv.putting
  alone := inv.alone
  knows := inv.knows
  attended _ _ := by
    refine ⟨t, ?_, Finset.notMem_erase t _⟩
    rw [inv.asleep t slept]
    rfl

/-- Every event keeps the invariant. -/
theorem step_inv {event : Event ι} (h : step s event = some s') (inv : ∃ l, Inv s l)
    : ∃ l, Inv s' l := by
  obtain ⟨l, inv⟩ := inv
  cases event with
  | process t =>
      simp only [step, Option.ite_none_right_eq_some, Option.some.injEq] at h
      obtain ⟨here, rfl⟩ := h
      exact ⟨l, inv.goto (by rw [here]; rfl) (inv.awake (by simp [here])) rfl trivial fun _ => rfl⟩
  | enqueue t mp =>
      simp only [step, Option.ite_none_right_eq_some, Option.some.injEq] at h
      obtain ⟨⟨here, nonzero, free⟩, rfl⟩ := h
      exact ⟨l, inv.enqueue here nonzero free⟩
  | run t =>
      simp only [step, Option.orElse_eq_or, Option.or_eq_some_iff] at h
      rcases h with works | ⟨-, puts⟩
      · exact inv.processMsg works
      · exact inv.enqueueMsg puts
  | signal t woken =>
      simp only [step, Option.ite_none_right_eq_some] at h
      obtain ⟨here, h⟩ := h
      obtain ⟨qready, awoken, rfl⟩ := Option.map_eq_some_iff.mp h
      exact ⟨l, inv.signal here awoken⟩
  | wake t =>
      simp only [step, Option.ite_none_right_eq_some, Option.some.injEq] at h
      obtain ⟨slept, rfl⟩ := h
      exact ⟨l, inv.wake slept⟩

-----------------------------------------------------------------------------------------
-- Whole runs
-----------------------------------------------------------------------------------------

/-- A thread can go on: one of its steps, or its signal, can happen. -/
def Goes (s : State ι) (t : ι) : Prop :=
  (step s (.run t)).isSome ∨ ∃ woken, (step s (.signal t woken)).isSome

/-- The thread that holds the mutex can step. -/
theorem goes_of_holds (holds : (s.loc t).holds) : Goes s t := by
  left
  cases here : s.loc t <;> simp_all [Loc.holds, step, processMsg, enqueueMsg]

/-- Where the lock is free, every thread that attends to the queue and does not sleep goes on. -/
theorem goes_of_attends (free : s.qlock = none) (attends : (s.loc t).attends) (up : t ∉ s.qready)
    (waits : (s.loc t).holds = false)
    : Goes s t := by
  cases here : s.loc t with
  | putSignal =>
      right
      rcases s.qready.eq_empty_or_nonempty with none_ | ⟨u, slept⟩
      · exact ⟨none, by simp [step, here, signalled, none_]⟩
      · exact ⟨some u, by simp [step, here, signalled, slept]⟩
  | _ =>
      left
      simp_all [Loc.attends, Loc.holds, step, processMsg, enqueueMsg]

/-- While the queue is not empty, some thread goes on where any thread is in `process_msg`: not
all of them sleep, unless one is about to be woken.
-/
theorem Inv.goes_on (inv : Inv s l) (nonempty : l ≠ []) (works : (s.loc t).works)
    : ∃ u, (s.loc u).attends ∧ Goes s u := by
  have waiting : s.workq ≠ 0 := by
    rw [inv.workq_eq]
    cases l with
    | nil => exact absurd rfl nonempty
    | cons x rest => exact inv.chain.ne_zero (by simp)
  have sleepless : ∀ u, s.loc u ≠ .sleep := by
    intro u sleeps
    have knows := inv.knows u
    rw [sleeps] at knows
    exact waiting knows
  cases lock : s.qlock with
  | some u =>
      have holds := (inv.mutex u).mpr lock
      refine ⟨u, ?_, goes_of_holds holds⟩
      have := sleepless u
      cases here : s.loc u <;> simp_all [Loc.holds, Loc.attends]
  | none =>
      have free : ∀ u, (s.loc u).holds = false := by
        intro u
        simpa [lock] using inv.mutex u
      have goes : ∀ u, (s.loc u).attends → u ∉ s.qready → ∃ u, (s.loc u).attends ∧ Goes s u :=
        fun u attends up => ⟨u, attends, goes_of_attends lock attends up (free u)⟩
      by_cases slept : t ∈ s.qready
      · obtain ⟨u, attends, up⟩ := inv.attended waiting ⟨t, slept⟩
        exact goes u attends up
      · refine goes t ?_ slept
        have := sleepless t
        cases here : s.loc t <;> simp_all [Loc.works, Loc.attends]

/-- Whatever the scheduling, the wakeups and the threads that signals wake: a message is taken only
when it is the last that was put of those not taken, so each is taken once or still in the queue,
where the links lead to exactly these; and while there are any, and a thread in `process_msg`, some
thread goes on.
-/
theorem run_works (events : List (Event ι)) (s : State ι)
    (h : runEvents step ({} : State ι) events = some s)
    : ∃ l, stackAfter s.moves = some l ∧ Linked s.cells 0 l
      ∧ (s.moves.filterMap Move.isPut).Perm (s.moves.filterMap Move.isTake ++ l)
      ∧ (l ≠ [] → ∀ t, (s.loc t).works → ∃ u, (s.loc u).attends ∧ Goes s u) := by
  obtain ⟨l, inv⟩ := runEvents_invariant (P := fun s : State ι => ∃ l, Inv s l)
    (fun h inv => step_inv h inv) h ⟨[], start_inv⟩
  refine ⟨l, inv.stack, inv.chain, ?_, fun nonempty t works => inv.goes_on nonempty works⟩
  simpa using perm_of_foldlM inv.stack

/-- A thread sleeps in `process_msg`, and another has put a message and not yet signalled. -/
def oneMessage : List (Event Bool) :=
  [.process false, .run false, .run false, .run false, .enqueue true 5, .run true, .run true,
    .run true, .run true]

/-- The sample run can be made. -/
theorem oneMessage_isSome : (runEvents step ({} : State Bool) oneMessage).isSome := by
  decide +kernel

/-- Witness: the thread that has put the message goes on. -/
theorem run_works_oneMessage
    : ∃ u, Goes ((runEvents step ({} : State Bool) oneMessage).get oneMessage_isSome) u := by
  obtain ⟨l, stack, -, -, goes⟩ := run_works oneMessage _ (Option.some_get oneMessage_isSome).symm
  have nonempty : l ≠ [] := by
    rintro rfl
    exact absurd stack (by decide +kernel)
  obtain ⟨u, -, on⟩ := goes nonempty false (by decide +kernel)
  exact ⟨u, on⟩

end Minions.Threads.Condvar
