import Mathlib.Algebra.BigOperators.Group.Finset.Basic
import Mathlib.Data.Fintype.Card
import Minions.Logic.Events

/-! Reference counted objects in a hash table: `mutex2.c`.
Any number of threads call `foo_alloc`, `foo_find`, `foo_hold` and `foo_rele`. A step is one lock
or unlock operation, or the code up to the next one; the two loops over a hash chain take one
step for each object. Objects are numbered in the order of their allocation, so that a pointer
to a freed object never becomes a pointer to a new one; 0 is `NULL`.
-/

namespace Minions.Threads.Mutex2

open Minions.Logic

def nHash : Nat := 29

/-- `HASH`. -/
def hash (id : Int32) : Fin nHash :=
  ⟨(id.toInt % 2 ^ 64).toNat % nHash, Nat.mod_lt _ (by decide)⟩

/-- `struct foo`, with the thread that has locked it. -/
structure Foo (ι : Type) where
  fCount : Int32
  fLock : Option ι
  fId : Int32
  fNext : Nat

/-- Where a thread is: the operation that comes next, with the local variables that it needs.
`finding` tells a `foo_hold` that `foo_find` has called.
-/
inductive Loc
  /-- In no call. The last one returned the pointer. -/
  | idle (fp : Nat)
  -- foo_alloc
  | allocLockHash (fp : Nat) (idx : Fin nHash)
  | allocInsert (fp : Nat) (idx : Fin nHash)
  | allocLock (fp : Nat)
  | allocUnlockHash (fp : Nat)
  | allocUnlock (fp : Nat)
  -- foo_hold
  | holdLock (fp : Nat) (finding : Bool)
  | holdIncrement (fp : Nat) (finding : Bool)
  | holdUnlock (fp : Nat) (finding : Bool)
  -- foo_find
  | findLockHash (id : Int32)
  | findHead (id : Int32)
  | findScan (id : Int32) (fp : Nat)
  | findUnlockHash (fp : Nat)
  -- foo_rele, up to the recheck
  | releLock (fp : Nat)
  | releTest (fp : Nat)
  | releUnlockGap (fp : Nat)
  | releLockHash (fp : Nat)
  | releRelock (fp : Nat)
  | releRecheck (fp : Nat)
  -- foo_rele, where another reference was left
  | droppedUnlock (fp : Nat)
  | droppedUnlockBoth (fp : Nat)
  | droppedUnlockHash
  -- foo_rele, where none was left
  | lastWalk (fp tfp : Nat)
  | lastUnlockHash (fp : Nat)
  | lastUnlock (fp : Nat)
  | lastDestroy (fp : Nat)
  deriving DecidableEq

/-- A call of the lock library. -/
inductive Op
  | lockHash
  | unlockHash
  | lock (fp : Nat)
  | unlock (fp : Nat)

/-- The lock operation that comes next, and the place after it. -/
def Loc.op : Loc → Option (Op × Loc)
  | .allocLockHash fp idx => some (.lockHash, .allocInsert fp idx)
  | .allocLock fp => some (.lock fp, .allocUnlockHash fp)
  | .allocUnlockHash fp => some (.unlockHash, .allocUnlock fp)
  | .allocUnlock fp => some (.unlock fp, .idle fp)
  | .holdLock fp finding => some (.lock fp, .holdIncrement fp finding)
  | .holdUnlock fp finding =>
      some (.unlock fp, if finding then .findUnlockHash fp else .idle 0)
  | .findLockHash id => some (.lockHash, .findHead id)
  | .findUnlockHash fp => some (.unlockHash, .idle fp)
  | .releLock fp => some (.lock fp, .releTest fp)
  | .releUnlockGap fp => some (.unlock fp, .releLockHash fp)
  | .releLockHash fp => some (.lockHash, .releRelock fp)
  | .releRelock fp => some (.lock fp, .releRecheck fp)
  | .droppedUnlock fp => some (.unlock fp, .idle 0)
  | .droppedUnlockBoth fp => some (.unlock fp, .droppedUnlockHash)
  | .droppedUnlockHash => some (.unlockHash, .idle 0)
  | .lastUnlockHash fp => some (.unlockHash, .lastUnlock fp)
  | .lastUnlock fp => some (.unlock fp, .lastDestroy fp)
  | .idle _ | .allocInsert .. | .holdIncrement .. | .findHead _ | .findScan .. | .releTest _
  | .releRecheck _ | .lastWalk .. | .lastDestroy _ => none

/-- The hash table, the objects, the threads, and what has happened so far. -/
structure State (ι : Type) where
  fh : Fin nHash → Nat
  hashlock : Option ι
  /-- The objects that are not freed. -/
  heap : Nat → Option (Foo ι)
  loc : ι → Loc
  /-- The number of objects allocated. -/
  allocated : Nat
  /-- How many references a thread owns on an object. -/
  owned : ι → Nat → Nat
  /-- The objects that are inserted and not unlinked. -/
  linked : Nat → Bool
  /-- The objects given to `free`. -/
  freed : List Nat
  /-- A thread has used a pointer to no object, or a lock against the rules, or a count has left
  the range of `int`.
  -/
  faulted : Bool

variable {ι : Type} [DecidableEq ι]

def start : State ι where
  fh := fun _ => 0
  hashlock := none
  heap := fun _ => none
  loc := fun _ => .idle 0
  allocated := 0
  owned := fun _ _ => 0
  linked := fun _ => false
  freed := []
  faulted := false

def State.goto (s : State ι) (t : ι) (loc : Loc) : State ι :=
  { s with loc := Function.update s.loc t loc }

def State.setFoo (s : State ι) (fp : Nat) (foo : Foo ι) : State ι :=
  { s with heap := Function.update s.heap fp (some foo) }

/-- The thread owns so many references on the object. -/
def State.setOwned (s : State ι) (t : ι) (fp n : Nat) : State ι :=
  { s with owned := Function.update s.owned t (Function.update (s.owned t) fp n) }

/-- The object becomes the head of a chain. -/
def State.link (s : State ι) (fp : Nat) (idx : Fin nHash) (foo : Foo ι) : State ι :=
  { s.setFoo fp { foo with fNext := s.fh idx } with
    fh := Function.update s.fh idx fp
    linked := Function.update s.linked fp true }

/-- The head of a chain is taken out of it. -/
def State.unlinkHead (s : State ι) (fp : Nat) (idx : Fin nHash) (foo : Foo ι) : State ι :=
  { s with
    fh := Function.update s.fh idx foo.fNext
    linked := Function.update s.linked fp false }

/-- The object behind `tfp` is taken out of its chain. -/
def State.unlinkBehind (s : State ι) (fp : Nat) (foo : Foo ι) (tfp : Nat) (before : Foo ι)
    : State ι :=
  { s.setFoo tfp { before with fNext := foo.fNext } with
    linked := Function.update s.linked fp false }

/-- The object is freed, and the reference is gone with it. -/
def State.free (s : State ι) (t : ι) (fp : Nat) : State ι :=
  { s.setOwned t fp (s.owned t fp - 1) with
    heap := Function.update s.heap fp none
    freed := s.freed ++ [fp] }

/-- Read through a pointer. -/
def State.deref (s : State ι) (fp : Nat) (use : Foo ι → State ι) : State ι :=
  match s.heap fp with
  | some foo => use foo
  | none => { s with faulted := true }

/-- A thread performs a lock operation, unless it has to wait. A thread may unlock what it has
locked.
-/
def perform (s : State ι) (t : ι) (next : Loc) : Op → Option (State ι)
  | .lockHash =>
      if s.hashlock = none then some ({ s with hashlock := some t }.goto t next) else none
  | .unlockHash =>
      if s.hashlock = some t then some ({ s with hashlock := none }.goto t next)
      else some { s with faulted := true }
  | .lock fp =>
      match s.heap fp with
      | some foo =>
          if foo.fLock = none then some ((s.setFoo fp { foo with fLock := some t }).goto t next)
          else none
      | none => some { s with faulted := true }
  | .unlock fp =>
      some (s.deref fp fun foo =>
        if foo.fLock = some t then (s.setFoo fp { foo with fLock := none }).goto t next
        else { s with faulted := true })

/-- `foo_alloc`, up to its first lock operation, where `malloc` and `pthread_mutex_init`
succeed. `f_next` is set by the insertion.
-/
def fooAlloc (s : State ι) (t : ι) (id : Int32) : State ι :=
  let fp := s.allocated + 1
  let foo := { fCount := 1, fLock := none, fId := id, fNext := 0 }
  { (s.setFoo fp foo).setOwned t fp 1 with allocated := fp }.goto t (.allocLockHash fp (hash id))

/-- The insertion in `foo_alloc`. -/
def insert (s : State ι) (t : ι) (fp : Nat) (idx : Fin nHash) : State ι :=
  s.deref fp fun foo => (s.link fp idx foo).goto t (.allocLock fp)

/-- `fp->f_count++`: one reference more. The increment of `INT_MAX` is undefined; what most
machines leave there is the wrapped number.
-/
def increment (s : State ι) (t : ι) (fp : Nat) (foo : Foo ι) : State ι :=
  { (s.setFoo fp { foo with fCount := foo.fCount + 1 }).setOwned t fp (s.owned t fp + 1) with
    faulted := s.faulted || foo.fCount == Int32.maxValue }

/-- `fp->f_count--`: one reference less. -/
def decrement (s : State ι) (t : ι) (fp : Nat) (foo : Foo ι) : State ι :=
  { (s.setFoo fp { foo with fCount := foo.fCount - 1 }).setOwned t fp (s.owned t fp - 1) with
    faulted := s.faulted || foo.fCount == Int32.minValue }

/-- One round of the loop in `foo_find`. -/
def scan (s : State ι) (t : ι) (id : Int32) (fp : Nat) : State ι :=
  if fp = 0 then s.goto t (.findUnlockHash 0)
  else
    s.deref fp fun foo =>
      if foo.fId = id then s.goto t (.holdLock fp true) else s.goto t (.findScan id foo.fNext)

/-- The first test of `f_count` in `foo_rele`. -/
def test (s : State ι) (t : ι) (fp : Nat) : State ι :=
  s.deref fp fun foo =>
    if foo.fCount = 1 then s.goto t (.releUnlockGap fp)
    else (decrement s t fp foo).goto t (.droppedUnlock fp)

/-- The second test, and the removal from the head of the chain. -/
def recheck (s : State ι) (t : ι) (fp : Nat) : State ι :=
  s.deref fp fun foo =>
    if foo.fCount ≠ 1 then (decrement s t fp foo).goto t (.droppedUnlockBoth fp)
    else
      let idx := hash foo.fId
      if s.fh idx = fp then (s.unlinkHead fp idx foo).goto t (.lastUnlockHash fp)
      else s.goto t (.lastWalk fp (s.fh idx))

/-- The search for the object before, and the removal behind it. -/
def walk (s : State ι) (t : ι) (fp tfp : Nat) : State ι :=
  s.deref tfp fun before =>
    if before.fNext ≠ fp then s.goto t (.lastWalk fp before.fNext)
    else
      s.deref fp fun foo => (s.unlinkBehind fp foo tfp before).goto t (.lastUnlockHash fp)

/-- `pthread_mutex_destroy` and `free`. -/
def destroy (s : State ι) (t : ι) (fp : Nat) : State ι :=
  s.deref fp fun foo =>
    if foo.fLock = none then (s.free t fp).goto t (.idle 0) else { s with faulted := true }

/-- The code up to the next lock operation. -/
def code (s : State ι) (t : ι) : Loc → Option (State ι)
  | .allocInsert fp idx => some (insert s t fp idx)
  | .holdIncrement fp finding =>
      some (s.deref fp fun foo => (increment s t fp foo).goto t (.holdUnlock fp finding))
  | .findHead id => some (s.goto t (.findScan id (s.fh (hash id))))
  | .findScan id fp => some (scan s t id fp)
  | .releTest fp => some (test s t fp)
  | .releRecheck fp => some (recheck s t fp)
  | .lastWalk fp tfp => some (walk s t fp tfp)
  | .lastDestroy fp => some (destroy s t fp)
  | _ => none

/-- The next operation of a thread inside a call, unless it has to wait. -/
def run (s : State ι) (t : ι) : Option (State ι) :=
  match (s.loc t).op with
  | some (op, next) => perform s t next op
  | none => code s t (s.loc t)

inductive Event (ι : Type)
  /-- `foo_alloc` is called. If it fails, it returns `NULL` before its first lock operation. -/
  | alloc (t : ι) (id : Int32) (succeeds : Bool)
  | find (t : ι) (id : Int32)
  | hold (t : ι) (fp : Nat)
  | rele (t : ι) (fp : Nat)
  | run (t : ι)

/-- The thread is in no call. -/
def Loc.isIdle : Loc → Bool
  | .idle _ => true
  | _ => false

/-- One step of one thread. A thread passes to `foo_hold` and `foo_rele` only objects on which it
owns a reference.
-/
def step (s : State ι) : Event ι → Option (State ι)
  | .alloc t id succeeds =>
      if (s.loc t).isIdle then
        some (if succeeds then fooAlloc s t id else s.goto t (.idle 0))
      else none
  | .find t id => if (s.loc t).isIdle then some (s.goto t (.findLockHash id)) else none
  | .hold t fp =>
      if (s.loc t).isIdle ∧ 0 < s.owned t fp then some (s.goto t (.holdLock fp false)) else none
  | .rele t fp =>
      if (s.loc t).isIdle ∧ 0 < s.owned t fp then some (s.goto t (.releLock fp)) else none
  | .run t => run s t

end Minions.Threads.Mutex2
