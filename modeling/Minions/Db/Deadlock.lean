import Minions.Db.LockOrder

/-! Deadlock freedom of the library's locks.
Every operation, `db_open` included, follows the lock order from no locks to no locks, whatever
the files hold and whatever the other processes do to them.
-/

namespace Minions.Db

open Minions.Data Minions.Logic

variable {opens : Prop} {T : Locks} {db : DB}

-----------------------------------------------------------------------------------------
-- Opening and closing
-----------------------------------------------------------------------------------------

/-- A process without locks has none to give up. -/
theorem relock_noLocks (fd : Fd) (start len : Nat)
    : relock noLocks fd start len none = noLocks := by
  funext f b
  simp [relock, noLocks]

/-- `_db_free` takes no locks. -/
theorem orderly_dbFree {Q : Unit → Locks → Prop} (rest : Q () noLocks)
    : Orderly opens (dbFree db) Q noLocks := by
  have second : Orderly opens
      (if db.datfd ≥ 0 then (sysClose .dat).bind fun _ => .ret () else .ret ()) Q noLocks := by
    split
    · refine orderly_close fun rc => ?_
      rw [relock_noLocks]
      exact rest
    · exact rest
  simp only [dbFree, Prog.bind_eq, Prog.pure_eq]
  split
  · refine orderly_close fun rc => ?_
    rw [relock_noLocks]
    exact second
  · exact second

/-- `db_open` holds nothing when it locks the whole index file. -/
theorem orderly_dbOpen {oflag : Oflag} {Q : Option DB → Locks → Prop}
    (rest : ∀ mem, (∀ db, mem = some db → Good db) → Q mem noLocks)
    : Orderly True (dbOpen oflag) Q noLocks := by
  simp only [dbOpen, Prog.bind_eq, Prog.pure_eq, errDump_bind]
  generalize emptyHash = header
  refine orderly_open trivial fun idxfd => orderly_open trivial fun datfd => ?_
  split
  · exact Follows.bind (orderly_dbFree (rest none fun _ same => by cases same))
  have rewind : Orderly True
      ((dbRewind { dbAlloc with idxfd, datfd }).bind fun db => .ret (some db)) Q noLocks := by
    refine Follows.bind (orderly_rewind fun db same => rest _ fun db' eq => ?_)
    obtain rfl := Option.some.inj eq
    exact same.good ⟨rfl, rfl⟩
  have unlock : Orderly True
      ((unLock .idx 0 0).bind fun rc =>
        if rc < 0 then errDump "db_open: un_lock error"
        else (dbRewind { dbAlloc with idxfd, datfd }).bind fun db => .ret (some db)) Q
      (relock noLocks .idx 0 0 (some .wr)) := by
    refine orderly_unLock fun rc => ?_
    rw [relock_undo fun _ _ => rfl]
    split
    · exact orderly_errDump
    exact rewind
  split
  · refine orderly_writewLock (mayLock_noLocks _ _ _) fun rc => ?_
    split
    · exact orderly_errDump
    refine orderly_fstat fun size => ?_
    split
    · refine orderly_write fun n => ?_
      split
      · exact orderly_errDump
      exact unlock
    · exact unlock
  · exact rewind

/-- A handle that a process may have: none, or one that `db_open` made. -/
def Opened (mem : Option DB) : Prop := ∀ db, mem = some db → Good db

/-- A handle that `db_open` made may be used. -/
theorem opened_some (good : Good db) : Opened (some db) := by
  intro db' eq
  obtain rfl := Option.some.inj eq
  exact good

/-- Every operation takes its locks in order and gives all of them up. -/
theorem orderly_opCode (op : Op) (mem : Option DB) (handle : Opened mem)
    : Orderly True (opCode op mem) (fun r T => Opened r.2 ∧ T = noLocks) noLocks := by
  cases op with
  | «open» creat trunc =>
      have code : Orderly True
          ((dbOpen { creat, trunc }).bind fun db => .ret (Res.opened db.isSome, db))
          (fun r T => Opened r.2 ∧ T = noLocks) noLocks :=
        Follows.bind (orderly_dbOpen fun mem' handle' => ⟨handle', rfl⟩)
      cases mem <;> exact code
  | fetch key =>
      cases mem with
      | none => trivial
      | some db =>
          exact Follows.bind (orderly_fetch (handle db rfl) fun _ _ good =>
            ⟨opened_some good, rfl⟩)
  | store key data flag =>
      cases mem with
      | none => trivial
      | some db =>
          exact Follows.bind (orderly_store (handle db rfl) fun _ _ good =>
            ⟨opened_some good, rfl⟩)
  | delete key =>
      cases mem with
      | none => trivial
      | some db =>
          exact Follows.bind (orderly_delete (handle db rfl) fun _ _ good =>
            ⟨opened_some good, rfl⟩)
  | rewind =>
      cases mem with
      | none => trivial
      | some db =>
          exact Follows.bind (orderly_rewind fun _ same =>
            ⟨opened_some (same.good (handle db rfl)), rfl⟩)
  | nextrec =>
      cases mem with
      | none => trivial
      | some db =>
          exact Follows.bind (orderly_nextrec (handle db rfl) fun _ _ good =>
            ⟨opened_some good, rfl⟩)
  | close =>
      cases mem with
      | none => trivial
      | some db => exact Follows.bind (orderly_dbFree ⟨nofun, rfl⟩)

-----------------------------------------------------------------------------------------
-- All processes
-----------------------------------------------------------------------------------------

/-- A write does not touch the locks. -/
theorem setFile_locks (d : Disk) (fd : Fd) (f : File) : (d.setFile fd f).locks = d.locks := by
  cases fd <;> rfl

/-- A call moves the locks of its process by the protocol, and no others. -/
theorem exec_locks (p q : Pid) (c : Call) (l : Offsets) (d : Disk)
    : (kernel.exec p c l d).2.2.locks q
      = if q = p then (lockProtocol True).next c (d.locks q) else d.locks q := by
  have set : ∀ fd start len kind, (d.setLocks p fd start len kind).locks q
      = if q = p then relock (d.locks q) fd start len kind else d.locks q := by
    intro fd start len kind
    split
    · rename_i same
      subst same
      exact setLocks_self _ _ _ _ _ _
    · rename_i ne
      exact setLocks_other _ _ _ _ _ ne
  cases c with
  | lock fd kind start len => exact set fd start len (some kind)
  | unlock fd start len => exact set fd start len none
  | close fd => exact set fd 0 0 none
  | «open» fd oflag =>
      simp only [kernel, execCall, lockProtocol, ite_self]
      split
      · rw [setFile_locks]
      · rfl
  | lseek fd offset whence =>
      simp only [kernel, execCall, lockProtocol, ite_self]
      split <;> rfl
  | write fd bytes =>
      simp only [kernel, execCall, lockProtocol, ite_self]
      split
      · rw [setFile_locks]
      · rfl
  | read fd count => exact (ite_self _).symm
  | fstat fd => exact (ite_self _).symm

/-- The system grants and releases the locks as the protocol says. -/
theorem library_obeys
    : Obeys kernel opCode (lockProtocol True) (fun p d => d.locks p) Opened noLocks where
  own p c l d := by rw [exec_locks, if_pos rfl]
  other p q c l d ne := by rw [exec_locks, if_neg ne]
  leave p d := by
    funext f b
    simp [kernel, noLocks]
  leave_other p q d ne := by
    funext f b
    simp [kernel, ne]
  code := orderly_opCode

/-- Process `q` has a lock on byte `b` that a request of `p` has to wait for. -/
def Conflict (d : Disk) (p q : Pid) (fd : Fd) (kind : LockKind) (b : Nat) : Prop :=
  q ≠ p ∧ (d.locks q fd b = some .wr ∨ kind = .wr ∧ (d.locks q fd b).isSome)

/-- Process `p` waits for a lock of process `q`. -/
def WaitsFor (c : System) (p q : Pid) : Prop :=
  ∃ op fd kind start len next l b,
    c.procs p = .busy op (.call (.lock fd kind start len) next) l
    ∧ inRange start len b
    ∧ Conflict c.st p q fd kind b

/-- The ranks order the locks of the library. -/
def lockOrder : LockOrder kernel (lockProtocol True) (fun p (d : Disk) => d.locks p) where
  holds T n := ∃ fd b, (T fd b).isSome ∧ rank fd b = n
  blocks p c d q n :=
    match c with
    | .lock fd kind start len => ∃ b, inRange start len b ∧ rank fd b = n ∧ Conflict d p q fd kind b
    | _ => False
  bound := 1
  holder := by
    intro p c d q n blocked
    cases c with
    | lock fd kind start len =>
        obtain ⟨b, -, rfl, -, held⟩ := blocked
        refine ⟨⟨fd, b, ?_, rfl⟩, ?_⟩
        · rcases held with write | ⟨-, any⟩
          · simp [write]
          · exact any
        · exact rank_le_one fd b
    | _ => exact blocked.elim
  ready := by
    intro p c l d free
    cases c with
    | lock fd kind start len =>
        intro q b ne inside
        have none_ := fun held => free q (rank fd b) ⟨b, inside, rfl, ne, held⟩
        refine ⟨fun write => none_ (Or.inl write), fun write => ?_⟩
        cases held : d.locks q fd b with
        | none => rfl
        | some k => exact absurd (Or.inr ⟨write, by simp [held]⟩) none_
    | _ => trivial
  climbs := by
    intro p c d q n n' may blocked held
    cases c with
    | lock fd kind start len =>
        obtain ⟨b, inside, rfl, -⟩ := blocked
        obtain ⟨fd', b', some_, rfl⟩ := held
        exact may some_ inside
    | _ => exact blocked.elim

/-- A process that waits for another does so at some lock. -/
theorem WaitsFor.waits {c : System} {p q : Pid} (h : WaitsFor c p q)
    : ∃ n, lockOrder.Waits c p q n := by
  obtain ⟨op, fd, kind, start, len, next, l, b, at_, inside, conflict⟩ := h
  exact ⟨rank fd b, op, _, next, l, at_, b, inside, rfl, conflict⟩

/-- Any number of processes may open the database and run any operations on it, interleaved at
every system call and with any contents of the files. In every state that is reached no
processes wait for one another's locks in a cycle, some process inside an operation can make
its next step whenever an operation is unfinished, and an operation that is about to return
holds no lock. Witness: the ranks of the locks increase along processes that wait for one
another.
-/
theorem no_deadlock (start last : System) (labels : History)
    (init : ∀ p, start.st.locks p = noLocks
      ∧ ∃ mem l, start.procs p = .idle mem l ∧ Opened mem)
    (run : Run kernel opCode (fun _ _ => True) start labels last)
    : (∀ p, ¬ Relation.TransGen (WaitsFor last) p p)
      ∧ (∀ p op prog l, last.procs p = .busy op prog l
        → ∃ q op' prog' l' label next, last.procs q = .busy op' prog' l'
          ∧ Step kernel opCode (fun _ _ => True) last label next ∧ label.pid = q)
      ∧ ∀ p op r l, last.procs p = .busy op (.ret r) l → last.st.locks p = noLocks := by
  have known := library_obeys.run (fun p => by
    obtain ⟨unlocked, mem, l, at_, handle⟩ := init p
    rw [at_]
    exact ⟨handle, unlocked⟩) run
  refine ⟨fun p cycle => ?_, fun p op prog l at_ => ?_, fun p op r l at_ => ?_⟩
  · exact lockOrder.no_cycle known p (Relation.TransGen.mono (fun _ _ => WaitsFor.waits) _ _ cycle)
  · refine lockOrder.progress known (fun n held => ?_) at_
    obtain ⟨fd, b, some_, -⟩ := held
    simp [noLocks] at some_
  · have follows := known p
    rw [at_] at follows
    exact follows.2

/-- Process 1 has locked the chain of a key that it deletes, and process 2, which fetches the key,
waits for the lock.
-/
theorem no_deadlock_sample
    : ∃ last, WaitsFor last 2 1 ∧ (∀ p, ¬ Relation.TransGen (WaitsFor last) p p)
        ∧ ∃ q label next, Step kernel opCode (fun _ _ => True) last label next ∧ label.pid = q := by
  have init : ∀ p, freshSystem.st.locks p = noLocks
      ∧ ∃ mem l, freshSystem.procs p = .idle mem l ∧ Opened mem :=
    fun _ => ⟨rfl, _, _, rfl, opened_some openedDb_good⟩
  have first : Run kernel opCode (fun _ _ => True) freshSystem [.invoke 1 (.delete keyA)] _ :=
    .snoc .nil (.invoke rfl trivial)
  have second : Run kernel opCode (fun _ _ => True) freshSystem
      [.invoke 1 (.delete keyA), .invoke 2 (.fetch keyA)] _ :=
    .snoc first (.invoke rfl trivial)
  let slot : Nat := dbHash openedDb.nhash keyA.bytes * PTR_SZ + openedDb.hashoff
  have granted : freshSystem.st.grants 1 .idx .wr slot 1 := fun _ _ _ _ => ⟨nofun, fun _ => rfl⟩
  have locked := second.snoc (.act (p := 1) rfl granted)
  obtain ⟨acyclic, progress, -⟩ := no_deadlock freshSystem _ _ init locked
  refine ⟨_, ?_, acyclic, ?_⟩
  · refine ⟨.fetch keyA, .idx, .rd, slot, 1, _, _, slot, rfl, ⟨Nat.le_refl _, ?_⟩, by decide,
      .inl ?_⟩
    · exact .inr (Nat.lt_succ_self _)
    · simp [kernel, execCall, Disk.setLocks, inRange, slot]
  · obtain ⟨q, -, -, -, label, next, -, step, same⟩ := progress 2 (.fetch keyA) _ _ rfl
    exact ⟨q, label, next, step, same⟩

end Minions.Db
