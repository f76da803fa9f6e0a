import Minions.Db.Sessions
import Minions.Logic.Protocol

/-! The order in which the library takes its locks.
A process takes the lock of a hash chain first and holds nothing then; the locks of the free
list, of the tail of the index file and of the data file are taken last, at most one of them at
a time. Nothing is assumed about the files here: a call may read anything.
-/

namespace Minions.Db

open Minions.Data Minions.Logic

/-- Chains come first; all other bytes of the two files come last. -/
def rank (fd : Fd) (b : Nat) : Nat :=
  if fd = .idx ∧ HASH_OFF ≤ b ∧ b < RECS_OFF then 0 else 1

/-- There are two ranks. -/
theorem rank_le_one (fd : Fd) (b : Nat) : rank fd b ≤ 1 := by
  unfold rank
  split <;> omega

/-- A lock may be requested when every byte that is already held ranks below it. -/
def MayLock (T : Locks) (fd : Fd) (start len : Nat) : Prop :=
  ∀ {fd' b' b}, (T fd' b').isSome → inRange start len b → rank fd' b' < rank fd b

/-- The locks of a process as its calls move them; `opens` tells whether it may open a file. -/
def lockProtocol (opens : Prop) : Protocol Sys Locks where
  may c T :=
    match c with
    | .lock fd _ start len => MayLock T fd start len
    | .open _ _ => opens
    | _ => True
  next c T :=
    match c with
    | .lock fd kind start len => relock T fd start len (some kind)
    | .unlock fd start len => relock T fd start len none
    | .close fd => relock T fd 0 0 none
    | _ => T

/-- The program takes its locks in order, from the locks `T`. -/
abbrev Orderly (opens : Prop) {α : Type} (prog : M α) (Q : α → Locks → Prop) (T : Locks) : Prop :=
  Follows (lockProtocol opens) prog Q T

variable {α β : Type} {opens : Prop} {T : Locks} {db db' : DB} {h : Nat} {kind : LockKind}

/-- A process without locks may take any. -/
theorem mayLock_noLocks (fd : Fd) (start len : Nat) : MayLock noLocks fd start len :=
  fun held => by simp [noLocks] at held

/-- The lock of a chain has the lower rank. -/
theorem chainLock_rank (lt : h < NHASH_DEF) {fd : Fd} {b : Nat}
    (held : (chainLock h kind fd b).isSome)
    : rank fd b = 0 := by
  simp only [chainLock, relock, inRange_one, noLocks] at held
  split at held
  · rename_i here
    obtain ⟨rfl, rfl⟩ := here
    have low : HASH_OFF ≤ chainSlot h := by simp [chainSlot]
    simp [rank, low, chainSlot_lt lt]
  · cases held

/-- Under the lock of a chain every lock that ranks last may be requested. -/
theorem mayLock_chainLock (lt : h < NHASH_DEF) {fd : Fd} {start len : Nat}
    (last : ∀ b, inRange start len b → rank fd b = 1)
    : MayLock (chainLock h kind) fd start len := by
  intro fd' b' b held inside
  rw [chainLock_rank lt held, last b inside]
  exact Nat.zero_lt_one

/-- With the lock of a chain, the free list may be locked. -/
theorem mayLock_free (lt : h < NHASH_DEF) : MayLock (chainLock h kind) .idx FREE_OFF 1 :=
  mayLock_chainLock lt fun b inside => by rw [inRange_one.mp inside]; decide

/-- With the lock of a chain, the data file may be locked. -/
theorem mayLock_dat (lt : h < NHASH_DEF) : MayLock (chainLock h kind) .dat 0 0 :=
  mayLock_chainLock lt fun _ _ => rfl

/-- With the lock of a chain, the records may be locked. -/
theorem mayLock_tail (lt : h < NHASH_DEF) : MayLock (chainLock h kind) .idx RECS_OFF 0 :=
  mayLock_chainLock lt fun b inside => by
    have high := inside.1
    simp only [rank]
    rw [if_neg (by omega)]

-----------------------------------------------------------------------------------------
-- Calls
-----------------------------------------------------------------------------------------

section Calls

variable {Q : α → Locks → Prop} {fd : Fd}

/-- `err_dump` ends the process. -/
theorem orderly_errDump {message : String} : Orderly opens (errDump message) Q T := trivial

/-- `err_quit` ends the process. -/
theorem orderly_errQuit {message : String} : Orderly opens (errQuit message) Q T := trivial

/-- `open` takes no lock. -/
theorem orderly_open {oflag : Oflag} {k : Int → M α} (may : opens)
    (rest : ∀ r, Orderly opens (k r) Q T)
    : Orderly opens ((sysOpen fd oflag).bind k) Q T :=
  ⟨may, rest⟩

/-- `lseek` takes no lock. -/
theorem orderly_lseek {offset : Int} {whence : Whence} {k : Int → M α}
    (rest : ∀ r, Orderly opens (k r) Q T)
    : Orderly opens ((lseek fd offset whence).bind k) Q T :=
  ⟨trivial, rest⟩

/-- `read` takes no lock. -/
theorem orderly_read {n : Nat} {k : List Byte → M α} (rest : ∀ r, Orderly opens (k r) Q T)
    : Orderly opens ((read fd n).bind k) Q T :=
  ⟨trivial, rest⟩

/-- `write` takes no lock. -/
theorem orderly_write {bytes : List Byte} {k : Int → M α} (rest : ∀ r, Orderly opens (k r) Q T)
    : Orderly opens ((write fd bytes).bind k) Q T := by
  by_cases small : bytes.length ≤ INT_MAX
  · rw [write_small small]
    exact ⟨trivial, rest⟩
  · rw [write_refused small]
    exact rest (-1)

/-- `fstat` takes no lock. -/
theorem orderly_fstat {k : Nat → M α} (rest : ∀ r, Orderly opens (k r) Q T)
    : Orderly opens ((fstat fd).bind k) Q T :=
  ⟨trivial, rest⟩

/-- A write lock that the order allows. -/
theorem orderly_writewLock {start len : Nat} {k : Int → M α} (may : MayLock T fd start len)
    (rest : ∀ r, Orderly opens (k r) Q (relock T fd start len (some .wr)))
    : Orderly opens ((writewLock fd start len).bind k) Q T :=
  ⟨may, rest⟩

/-- A read lock that the order allows. -/
theorem orderly_readwLock {start len : Nat} {k : Int → M α} (may : MayLock T fd start len)
    (rest : ∀ r, Orderly opens (k r) Q (relock T fd start len (some .rd)))
    : Orderly opens ((readwLock fd start len).bind k) Q T :=
  ⟨may, rest⟩

/-- A lock is given up. -/
theorem orderly_unLock {start len : Nat} {k : Int → M α}
    (rest : ∀ r, Orderly opens (k r) Q (relock T fd start len none))
    : Orderly opens ((unLock fd start len).bind k) Q T :=
  ⟨trivial, rest⟩

/-- `close` gives up the locks on the file. -/
theorem orderly_close {k : Int → M α} (rest : ∀ r, Orderly opens (k r) Q (relock T fd 0 0 none))
    : Orderly opens ((sysClose fd).bind k) Q T :=
  ⟨trivial, rest⟩

end Calls

/-- A handle with the same chain and the same number of chains. -/
structure SameChain (db db' : DB) : Prop where
  chainoff : db'.chainoff = db.chainoff
  nhash : db'.nhash = db.nhash
  hashoff : db'.hashoff = db.hashoff

/-- The chain stays the same through two steps. -/
theorem SameChain.trans {db'' : DB} (h : SameChain db db') (h' : SameChain db' db'')
    : SameChain db db'' :=
  ⟨h'.chainoff.trans h.chainoff, h'.nhash.trans h.nhash, h'.hashoff.trans h.hashoff⟩

/-- A handle of the same chain may be used. -/
theorem SameChain.good (h : SameChain db db') (good : Good db) : Good db' :=
  ⟨h.nhash.trans good.nhash, h.hashoff.trans good.hashoff⟩

/-- `_db_readptr` takes no lock. -/
theorem orderly_readptr {offset : Int} {Q : Int → Locks → Prop} (rest : ∀ v, Q v T)
    : Orderly opens (dbReadptr offset) Q T := by
  simp only [dbReadptr, Prog.bind_eq, Prog.pure_eq, errDump_bind]
  refine orderly_lseek fun off => ?_
  split
  · exact orderly_errDump
  refine orderly_read fun bytes => ?_
  split
  · exact orderly_errDump
  exact rest _

/-- The checks on the text of a record take no lock. -/
theorem orderly_parseIdxbuf {idxbuf : List Byte} {Q : Int × DB → Locks → Prop}
    (rest : ∀ v db', SameChain db db' → Q (v, db') T)
    : Orderly opens (parseIdxbuf db idxbuf) Q T := by
  unfold parseIdxbuf
  split
  · exact orderly_errDump
  split
  · exact orderly_errDump
  split
  · exact orderly_errDump
  split
  · exact orderly_errDump
  split
  · exact orderly_errDump
  exact rest _ _ ⟨rfl, rfl, rfl⟩

/-- `_db_readidx` takes no lock. -/
theorem orderly_readidx {offset : Int} {Q : Int × DB → Locks → Prop}
    (rest : ∀ v db', SameChain db db' → Q (v, db') T)
    : Orderly opens (dbReadidx db offset) Q T := by
  simp only [dbReadidx, Prog.bind_eq, Prog.pure_eq, errDump_bind]
  refine orderly_lseek fun off => ?_
  split
  · exact orderly_errDump
  refine orderly_read fun head => ?_
  split
  · split
    · exact rest _ _ ⟨rfl, rfl, rfl⟩
    · exact orderly_errDump
  split
  · exact orderly_errDump
  refine orderly_read fun body => ?_
  split
  · exact orderly_errDump
  split
  · exact orderly_errDump
  exact orderly_parseIdxbuf fun v db' same =>
    rest v db' ⟨same.chainoff, same.nhash, same.hashoff⟩

/-- `_db_readdat` takes no lock. -/
theorem orderly_readdat {Q : List Byte × DB → Locks → Prop}
    (rest : ∀ bytes db', SameChain db db' → Q (bytes, db') T)
    : Orderly opens (dbReaddat db) Q T := by
  simp only [dbReaddat, Prog.bind_eq, Prog.pure_eq, errDump_bind]
  refine orderly_lseek fun off => ?_
  split
  · exact orderly_errDump
  refine orderly_read fun bytes => ?_
  split
  · exact orderly_errDump
  split
  · exact orderly_errDump
  exact rest _ _ ⟨rfl, rfl, rfl⟩

/-- `_db_writeptr` takes no lock. -/
theorem orderly_writeptr {offset v : Int} {Q : Unit → Locks → Prop} (rest : Q () T)
    : Orderly opens (dbWriteptr offset v) Q T := by
  simp only [dbWriteptr, Prog.bind_eq, Prog.pure_eq, errDump_bind, errQuit_bind]
  split
  · exact orderly_errQuit
  refine orderly_lseek fun off => ?_
  split
  · exact orderly_errDump
  refine orderly_write fun n => ?_
  split
  · exact orderly_errDump
  exact rest

-----------------------------------------------------------------------------------------
-- Helpers that lock
-----------------------------------------------------------------------------------------

/-- A lock that was just taken is given up: the locks are those of before. -/
theorem relock_chainLock_dat : relock (relock (chainLock h kind) .dat 0 0 (some .wr)) .dat 0 0 none
    = chainLock h kind :=
  relock_undo fun b _ => chainLock_dat h kind b

/-- Locking and unlocking the records leaves the lock of the chain. -/
theorem relock_chainLock_tail (lt : h < NHASH_DEF)
    : relock (relock (chainLock h kind) .idx RECS_OFF 0 (some .wr)) .idx RECS_OFF 0 none
      = chainLock h kind :=
  relock_undo fun _ inside => chainLock_tail lt kind inside.1

/-- Locking and unlocking the free list leaves the lock of the chain. -/
theorem relock_chainLock_free
    : relock (relock (chainLock h kind) .idx FREE_OFF 1 (some .wr)) .idx FREE_OFF 1 none
      = chainLock h kind :=
  relock_undo fun b inside => by rw [inRange_one.mp inside]; exact chainLock_free h kind

/-- `_db_writedat` over old data takes no lock. -/
theorem orderly_writedat_set {data : List Byte} {offset : Int} {Q : DB → Locks → Prop}
    (rest : ∀ db', SameChain db db' → Q db' T)
    : Orderly opens (dbWritedat db data offset .set) Q T := by
  simp only [dbWritedat, Prog.bind_eq, Prog.pure_eq, errDump_bind, reduceCtorEq, if_false]
  refine orderly_lseek fun off => ?_
  split
  · exact orderly_errDump
  refine orderly_write fun n => ?_
  split
  · exact orderly_errDump
  exact rest _ ⟨rfl, rfl, rfl⟩

/-- `_db_writedat` at the end locks the data file and unlocks it. -/
theorem orderly_writedat_end (lt : h < NHASH_DEF) {data : List Byte} {offset : Int}
    {Q : DB → Locks → Prop} (rest : ∀ db', SameChain db db' → Q db' (chainLock h kind))
    : Orderly opens (dbWritedat db data offset .end) Q (chainLock h kind) := by
  simp only [dbWritedat, Prog.bind_eq, Prog.pure_eq, errDump_bind, if_true]
  refine orderly_writewLock (mayLock_dat lt) fun rc => ?_
  split
  · exact orderly_errDump
  refine orderly_lseek fun off => ?_
  split
  · exact orderly_errDump
  refine orderly_write fun n => ?_
  split
  · exact orderly_errDump
  refine orderly_unLock fun rc' => ?_
  rw [relock_chainLock_dat]
  split
  · exact orderly_errDump
  exact rest _ ⟨rfl, rfl, rfl⟩

/-- `_db_writeidx` over an old record takes no lock. -/
theorem orderly_writeidx_set {key : List Byte} {offset v : Int} {Q : DB → Locks → Prop}
    (rest : ∀ db', SameChain db db' → Q db' T)
    : Orderly opens (dbWriteidx db key offset .set v) Q T := by
  simp only [dbWriteidx, Prog.bind_eq, Prog.pure_eq, errDump_bind, errQuit_bind, reduceCtorEq,
    if_false]
  split
  · exact orderly_errQuit
  split
  · exact orderly_errDump
  refine orderly_lseek fun off => ?_
  split
  · exact orderly_errDump
  refine orderly_write fun n => ?_
  split
  · exact orderly_errDump
  exact rest _ ⟨rfl, rfl, rfl⟩

/-- `_db_writeidx` at the end locks the records and unlocks them. -/
theorem orderly_writeidx_end (lt : h < NHASH_DEF) (good : Good db) {key : List Byte}
    {offset v : Int} {Q : DB → Locks → Prop}
    (rest : ∀ db', SameChain db db' → Q db' (chainLock h kind))
    : Orderly opens (dbWriteidx db key offset .end v) Q (chainLock h kind) := by
  have tail : (db.nhash + 1) * PTR_SZ + 1 = RECS_OFF := by rw [good.nhash]; rfl
  simp only [dbWriteidx, Prog.bind_eq, Prog.pure_eq, errDump_bind, errQuit_bind, if_true, tail]
  split
  · exact orderly_errQuit
  split
  · exact orderly_errDump
  refine orderly_writewLock (mayLock_tail lt) fun rc => ?_
  split
  · exact orderly_errDump
  refine orderly_lseek fun off => ?_
  split
  · exact orderly_errDump
  refine orderly_write fun n => ?_
  split
  · exact orderly_errDump
  refine orderly_unLock fun rc' => ?_
  rw [relock_chainLock_tail lt]
  split
  · exact orderly_errDump
  exact rest _ ⟨rfl, rfl, rfl⟩

-----------------------------------------------------------------------------------------
-- Searches
-----------------------------------------------------------------------------------------

/-- The walk along a chain takes no lock. -/
theorem orderly_findLoop {key : List Byte} {offset : Int} {Q : Int × DB → Locks → Prop}
    (rest : ∀ v db', SameChain db db' → Q (v, db') T)
    : Orderly opens (findLoop key (offset, db)) Q T := by
  refine ⟨fun x T' => SameChain db x.2 ∧ T' = T, ⟨⟨rfl, rfl, rfl⟩, rfl⟩, ?_⟩
  rintro ⟨offset', db'⟩ _ ⟨same, rfl⟩
  dsimp only
  split
  · exact rest _ _ same
  simp only [Prog.bind_eq, Prog.pure_eq]
  refine Follows.bind (orderly_readidx fun v db'' same' => ?_)
  dsimp only
  split
  · exact rest _ _ (same.trans same')
  · exact ⟨same.trans ⟨same'.chainoff, same'.nhash, same'.hashoff⟩, rfl⟩

/-- `_db_find_and_lock` leaves the lock of the chain. -/
theorem orderly_findAndLock {key : List Byte} {writelock : Bool}
    {Q : Int × DB → Locks → Prop} (good : Good db)
    (rest : ∀ rc db', Good db' → db'.chainoff = chainSlot (hash key)
      → Q (rc, db') (chainLock (hash key) (findKind writelock)))
    : Orderly opens (dbFindAndLock db key writelock) Q noLocks := by
  have slot : dbHash db.nhash key * PTR_SZ + db.hashoff = chainSlot (hash key) := by
    rw [good.nhash, good.hashoff]
    rfl
  simp only [dbFindAndLock, Prog.bind_eq, Prog.pure_eq, errDump_bind, slot]
  have search : Orderly opens
      ((dbReadptr (chainSlot (hash key))).bind fun offset =>
        (findLoop key
          (offset,
            { db with
              chainoff := (chainSlot (hash key) : Int)
              ptroff := (chainSlot (hash key) : Int) })).bind fun x =>
          .ret (if x.1 = 0 then -1 else 0, x.2))
      Q (chainLock (hash key) (findKind writelock)) := by
    refine Follows.bind (orderly_readptr fun offset => ?_)
    refine Follows.bind (orderly_findLoop fun v db' same => ?_)
    exact rest _ _ ⟨same.nhash.trans good.nhash, same.hashoff.trans good.hashoff⟩ same.chainoff
  cases writelock with
  | true =>
      rw [if_pos rfl]
      refine orderly_writewLock (mayLock_noLocks _ _ _) fun rc => ?_
      split
      · exact orderly_errDump
      exact search
  | false =>
      rw [if_neg (by decide)]
      refine orderly_readwLock (mayLock_noLocks _ _ _) fun rc => ?_
      split
      · exact orderly_errDump
      exact search

/-- The walk along the free list takes no lock. -/
theorem orderly_freeLoop {keylen datlen : Nat} {offset save : Int}
    {Q : Int × Int × DB → Locks → Prop}
    (rest : ∀ v w db', SameChain db db' → Q (v, w, db') T)
    : Orderly opens (freeLoop keylen datlen (offset, save, db)) Q T := by
  refine ⟨fun x T' => SameChain db x.2.2 ∧ T' = T, ⟨⟨rfl, rfl, rfl⟩, rfl⟩, ?_⟩
  rintro ⟨offset', save', db'⟩ _ ⟨same, rfl⟩
  dsimp only
  split
  · exact rest _ _ _ same
  simp only [Prog.bind_eq, Prog.pure_eq]
  refine Follows.bind (orderly_readidx fun v db'' same' => ?_)
  dsimp only
  split
  · exact rest _ _ _ (same.trans same')
  · exact ⟨same.trans same', rfl⟩

/-- `_db_findfree` locks the free list and unlocks it. -/
theorem orderly_findfree (lt : h < NHASH_DEF) {keylen datlen : Int}
    {Q : Int × DB → Locks → Prop}
    (rest : ∀ rc db', SameChain db db' → Q (rc, db') (chainLock h kind))
    : Orderly opens (dbFindfree db keylen datlen) Q (chainLock h kind) := by
  simp only [dbFindfree, Prog.bind_eq, Prog.pure_eq, errDump_bind]
  refine orderly_writewLock (mayLock_free lt) fun rc => ?_
  split
  · exact orderly_errDump
  refine Follows.bind (orderly_readptr fun offset => ?_)
  refine Follows.bind (orderly_freeLoop fun v w db' same => ?_)
  have unlock : ∀ result : Int, Orderly opens
      ((unLock .idx FREE_OFF 1).bind fun rc =>
        if rc < 0 then errDump "_db_findfree: un_lock error" else .ret (result, db')) Q
      (relock (chainLock h kind) .idx FREE_OFF 1 (some .wr)) := by
    intro result
    refine orderly_unLock fun rc' => ?_
    rw [relock_chainLock_free]
    split
    · exact orderly_errDump
    exact rest _ _ same
  dsimp only
  split
  · exact Follows.bind (orderly_writeptr (unlock _))
  · exact unlock _

/-- `_db_dodelete` locks the free list and unlocks it. -/
theorem orderly_dodelete (lt : h < NHASH_DEF) {Q : DB → Locks → Prop}
    (rest : ∀ db', SameChain db db' → Q db' (chainLock h kind))
    : Orderly opens (dbDodelete db) Q (chainLock h kind) := by
  simp only [dbDodelete, Prog.bind_eq, Prog.pure_eq, errDump_bind]
  refine orderly_writewLock (mayLock_free lt) fun rc => ?_
  split
  · exact orderly_errDump
  refine Follows.bind (orderly_writedat_set fun db₁ same₁ => ?_)
  refine Follows.bind (orderly_readptr fun freeptr => ?_)
  refine Follows.bind (orderly_writeidx_set fun db₂ same₂ => ?_)
  refine Follows.bind (orderly_writeptr ?_)
  refine Follows.bind (orderly_writeptr ?_)
  refine orderly_unLock fun rc' => ?_
  rw [relock_chainLock_free]
  split
  · exact orderly_errDump
  have same := same₁.trans same₂
  exact rest _ ⟨same.chainoff, same.nhash, same.hashoff⟩

/-- The loop of `db_nextrec` takes no lock. -/
theorem orderly_scanLoop {Q : Option (List Byte) × DB → Locks → Prop}
    (rest : ∀ key db', SameChain db db' → Q (key, db') T)
    : Orderly opens (scanLoop db) Q T := by
  refine ⟨fun db' T' => SameChain db db' ∧ T' = T, ⟨⟨rfl, rfl, rfl⟩, rfl⟩, ?_⟩
  rintro db' _ ⟨same, rfl⟩
  simp only [Prog.bind_eq, Prog.pure_eq]
  refine Follows.bind (orderly_readidx fun v db'' same' => ?_)
  dsimp only
  split
  · exact rest _ _ (same.trans same')
  split
  · exact ⟨same.trans same', rfl⟩
  · exact rest _ _ (same.trans same')

-----------------------------------------------------------------------------------------
-- The operations
-----------------------------------------------------------------------------------------

/-- The end of an operation: its chain is unlocked, and nothing is held any more. -/
theorem orderly_unlock_chain {x : α} {message : String} {Q : α → Locks → Prop}
    (chainoff : db.chainoff = chainSlot h) (rest : Q x noLocks)
    : Orderly opens
        ((unLock .idx db.chainoff.toNat 1).bind fun rc =>
          if rc < 0 then errDump message else .ret x) Q (chainLock h kind) := by
  rw [chainoff, Int.toNat_natCast]
  refine orderly_unLock fun rc => ?_
  rw [chainLock_undo]
  split
  · exact orderly_errDump
  exact rest

/-- `db_fetch` gives up its locks. -/
theorem orderly_fetch {key : List Byte} {Q : Option (List Byte) × DB → Locks → Prop}
    (good : Good db) (rest : ∀ ptr db', Good db' → Q (ptr, db') noLocks)
    : Orderly opens (dbFetch db key) Q noLocks := by
  simp only [dbFetch, Prog.bind_eq, Prog.pure_eq, errDump_bind]
  refine Follows.bind (orderly_findAndLock good fun rc db₁ good₁ chainoff => ?_)
  dsimp only
  split
  · exact orderly_unlock_chain chainoff (rest _ _ ⟨good₁.nhash, good₁.hashoff⟩)
  · refine Follows.bind (orderly_readdat fun bytes db₂ same => ?_)
    have good₂ := same.good good₁
    exact orderly_unlock_chain (same.chainoff.trans chainoff)
      (rest _ _ ⟨good₂.nhash, good₂.hashoff⟩)

/-- `db_delete` gives up its locks. -/
theorem orderly_delete {key : List Byte} {Q : Int × DB → Locks → Prop}
    (good : Good db) (rest : ∀ rc db', Good db' → Q (rc, db') noLocks)
    : Orderly opens (dbDelete db key) Q noLocks := by
  simp only [dbDelete, Prog.bind_eq, Prog.pure_eq, errDump_bind]
  refine Follows.bind (orderly_findAndLock good fun rc db₁ good₁ chainoff => ?_)
  dsimp only
  split
  · refine Follows.bind (orderly_dodelete (hash_lt key) fun db₂ same => ?_)
    have good₂ := same.good good₁
    exact orderly_unlock_chain (same.chainoff.trans chainoff)
      (rest _ _ ⟨good₂.nhash, good₂.hashoff⟩)
  · exact orderly_unlock_chain chainoff (rest _ _ ⟨good₁.nhash, good₁.hashoff⟩)

/-- The three writes of an append, under the lock of the chain. -/
theorem orderly_append (lt : h < NHASH_DEF) (good : Good db) {key data : List Byte}
    {ptrval : Int} {f : DB → DB} {Q : DB → Locks → Prop}
    (rest : ∀ db', SameChain db db' → Q (f db') (chainLock h kind))
    : Orderly opens
        ((dbWritedat db data 0 .end).bind fun db =>
          (dbWriteidx db key 0 .end ptrval).bind fun db =>
            (dbWriteptr db.chainoff db.idxoff).bind fun _ => .ret (f db)) Q (chainLock h kind) := by
  refine Follows.bind (orderly_writedat_end lt fun db₁ same₁ => ?_)
  refine Follows.bind (orderly_writeidx_end lt (same₁.good good) fun db₂ same₂ => ?_)
  exact Follows.bind (orderly_writeptr (rest db₂ (same₁.trans same₂)))

/-- The insertion paths of `db_store` leave the lock of the chain. -/
theorem orderly_storeNew (lt : h < NHASH_DEF) (good : Good db) {key data : List Byte}
    {keylen datlen : Int}
    {Q : DB → Locks → Prop}
    (rest : ∀ db', SameChain db db' → Q db' (chainLock h kind))
    : Orderly opens (dbStoreNew db key data keylen datlen) Q (chainLock h kind) := by
  simp only [dbStoreNew, Prog.bind_eq, Prog.pure_eq]
  refine Follows.bind (orderly_readptr fun ptrval => ?_)
  refine Follows.bind (orderly_findfree lt fun rc db₁ same₁ => ?_)
  dsimp only
  split
  · refine orderly_append lt (same₁.good good) fun db₂ same₂ => ?_
    have same := same₁.trans same₂
    exact rest _ ⟨same.chainoff, same.nhash, same.hashoff⟩
  · refine Follows.bind (orderly_writedat_set fun db₂ same₂ => ?_)
    refine Follows.bind (orderly_writeidx_set fun db₃ same₃ => ?_)
    refine Follows.bind (orderly_writeptr ?_)
    have same := (same₁.trans same₂).trans same₃
    exact rest _ ⟨same.chainoff, same.nhash, same.hashoff⟩

/-- The replacement paths of `db_store` leave the lock of the chain. -/
theorem orderly_storeOld (lt : h < NHASH_DEF) (good : Good db) {key data : List Byte}
    {datlen : Int} {Q : DB → Locks → Prop}
    (rest : ∀ db', SameChain db db' → Q db' (chainLock h kind))
    : Orderly opens (dbStoreOld db key data datlen) Q (chainLock h kind) := by
  simp only [dbStoreOld, Prog.bind_eq, Prog.pure_eq]
  split
  · refine Follows.bind (orderly_dodelete lt fun db₁ same₁ => ?_)
    refine Follows.bind (orderly_readptr fun ptrval => ?_)
    refine orderly_append lt (same₁.good good) fun db₂ same₂ => ?_
    have same := same₁.trans same₂
    exact rest _ ⟨same.chainoff, same.nhash, same.hashoff⟩
  · refine Follows.bind (orderly_writedat_set fun db₁ same => ?_)
    exact rest _ ⟨same.chainoff, same.nhash, same.hashoff⟩

/-- `db_store` gives up its locks. -/
theorem orderly_store {key data : List Byte} {flag : Int} {Q : Int × DB → Locks → Prop}
    (good : Good db) (rest : ∀ rc db', Good db' → Q (rc, db') noLocks)
    : Orderly opens (dbStore db key data flag) Q noLocks := by
  simp only [dbStore, Prog.bind_eq, Prog.pure_eq, errDump_bind]
  generalize toInt (data.length + 1 : Nat) = datlen
  split
  · exact rest _ _ ⟨good.nhash, good.hashoff⟩
  split
  · exact orderly_errDump
  refine Follows.bind (orderly_findAndLock good fun found db₁ good₁ chainoff => ?_)
  have finish : ∀ (rc : Int) db₂, SameChain db₁ db₂ → Orderly opens
      ((unLock .idx db₂.chainoff.toNat 1).bind fun unlocked =>
        if unlocked < 0 then errDump "db_store: un_lock error" else .ret (rc, db₂)) Q
      (chainLock (hash key) .wr) := fun rc db₂ same =>
    orderly_unlock_chain (same.chainoff.trans chainoff) (rest _ _ (same.good good₁))
  dsimp only
  split
  · split
    · exact finish _ _ ⟨rfl, rfl, rfl⟩
    · exact Follows.bind (orderly_storeNew (hash_lt key) good₁ fun db₂ same => finish _ _ same)
  split
  · exact finish _ _ ⟨rfl, rfl, rfl⟩
  · exact Follows.bind (orderly_storeOld (hash_lt key) good₁ fun db₂ same => finish _ _ same)

/-- `db_rewind` takes no lock. -/
theorem orderly_rewind {Q : DB → Locks → Prop} (rest : ∀ db', SameChain db db' → Q db' T)
    : Orderly opens (dbRewind db) Q T := by
  simp only [dbRewind, Prog.bind_eq, Prog.pure_eq, errDump_bind]
  refine orderly_lseek fun off => ?_
  split
  · exact orderly_errDump
  exact rest _ ⟨rfl, rfl, rfl⟩

/-- `db_nextrec` gives up its locks. -/
theorem orderly_nextrec {Q : Option (List Byte × List Byte) × DB → Locks → Prop}
    (good : Good db) (rest : ∀ found db', Good db' → Q (found, db') noLocks)
    : Orderly opens (dbNextrec db) Q noLocks := by
  simp only [dbNextrec, Prog.bind_eq, Prog.pure_eq, errDump_bind]
  refine orderly_readwLock (mayLock_noLocks _ _ _) fun rc => ?_
  split
  · exact orderly_errDump
  have unlock : ∀ found db', Good db' → Orderly opens
      ((unLock .idx FREE_OFF 1).bind fun rc =>
        if rc < 0 then errDump "db_nextrec: un_lock error" else .ret (found, db')) Q
      (relock noLocks .idx FREE_OFF 1 (some .rd)) := by
    intro found db' good'
    refine orderly_unLock fun rc' => ?_
    rw [relock_undo fun _ _ => rfl]
    split
    · exact orderly_errDump
    exact rest _ _ good'
  refine Follows.bind (orderly_scanLoop fun key db₁ same => ?_)
  cases key with
  | none => exact unlock _ _ (same.good good)
  | some key =>
      refine Follows.bind (orderly_readdat fun bytes db₂ same₂ => ?_)
      have good₂ := (same.trans same₂).good good
      exact unlock _ _ ⟨good₂.nhash, good₂.hashoff⟩

end Minions.Db
