import Mathlib.Data.List.TakeWhile
import Minions.Db.Deadlock
import Minions.Db.Reading

/-! Sessions of all calls, with every key.
The answers of a session tell which bindings it has made: a store that returns 0 binds its key,
a deletion that returns 0 unbinds it, and truncation unbinds all. The files stand for these
accounts unless a key with a separator has been bound, or the index file has been truncated
without being made anew.
-/

namespace Minions.Db

open Minions.Data Minions.Logic

variable {p : Pid} {α : Type} {l l' : Offsets} {d d' : Disk} {db : DB} {m : Bindings}

-----------------------------------------------------------------------------------------
-- Programs that only read
-----------------------------------------------------------------------------------------

/-- Every call but those that change a file. -/
def readOnly : Protocol Sys Unit where
  may c _ :=
    match c with
    | .open _ _ => False
    | .write _ _ => False
    | _ => True
  next _ _ := ()

/-- The program makes no call that changes a file, and returns values that satisfy `Q`. -/
abbrev OnlyReads (prog : M α) (Q : α → Prop) : Prop := Follows readOnly prog (fun a _ => Q a) ()

/-- A program that only reads leaves the files alone. -/
theorem OnlyReads.ends {prog : M α} {Q : α → Prop} {a : α} (reads : OnlyReads prog Q)
    (ends : Yields p prog l d (.done a) l' d')
    : Q a ∧ d'.idx = d.idx ∧ d'.dat = d.dat := by
  have step : ∀ c (w : Offsets × Disk), readOnly.may c () → w.2.idx = d.idx ∧ w.2.dat = d.dat
      → () = () ∧ (kernel.alone p c w).2.2.idx = d.idx ∧ (kernel.alone p c w).2.2.dat = d.dat := by
    intro c w may keeps
    refine ⟨rfl, ?_⟩
    cases c with
    | «open» fd oflag => exact may.elim
    | write fd bytes => exact may.elim
    | lseek fd offset whence =>
        simp only [Machine.alone, kernel, execCall]
        split <;> exact keeps
    | _ => exact keeps
  exact Follows.ends (fun _ => ()) (fun w => w.2.idx = d.idx ∧ w.2.dat = d.dat) step reads
    ⟨rfl, rfl⟩ ends

/-- `lseek` changes no file. -/
theorem onlyReads_lseek {fd : Fd} {offset : Int} {whence : Whence} {k : Int → M α} {Q : α → Prop}
    (rest : ∀ r, OnlyReads (k r) Q)
    : OnlyReads ((lseek fd offset whence).bind k) Q :=
  ⟨trivial, rest⟩

/-- `read` changes no file. -/
theorem onlyReads_read {fd : Fd} {n : Nat} {k : List Byte → M α} {Q : α → Prop}
    (rest : ∀ r, OnlyReads (k r) Q)
    : OnlyReads ((read fd n).bind k) Q :=
  ⟨trivial, rest⟩

/-- A write lock changes no file. -/
theorem onlyReads_writewLock {fd : Fd} {start len : Nat} {k : Int → M α} {Q : α → Prop}
    (rest : ∀ r, OnlyReads (k r) Q)
    : OnlyReads ((writewLock fd start len).bind k) Q :=
  ⟨trivial, rest⟩

/-- A read lock changes no file. -/
theorem onlyReads_readwLock {fd : Fd} {start len : Nat} {k : Int → M α} {Q : α → Prop}
    (rest : ∀ r, OnlyReads (k r) Q)
    : OnlyReads ((readwLock fd start len).bind k) Q :=
  ⟨trivial, rest⟩

/-- Unlocking changes no file. -/
theorem onlyReads_unLock {fd : Fd} {start len : Nat} {k : Int → M α} {Q : α → Prop}
    (rest : ∀ r, OnlyReads (k r) Q)
    : OnlyReads ((unLock fd start len).bind k) Q :=
  ⟨trivial, rest⟩

/-- `_db_readptr` only reads. -/
theorem onlyReads_readptr (offset : Int) : OnlyReads (dbReadptr offset) fun _ => True := by
  simp only [dbReadptr, Prog.bind_eq, Prog.pure_eq, errDump_bind]
  refine onlyReads_lseek fun off => ?_
  split
  · trivial
  refine onlyReads_read fun bytes => ?_
  split
  · trivial
  · trivial

/-- The text before the first separator has none. -/
theorem takeWhile_ne_sep (text : List Byte) : SEP ∉ text.takeWhile (· ≠ SEP) := by
  intro member
  have bad := List.mem_takeWhile_imp member
  simp at bad

/-- The key that `_db_readidx` leaves in `idxbuf` is free of the separator. -/
theorem onlyReads_parseIdxbuf (db : DB) (text : List Byte)
    : OnlyReads (parseIdxbuf db text) fun r => SEP ∉ r.2.idxbuf := by
  unfold parseIdxbuf
  split
  · trivial
  rename_i key rest first
  have clean : SEP ∉ key := by
    unfold splitSep at first
    split at first
    · cases first
    · obtain ⟨rfl, -⟩ := Prod.mk.inj (Option.some.inj first)
      exact takeWhile_ne_sep text
  split
  · trivial
  split
  · trivial
  split
  · trivial
  split
  · trivial
  exact clean

/-- Only at the end of the file, where a scan stops, is no key read. -/
theorem onlyReads_readidx (db : DB) (offset : Int)
    : OnlyReads (dbReadidx db offset) fun r =>
        (offset = 0 ∧ r.1 = -1) ∨ SEP ∉ r.2.idxbuf := by
  simp only [dbReadidx, Prog.bind_eq, Prog.pure_eq, errDump_bind]
  refine onlyReads_lseek fun off => ?_
  split
  · trivial
  refine onlyReads_read fun head => ?_
  split
  · split
    · rename_i last
      exact Or.inl ⟨last.2, rfl⟩
    · trivial
  split
  · trivial
  refine onlyReads_read fun body => ?_
  split
  · trivial
  split
  · trivial
  exact (onlyReads_parseIdxbuf _ _).mono fun r _ => Or.inr

/-- `_db_readdat` only reads. -/
theorem onlyReads_readdat (db : DB) : OnlyReads (dbReaddat db) fun _ => True := by
  simp only [dbReaddat, Prog.bind_eq, Prog.pure_eq, errDump_bind]
  refine onlyReads_lseek fun off => ?_
  split
  · trivial
  refine onlyReads_read fun bytes => ?_
  split
  · trivial
  split
  · trivial
  · trivial

/-- The walk along a chain only reads, and never finds a key with a separator. -/
theorem onlyReads_findLoop (key : List Byte) (start : Int × DB)
    : OnlyReads (findLoop key start) fun r => SEP ∈ key → r.1 = 0 := by
  rw [findLoop_eq]
  refine ⟨fun _ _ => True, trivial, ?_⟩
  rintro ⟨offset, db⟩ _ _
  rw [findRound]
  split
  · rename_i last
    exact fun _ => last
  rename_i nonzero
  refine Follows.bind ((onlyReads_readidx db offset).mono fun r _ clean => ?_)
  dsimp only
  split
  · rename_i same
    intro sep
    rcases clean with ⟨zero, -⟩ | clean
    · exact absurd zero nonzero
    · exact absurd (same ▸ sep) clean
  · trivial

/-- `_db_find_and_lock` only reads, and never finds a key with a separator. -/
theorem onlyReads_findAndLock (db : DB) (key : List Byte) (writelock : Bool)
    : OnlyReads (dbFindAndLock db key writelock) fun r => SEP ∈ key → r.1 = -1 := by
  have search : ∀ slot : Int, ∀ db' : DB,
      OnlyReads
        ((dbReadptr slot).bind fun offset =>
          (findLoop key (offset, db')).bind fun x =>
            Prog.ret ((if x.1 = 0 then -1 else 0 : Int), x.2))
        fun r => SEP ∈ key → r.1 = -1 := by
    intro slot db'
    refine Follows.bind ((onlyReads_readptr slot).mono fun offset _ _ => ?_)
    refine Follows.bind ((onlyReads_findLoop key _).mono fun x _ zero => ?_)
    exact fun sep => if_pos (zero sep)
  simp only [dbFindAndLock, Prog.bind_eq, Prog.pure_eq, errDump_bind]
  split
  · refine onlyReads_writewLock fun rc => ?_
    split
    · trivial
    exact search _ _
  · refine onlyReads_readwLock fun rc => ?_
    split
    · trivial
    exact search _ _

/-- A scan returns no key with a separator, and no blank key. -/
theorem onlyReads_scanLoop (db : DB)
    : OnlyReads (scanLoop db) fun r => ∀ key, r.1 = some key → SEP ∉ key ∧ ¬ Blank key := by
  rw [scanLoop_eq]
  refine ⟨fun _ _ => True, trivial, fun db _ _ => ?_⟩
  rw [scanRound]
  refine Follows.bind ((onlyReads_readidx db 0).mono fun r _ clean => ?_)
  dsimp only
  split
  · exact nofun
  rename_i more
  split
  · trivial
  rename_i nonblank
  intro key same
  obtain rfl := Option.some.inj same
  refine ⟨clean.resolve_left fun last => more ?_, fun blank => nonblank (all_blank.mpr blank)⟩
  rw [last.2]
  decide

/-- `db_nextrec` only reads, and returns no key with a separator and no blank key. -/
theorem onlyReads_nextrec (db : DB)
    : OnlyReads (dbNextrec db) fun r => ∀ k v, r.1 = some (k, v) → SEP ∉ k ∧ ¬ Blank k := by
  simp only [dbNextrec, Prog.bind_eq, Prog.pure_eq, errDump_bind]
  refine onlyReads_readwLock fun rc => ?_
  split
  · trivial
  have unlock : ∀ found : Option (List Byte × List Byte), ∀ db : DB,
      (∀ k v, found = some (k, v) → SEP ∉ k ∧ ¬ Blank k)
      → OnlyReads
          ((unLock .idx FREE_OFF 1).bind fun rc =>
            if rc < 0 then errDump "db_nextrec: un_lock error" else Prog.ret (found, db))
          fun r => ∀ k v, r.1 = some (k, v) → SEP ∉ k ∧ ¬ Blank k := by
    intro found db plain
    refine onlyReads_unLock fun rc => ?_
    split
    · trivial
    exact plain
  refine Follows.bind ((onlyReads_scanLoop db).mono fun r _ plain => ?_)
  rcases r with ⟨key, db⟩
  cases key with
  | none => exact unlock none _ fun _ _ same => by cases same
  | some key =>
      refine Follows.bind ((onlyReads_readdat _).mono fun x _ _ => unlock _ _ ?_)
      intro k v same
      cases same
      exact plain key rfl

/-- The end of an operation on one chain. -/
theorem onlyReads_unlock {x : α} {a : Nat} {message : String} {Q : α → Prop} (rest : Q x)
    : OnlyReads
        ((unLock .idx a 1).bind fun rc => if rc < 0 then errDump message else Prog.ret x) Q := by
  refine onlyReads_unLock fun rc => ?_
  split
  · trivial
  exact rest

/-- `db_fetch` only reads, and never finds a key with a separator. -/
theorem onlyReads_fetch (db : DB) (key : List Byte)
    : OnlyReads (dbFetch db key) fun r => SEP ∈ key → r.1 = none := by
  simp only [dbFetch, Prog.bind_eq, Prog.pure_eq, errDump_bind]
  refine Follows.bind ((onlyReads_findAndLock db key false).mono fun r _ absent => ?_)
  dsimp only
  split
  · exact onlyReads_unlock fun _ => rfl
  · rename_i found
    refine Follows.bind ((onlyReads_readdat r.2).mono fun x _ _ => onlyReads_unlock fun sep => ?_)
    rw [absent sep] at found
    exact absurd (by decide) found

/-- `db_delete` of a key with a separator only reads and reports an error. -/
theorem onlyReads_delete {key : List Byte} (sep : SEP ∈ key) (db : DB)
    : OnlyReads (dbDelete db key) fun r => r.1 = -1 := by
  simp only [dbDelete, Prog.bind_eq, Prog.pure_eq, errDump_bind]
  refine Follows.bind ((onlyReads_findAndLock db key true).mono fun r _ absent => ?_)
  dsimp only
  rw [absent sep, if_neg (by decide)]
  exact onlyReads_unlock rfl

/-- The end of an operation on one chain returns its value. -/
theorem yields_unlock {a : Nat} {message : String} (x : α) (d : Disk)
    : Yields p
        ((unLock .idx a 1).bind fun rc => if rc < 0 then errDump message else Prog.ret x) l d
        (.done x) l (d.setLocks p .idx a 1 none) :=
  yields_unLock (yields_ret x)

/-- A store with a separator in its key returns 0, or has not touched the files. -/
theorem store_separator {key data : List Byte} {flag rc : Int} {db' : DB} (sep : SEP ∈ key)
    (ends : Yields p (dbStore db key data flag) l d (.done (rc, db')) l' d')
    : rc = 0 ∨ d'.idx = d.idx ∧ d'.dat = d.dat := by
  simp only [dbStore, Prog.bind_eq, Prog.pure_eq, errDump_bind] at ends
  split at ends
  · cases (ends.unique (yields_ret _)).2
    exact Or.inr ⟨rfl, rfl⟩
  split at ends
  · cases (ends.unique (yields_errDump _)).1
  obtain ⟨⟨found, db₁⟩, ⟨l₁, d₁⟩, find, rest⟩ := ends.of_bind
  obtain ⟨absent, files⟩ := (onlyReads_findAndLock db key true).ends find
  dsimp only at absent rest
  rw [absent sep, if_pos (by decide)] at rest
  split at rest
  · cases (rest.unique (yields_unlock _ _)).2
    exact Or.inr files
  · obtain ⟨db₂, ⟨l₂, d₂⟩, -, rest⟩ := rest.of_bind
    cases (rest.unique (yields_unlock _ _)).1
    exact Or.inl rfl

-----------------------------------------------------------------------------------------
-- What every call leaves, whatever the files hold
-----------------------------------------------------------------------------------------

/-- A call that returns leaves no locks, and a handle that may be used. -/
theorem opCode_rest {op : Op} {mem : Option DB} {r : Res × Option DB} (opened : Opened mem)
    (free : ∀ q, d.locks q = noLocks) (ends : Yields p (opCode op mem) l d (.done r) l' d')
    : Opened r.2 ∧ ∀ q, d'.locks q = noLocks := by
  have follows := orderly_opCode op mem opened
  rw [← free p] at follows
  have step : ∀ c (w : Offsets × Disk), (lockProtocol True).may c (w.2.locks p)
      → (∀ q, q ≠ p → w.2.locks q = noLocks)
      → (kernel.alone p c w).2.2.locks p = (lockProtocol True).next c (w.2.locks p)
        ∧ ∀ q, q ≠ p → (kernel.alone p c w).2.2.locks q = noLocks := by
    intro c w _ others
    refine ⟨library_obeys.own p c w.1 w.2, fun q ne => ?_⟩
    exact (library_obeys.other p q c w.1 w.2 ne).trans (others q ne)
  obtain ⟨⟨opened', own⟩, others⟩ := Follows.ends (fun w : Offsets × Disk => w.2.locks p)
    (fun w => ∀ q, q ≠ p → w.2.locks q = noLocks) step follows (fun q _ => free q) ends
  refine ⟨opened', fun q => ?_⟩
  by_cases same : q = p
  · rw [same, own, free p]
  · exact others q same

/-- A program removes no file and gives no locks to others. -/
theorem Yields.solo {prog : M α} {out : Prog.Outcome Fatal α} (ends : Yields p prog l d out l' d')
    (solo : Solo p d)
    : Solo p d' :=
  Prog.Ends.keeps (K := fun w : Offsets × Disk => Solo p w.2) ends (fun c _ solo => solo.exec c)
    solo

/-- Files and locks that are the same make the same disk. -/
theorem disk_same (free : ∀ q, d.locks q = noLocks) (free' : ∀ q, d'.locks q = noLocks)
    (idx : d'.idx = d.idx) (dat : d'.dat = d.dat)
    : d' = d := by
  have locks : d'.locks = d.locks := funext fun q => (free' q).trans (free q).symm
  cases d
  cases d'
  simp_all

/-- `db_open` without both flags does not make a header. -/
theorem open_bare {creat trunc : Bool} {mem : Option DB} {r : Res × Option DB}
    (file : d.idx.data = [] ∨ trunc = true ∧ d.idx.present = true)
    (partly : ¬ (creat = true ∧ trunc = true))
    (ends : Yields p (opCode (.open creat trunc) mem) l d (.done r) l' d')
    : d'.idx.data = [] := by
  obtain ⟨bound, ends⟩ := ends
  have run := ends bound (Nat.le_refl bound)
  obtain ⟨⟨idx, idat⟩, ⟨dat, ddat⟩, locks⟩ := d
  have both : (creat && trunc) = false := by simpa using partly
  cases creat <;> cases trunc <;> cases idx <;> cases dat <;>
    simp [opCode, dbOpen, dbFree, dbRewind, dbAlloc, sysOpen, sysClose, lseek, Prog.run, kernel,
      Machine.alone, execCall, File.opens, Prog.perform, Disk.file, Disk.setFile, Offsets.move,
      seekTarget, NHASH_DEF, PTR_SZ] at run both file
  all_goals
    obtain ⟨-, -, rfl⟩ := run
    first | exact file | rfl

/-- A search in an index file without contents cannot read the pointer of the chain. -/
theorem findAndLock_bare (file : d.idx.data = []) (good : Good db) (key : List Byte)
    (writelock : Bool)
    : Yields p (dbFindAndLock db key writelock) l d
        (.stopped (.errDump "_db_readptr: read error of ptr field"))
        (l.move .idx (chainSlot (hash key)))
        (d.setLocks p .idx (chainSlot (hash key)) 1 (some (findKind writelock))) := by
  have slot : dbHash db.nhash key * PTR_SZ + db.hashoff = chainSlot (hash key) := by
    rw [good.nhash, good.hashoff]
    rfl
  have pointer : ∀ kind, Yields p (dbReadptr (chainSlot (hash key))) l
      (d.setLocks p .idx (chainSlot (hash key)) 1 kind)
      (.stopped (.errDump "_db_readptr: read error of ptr field"))
      (l.move .idx (chainSlot (hash key))) (d.setLocks p .idx (chainSlot (hash key)) 1 kind) := by
    intro kind
    simp only [dbReadptr, Prog.bind_eq, Prog.pure_eq, errDump_bind]
    refine yields_lseek (n := chainSlot (hash key)) rfl ?_
    rw [if_neg (by omega)]
    refine yields_read (b := []) ?_ ?_
    · have empty : ((d.setLocks p .idx (chainSlot (hash key)) 1 kind).file .idx).data = [] := file
      rw [empty]
      exact pread_end (Nat.zero_le _)
    rw [if_pos (by decide)]
    exact yields_errDump _
  simp only [dbFindAndLock, Prog.bind_eq, Prog.pure_eq, errDump_bind, slot]
  cases writelock with
  | true =>
      refine yields_writewLock ?_
      rw [if_neg (by decide)]
      exact (pointer _).bind_stopped
  | false =>
      refine yields_readwLock ?_
      rw [if_neg (by decide)]
      exact (pointer _).bind_stopped

/-- `db_fetch` does not return from an index file without contents. -/
theorem fetch_bare {key : List Byte} {r : Option (List Byte) × DB} (file : d.idx.data = [])
    (good : Good db)
    : ¬ Yields p (dbFetch db key) l d (.done r) l' d' := by
  intro ends
  simp only [dbFetch, Prog.bind_eq, Prog.pure_eq, errDump_bind] at ends
  cases (ends.unique (findAndLock_bare file good key false).bind_stopped).1

/-- `db_delete` does not return from an index file without contents. -/
theorem delete_bare {key : List Byte} {r : Int × DB} (file : d.idx.data = []) (good : Good db)
    : ¬ Yields p (dbDelete db key) l d (.done r) l' d' := by
  intro ends
  simp only [dbDelete, Prog.bind_eq, Prog.pure_eq, errDump_bind] at ends
  cases (ends.unique (findAndLock_bare file good key true).bind_stopped).1

/-- Only an invalid flag keeps `db_store` from the abort. -/
theorem store_bare {key data : List Byte} {flag rc : Int} {db' : DB} (file : d.idx.data = [])
    (good : Good db) (ends : Yields p (dbStore db key data flag) l d (.done (rc, db')) l' d')
    : rc = -1 ∧ d' = d := by
  simp only [dbStore, Prog.bind_eq, Prog.pure_eq, errDump_bind] at ends
  split at ends
  · obtain ⟨value, disk⟩ := ends.unique (yields_ret _)
    cases value
    cases disk
    exact ⟨rfl, rfl⟩
  split at ends
  · cases (ends.unique (yields_errDump _)).1
  · cases (ends.unique (findAndLock_bare file good key true).bind_stopped).1

/-- The bindings after a call that was answered with `res`, from those before. -/
def Bindings.credit (m : Bindings) : Op → Res → Bindings
  | .store key data _, res => if res = .code 0 then m.set key.bytes (some data) else m
  | .delete key, res => if res = .code 0 then m.set key.bytes none else m
  | .open _ trunc, _ => if trunc then .empty else m
  | _, _ => m

/-- The bindings after a session with its answers. -/
def Bindings.credits (m : Bindings) : List Op → List Res → Bindings
  | op :: ops, res :: rest => (m.credit op res).credits ops rest
  | _, _ => m

/-- The files between the calls of one process, and the bindings that its calls have made. -/
inductive Rests (p : Pid) (d : Disk) (m : Bindings) : Prop
  | sound (between : Between p d m)
  | bare (free : ∀ q, d.locks q = noLocks) (file : d.idx.data = []) (empty : m = .empty)
  | spoiled {key : List Byte} (free : ∀ q, d.locks q = noLocks) (solo : Solo p d)
    (sep : SEP ∈ key) (bound : (m key).isSome)

/-- Between calls no process holds a lock. -/
theorem Between.free (h : Between p d m) (q : Pid) : d.locks q = noLocks := by
  by_cases same : q = p
  · rw [same, h.unlocked]
  · exact h.solo.others q same

/-- Between calls no process holds a lock. -/
theorem Rests.free (rests : Rests p d m) (q : Pid) : d.locks q = noLocks := by
  cases rests with
  | sound between => exact between.free q
  | bare free _ _ => exact free q
  | spoiled free _ _ _ => exact free q

-----------------------------------------------------------------------------------------
-- One call
-----------------------------------------------------------------------------------------

section Step

variable {op : Op} {db' : DB} {mem mem' : Option DB} {res : Res}

/-- A call on a null handle does not return. -/
theorem opCode_null (notOpen : ∀ creat trunc, op ≠ .open creat trunc)
    : ¬ Yields p (opCode op none) l d (.done (res, mem')) l' d' := by
  intro ends
  have stops : Yields p (opCode op none) l d (.stopped .nullHandle) l d := by
    cases op with
    | «open» creat trunc => exact absurd rfl (notOpen creat trunc)
    | _ => exact .abort _ _
  cases (ends.unique stops).1

/-- A call that only reads leaves the disk as it is. -/
theorem OnlyReads.same {prog : M α} {Q : α → Prop} {f : α → Res × Option DB}
    (reads : OnlyReads prog Q) (free : ∀ q, d.locks q = noLocks)
    (free' : ∀ q, d'.locks q = noLocks)
    (ends : Yields p (prog.bind fun a => .ret (f a)) l d (.done (res, mem')) l' d')
    : d' = d ∧ ∃ a, Q a ∧ res = (f a).1 := by
  obtain ⟨a, ⟨l₁, d₁⟩, first, last⟩ := ends.of_bind
  obtain ⟨value, disk⟩ := last.unique (.ret (f a) _)
  obtain ⟨-, rfl⟩ := Prod.mk.inj disk
  obtain ⟨holds, idx, dat⟩ := reads.ends first
  refine ⟨disk_same free free' idx dat, a, holds, ?_⟩
  exact congrArg Prod.fst (Prog.Outcome.done.inj value)

/-- The files of a call that changes none of them, and the accounts after it. -/
theorem Rests.steady (rests : Rests p d m) (same : d' = d) (credit : m.credit op res = m)
    : Rests p d' (m.credit op res) := by
  rw [same, credit]
  exact rests

/-- Closing, rewinding and scanning leave the files as they are, whatever they hold. -/
theorem Rests.still (rests : Rests p d m) (opened : Opened mem)
    (quiet : op = .close ∨ op = .rewind ∨ op = .nextrec)
    (ends : Yields p (opCode op mem) l d (.done (res, mem')) l' d')
    : Rests p d' (m.credit op res) := by
  have free' := (opCode_rest opened rests.free ends).2
  cases mem with
  | none => exact absurd ends (opCode_null (by rcases quiet with rfl | rfl | rfl <;> nofun))
  | some db =>
      rcases quiet with rfl | rfl | rfl
      · obtain ⟨-, disk⟩ := ends.unique (close_alone (rests.free p))
        exact rests.steady (Prod.mk.inj disk).2 rfl
      · obtain ⟨-, disk⟩ := ends.unique ((yields_rewind (opened db rfl)).bind (yields_ret _))
        exact rests.steady (Prod.mk.inj disk).2 rfl
      · exact rests.steady ((onlyReads_nextrec db).same rests.free free' ends).1 rfl

/-- Keys with a separator are not found, whatever the files hold. -/
theorem Rests.separator (rests : Rests p d m) (opened : Opened mem) {key : CString}
    (sep : SEP ∈ key.bytes) (reads : op = .fetch key ∨ op = .delete key)
    (ends : Yields p (opCode op mem) l d (.done (res, mem')) l' d')
    : Rests p d' (m.credit op res) := by
  have free' := (opCode_rest opened rests.free ends).2
  cases mem with
  | none => exact absurd ends (opCode_null (by rcases reads with rfl | rfl <;> nofun))
  | some db =>
      rcases reads with rfl | rfl
      · exact rests.steady ((onlyReads_fetch db _).same rests.free free' ends).1 rfl
      · obtain ⟨same, r, absent, rfl⟩ := (onlyReads_delete sep db).same rests.free free' ends
        refine rests.steady same ?_
        simp [Bindings.credit, absent]

/-- A store that is refused binds nothing. -/
theorem credit_code {rc : Int} {key data : CString} {flag : Int} (refused : rc ≠ 0)
    : m.credit (.store key data flag) (.code rc) = m := by
  simp [Bindings.credit, refused]

/-- The accounts follow the map through a store. -/
theorem credit_store (m : Bindings) (key data : CString) (flag : Int)
    : m.credit (.store key data flag) (m.store key data flag).1 = (m.store key data flag).2 := by
  unfold Bindings.store
  split
  · simp [Bindings.credit]
  · cases m key.bytes <;> simp only <;> split <;> simp [Bindings.credit]

/-- The accounts follow the map through a deletion. -/
theorem credit_delete (m : Bindings) (key : CString)
    : m.credit (.delete key) (m.delete key).1 = (m.delete key).2 := by
  unfold Bindings.delete
  cases m key.bytes <;> simp [Bindings.credit]

/-- The map of a call that answers as a map is the one on its account. -/
theorem answers_credit {m' : Bindings} (ok : MayInvoke (fun _ => False) p op)
    (answers : Answers op m res m')
    : m.credit op res = m' := by
  cases op with
  | fetch key => exact answers.2.symm
  | store key data flag =>
      have pair : (res, m') = m.store key data flag := answers
      have same := credit_store m key data flag
      rwa [← pair] at same
  | delete key =>
      have pair : (res, m') = m.delete key := answers
      have same := credit_delete m key
      rwa [← pair] at same
  | rewind => exact ok.elim
  | nextrec => exact ok.elim
  | «open» creat trunc => exact ok.elim
  | close => exact ok.elim

/-- Opening the database, in any state. -/
theorem Rests.open {creat trunc : Bool} (rests : Rests p d m) (opened : Opened mem)
    (ends : Yields p (opCode (.open creat trunc) mem) l d (.done (res, mem')) l' d')
    : Rests p d' (m.credit (.open creat trunc) res) := by
  have free' := (opCode_rest opened rests.free ends).2
  by_cases both : creat = true ∧ trunc = true
  · obtain ⟨rfl, rfl⟩ := both
    obtain ⟨-, disk⟩ := ends.unique (open_create mem)
    rw [(Prod.mk.inj disk).2]
    exact .sound (between_create (rests.free p) fun q _ => rests.free q)
  have truncated : d.idx.present = true → trunc = true
      → Rests p d' (m.credit (.open creat trunc) res) := by
    rintro present rfl
    exact .bare free' (open_bare (.inr ⟨rfl, present⟩) both ends) rfl
  cases rests with
  | sound between =>
      cases trunc with
      | true => exact truncated between.solo.idx rfl
      | false =>
          obtain ⟨-, disk⟩ := ends.unique (open_existing between.solo creat mem)
          rw [(Prod.mk.inj disk).2]
          exact .sound between
  | bare free file empty =>
      refine .bare free' (open_bare (.inl file) both ends) ?_
      simp [Bindings.credit, empty]
  | spoiled free solo sep bound =>
      cases trunc with
      | true => exact truncated solo.idx rfl
      | false => exact .spoiled free' (Yields.solo ends solo) sep bound

/-- A call with a key free of the separator, on files that represent the accounts. -/
theorem Rests.call (between : Between p d m) (opened : Opened mem)
    (ok : MayInvoke (fun _ => False) p op)
    (ends : Yields p (opCode op mem) l d (.done (res, mem')) l' d')
    : Rests p d' (m.credit op res) := by
  cases mem with
  | none => exact absurd ends (opCode_null (by rintro creat trunc rfl; exact ok))
  | some db =>
      obtain ⟨out, l₁, d₁, ends', post⟩ := call_alone between (opened db rfl) ok
      obtain ⟨rfl, disk⟩ := ends.unique ends'
      obtain ⟨db', m', -, -, between', answers⟩ := post
      rw [(Prod.mk.inj disk).2, answers_credit ok answers]
      exact .sound between'

/-- A call with a key, on files without contents. -/
theorem Rests.keyed_bare (free : ∀ q, d.locks q = noLocks) (file : d.idx.data = [])
    (empty : m = .empty) (opened : Opened mem) {key : CString}
    (keyed : op = .fetch key ∨ op = .delete key ∨ ∃ data flag, op = .store key data flag)
    (ends : Yields p (opCode op mem) l d (.done (res, mem')) l' d')
    : Rests p d' (m.credit op res) := by
  cases mem with
  | none => exact absurd ends (opCode_null (by rcases keyed with rfl | rfl | ⟨_, _, rfl⟩ <;> nofun))
  | some db =>
      rcases keyed with rfl | rfl | ⟨data, flag, rfl⟩
      · obtain ⟨r, w, first, -⟩ := ends.of_bind
        exact absurd first (fetch_bare file (opened db rfl))
      · obtain ⟨r, w, first, -⟩ := ends.of_bind
        exact absurd first (delete_bare file (opened db rfl))
      · obtain ⟨⟨rc, db₁⟩, ⟨l₁, d₁⟩, first, last⟩ := ends.of_bind
        obtain ⟨rfl, rfl⟩ := store_bare file (opened db rfl) first
        obtain ⟨value, disk⟩ := last.unique (yields_ret _)
        cases value
        cases disk
        exact Rests.steady (.bare free file empty) rfl (credit_code (by decide))

/-- A call with a key, on files that have been spoiled: the binding that spoiled them stays. -/
theorem Rests.keyed_spoiled {bad : List Byte} (free : ∀ q, d.locks q = noLocks) (solo : Solo p d)
    (sep : SEP ∈ bad) (bound : (m bad).isSome) (opened : Opened mem) {key : CString}
    (keyed : op = .fetch key ∨ op = .delete key ∧ SEP ∉ key.bytes
      ∨ ∃ data flag, op = .store key data flag)
    (ends : Yields p (opCode op mem) l d (.done (res, mem')) l' d')
    : Rests p d' (m.credit op res) := by
  refine .spoiled (opCode_rest opened free ends).2 (Yields.solo ends solo) sep ?_
  rcases keyed with rfl | ⟨rfl, clean⟩ | ⟨data, flag, rfl⟩
  · exact bound
  · simp only [Bindings.credit]
    have apart : bad ≠ key.bytes := fun same => clean (same ▸ sep)
    split
    · rw [Bindings.set_other _ _ apart]
      exact bound
    · exact bound
  · simp only [Bindings.credit]
    split
    · by_cases same : bad = key.bytes
      · rw [same, Bindings.set_self]
        rfl
      · rw [Bindings.set_other _ _ same]
        exact bound
    · exact bound

/-- A store with a separator in its key, on files that represent the accounts. -/
theorem Rests.store_separator (between : Between p d m) (opened : Opened mem)
    {key data : CString} {flag : Int} (sep : SEP ∈ key.bytes)
    (ends : Yields p (opCode (.store key data flag) mem) l d (.done (res, mem')) l' d')
    : Rests p d' (m.credit (.store key data flag) res) := by
  have free' := (opCode_rest opened between.free ends).2
  have solo' := Yields.solo ends between.solo
  cases mem with
  | none => exact absurd ends (opCode_null nofun)
  | some db =>
      obtain ⟨⟨rc, db₁⟩, ⟨l₁, d₁⟩, first, last⟩ := ends.of_bind
      obtain ⟨value, disk⟩ := last.unique (yields_ret _)
      cases value
      cases disk
      by_cases accepted : rc = 0
      · refine .spoiled free' solo' sep ?_
        simp [Bindings.credit, accepted]
      · rcases Db.store_separator sep first with rfl | ⟨idx, dat⟩
        · exact absurd rfl accepted
        · exact Rests.steady (.sound between) (disk_same between.free free' idx dat)
            (credit_code accepted)

/-- Every call that returns keeps the files and the accounts of the process in step. -/
theorem Rests.step (rests : Rests p d m) (opened : Opened mem)
    (ends : Yields p (opCode op mem) l d (.done (res, mem')) l' d')
    : Rests p d' (m.credit op res) := by
  cases op with
  | «open» creat trunc => exact rests.open opened ends
  | close => exact rests.still opened (.inl rfl) ends
  | rewind => exact rests.still opened (.inr (.inl rfl)) ends
  | nextrec => exact rests.still opened (.inr (.inr rfl)) ends
  | fetch key =>
      by_cases sep : SEP ∈ key.bytes
      · exact rests.separator opened sep (.inl rfl) ends
      · cases rests with
        | sound between => exact Rests.call between opened ⟨not_false, sep⟩ ends
        | bare free file empty => exact Rests.keyed_bare free file empty opened (.inl rfl) ends
        | spoiled free solo bad bound =>
            exact Rests.keyed_spoiled free solo bad bound opened (.inl rfl) ends
  | delete key =>
      by_cases sep : SEP ∈ key.bytes
      · exact rests.separator opened sep (.inr rfl) ends
      · cases rests with
        | sound between => exact Rests.call between opened ⟨not_false, sep⟩ ends
        | bare free file empty =>
            exact Rests.keyed_bare free file empty opened (.inr (.inl rfl)) ends
        | spoiled free solo bad bound =>
            exact Rests.keyed_spoiled free solo bad bound opened (.inr (.inl ⟨rfl, sep⟩)) ends
  | store key data flag =>
      cases rests with
      | sound between =>
          by_cases sep : SEP ∈ key.bytes
          · exact Rests.store_separator between opened sep ends
          · exact Rests.call between opened ⟨not_false, sep⟩ ends
      | bare free file empty =>
          exact Rests.keyed_bare free file empty opened (.inr (.inr ⟨data, flag, rfl⟩)) ends
      | spoiled free solo bad bound =>
          exact Rests.keyed_spoiled free solo bad bound opened (.inr (.inr ⟨data, flag, rfl⟩)) ends

end Step

-----------------------------------------------------------------------------------------
-- Whole sessions
-----------------------------------------------------------------------------------------

/-- A session is its first call and the rest. -/
theorem yields_session_cons {op : Op} {ops : List Op} {mem mem' mem'' : Option DB} {res : Res}
    {rs : List Res} {l'' : Offsets} {d'' : Disk}
    (first : Yields p (opCode op mem) l d (.done (res, mem')) l' d')
    (rest : Yields p (session ops mem') l' d' (.done (rs, mem'')) l'' d'')
    : Yields p (session (op :: ops) mem) l d (.done (res :: rs, mem'')) l'' d'' :=
  first.bind (rest.bind (yields_ret _))

/-- The parts of a session that has returned. -/
theorem session_cons_inv {op : Op} {ops : List Op} {mem mem' : Option DB} {rs : List Res}
    (ends : Yields p (session (op :: ops) mem) l d (.done (rs, mem')) l' d')
    : ∃ res rs₁ mem₁ l₁ d₁, rs = res :: rs₁
        ∧ Yields p (opCode op mem) l d (.done (res, mem₁)) l₁ d₁
        ∧ Yields p (session ops mem₁) l₁ d₁ (.done (rs₁, mem')) l' d' := by
  obtain ⟨⟨res, mem₁⟩, ⟨l₁, d₁⟩, first, rest⟩ := ends.of_bind
  obtain ⟨⟨rs₁, mem₂⟩, ⟨l₂, d₂⟩, later, last⟩ := rest.of_bind
  obtain ⟨value, disk⟩ := last.unique (yields_ret _)
  cases value
  cases disk
  exact ⟨res, rs₁, mem₁, l₁, d₁, rfl, first, later⟩

/-- Two sessions one after the other. -/
theorem yields_session_append {ops ops' : List Op} {mem mem' mem'' : Option DB}
    {rs rs' : List Res} {l'' : Offsets} {d'' : Disk}
    (first : Yields p (session ops mem) l d (.done (rs, mem')) l' d')
    (rest : Yields p (session ops' mem') l' d' (.done (rs', mem'')) l'' d'')
    : Yields p (session (ops ++ ops') mem) l d (.done (rs ++ rs', mem'')) l'' d'' := by
  induction ops generalizing mem rs l d with
  | nil =>
      obtain ⟨value, disk⟩ := first.unique (yields_ret _)
      cases value
      cases disk
      exact rest
  | cons op ops ih =>
      obtain ⟨res, rs₁, mem₁, l₁, d₁, rfl, head, tail⟩ := session_cons_inv first
      exact yields_session_cons head (ih tail)

/-- Every session that returns keeps the files and the accounts in step. Witness: induction on
the calls.
-/
theorem Rests.session {ops : List Op} {mem mem' : Option DB} {rs : List Res}
    (rests : Rests p d m) (opened : Opened mem)
    (ends : Yields p (session ops mem) l d (.done (rs, mem')) l' d')
    : Rests p d' (m.credits ops rs) ∧ Opened mem' := by
  induction ops generalizing mem rs l d m with
  | nil =>
      obtain ⟨value, disk⟩ := ends.unique (yields_ret _)
      cases value
      cases disk
      exact ⟨rests, opened⟩
  | cons op ops ih =>
      obtain ⟨res, rs₁, mem₁, l₁, d₁, rfl, first, later⟩ := session_cons_inv ends
      exact ih (rests.step opened first) (opCode_rest opened rests.free first).1 later

/-- A state in which process `p` can be between two calls, alone on its files from before they
held a database: its offsets, the disk, its handle, and the bindings its calls have made.
-/
def Reached (p : Pid) (l : Offsets) (d : Disk) (mem : Option DB) (m : Bindings) : Prop :=
  ∃ l₀ d₀ ops rs,
    (∀ q, d₀.locks q = noLocks) ∧ d₀.idx.data = []
    ∧ Yields p (session ops none) l₀ d₀ (.done (rs, mem)) l d
    ∧ m = Bindings.empty.credits ops rs

/-- What every state that can be reached is like. -/
theorem Reached.rests {mem : Option DB} (reached : Reached p l d mem m)
    : Rests p d m ∧ Opened mem := by
  obtain ⟨l₀, d₀, ops, rs, free, file, ends, rfl⟩ := reached
  exact Rests.session (.bare free file rfl) (fun _ null => by cases null) ends

/-- Where no bound key has a separator the files represent the accounts, unless they have no
contents.
-/
theorem Reached.clean {mem : Option DB} (reached : Reached p l d mem m)
    (clean : ∀ key, (m key).isSome → SEP ∉ key)
    : Between p d m ∨ (∀ q, d.locks q = noLocks) ∧ d.idx.data = [] ∧ m = .empty := by
  cases reached.rests.1 with
  | sound between => exact Or.inl between
  | bare free file empty => exact Or.inr ⟨free, file, empty⟩
  | spoiled _ _ sep bound => exact absurd sep (clean _ bound)

/-- The index file of a database at rest holds at least its table. -/
theorem WellFormed.nonempty {idx dat : List Byte} {im : Image} {chain : Nat → List Nat}
    {free : List Nat} (wf : WellFormed idx dat im chain free)
    : idx ≠ [] := by
  rw [wf.idxFile]
  simp

/-- Where some key is bound, and none with a separator, the index file has contents. -/
theorem Reached.contents {mem : Option DB} (reached : Reached p l d mem m)
    (clean : ∀ key, (m key).isSome → SEP ∉ key) (bound : ∃ key, (m key).isSome)
    : d.idx.data ≠ [] := by
  rcases reached.clean clean with between | ⟨-, -, rfl⟩
  · obtain ⟨im, chain, free, wf, -⟩ := between.represents
    exact wf.nonempty
  · obtain ⟨key, bound⟩ := bound
    cases bound

end Minions.Db
