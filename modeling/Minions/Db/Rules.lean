import Minions.Db.Moves

/-! Proof rules for single system calls and for the functions of `db.c` that read or write
one field or one record. Each rule is stated for a call followed by the rest of a program.
-/

namespace Minions.Db

open Minions.Data Minions.Logic

variable {p : Pid} {ab : Prop} {α β : Type} {l : Offsets} {s : State}
  {Q : β → Offsets → State → Prop}

/-- Verified programs of the library. -/
abbrev Wp (p : Pid) (ab : Prop) (prog : M α) (Q : α → Offsets → State → Prop) (l : Offsets)
    (s : State)
    : Prop :=
  wp kernel discipline p ab prog Q l s

/-- A conditional distributes over what follows it. -/
theorem ite_bind {c : Prop} [Decidable c] (x y : M α) (f : α → M β)
    : (if c then x else y).bind f = if c then x.bind f else y.bind f := by
  split <;> rfl

attribute [simp] ite_bind

@[simp] theorem errDump_bind (message : String) (f : α → M β)
    : (errDump message).bind f = errDump message := rfl

@[simp] theorem errQuit_bind (message : String) (f : α → M β)
    : (errQuit message).bind f = errQuit message := rfl

/-- `err_dump`, where an abort is allowed. -/
theorem wp_errDump {message : String} (h : ab) : Wp p ab (errDump message) Q l s := h

/-- `err_quit`, where an abort is allowed. -/
theorem wp_errQuit {message : String} (h : ab) : Wp p ab (errQuit message) Q l s := h

@[simp] theorem Offsets.move_at (o : Offsets) (fd : Fd) (n : Nat) : (o.move fd n).at fd = n := by
  cases fd <;> rfl

@[simp] theorem Offsets.move_same (o : Offsets) (fd : Fd) : o.move fd (o.at fd) = o := by
  cases fd <;> rfl

@[simp] theorem Offsets.move_move (o : Offsets) (fd : Fd) (n m : Nat)
    : (o.move fd n).move fd m = o.move fd m := by
  cases fd <;> rfl

-----------------------------------------------------------------------------------------
-- Calls that read
-----------------------------------------------------------------------------------------

/-- A seek to an offset. -/
theorem wp_lseek_set {fd : Fd} {n : Nat} {k : Int → M β}
    (h : ∀ s', Rely p s s' → Inv s' → Wp p ab (k n) Q (l.move fd n) s')
    : Wp p ab ((lseek fd n .set).bind k) Q l s := by
  have exec : ∀ d, execCall p (.lseek fd n .set) l d = ((n : Int), l.move fd n, d) := by
    intro d
    simp only [execCall, seekTarget, Int.toNat_natCast]
    exact if_neg (by omega)
  refine wp_call_read (fun s' _ => ?_) (fun _ _ => trivial) (fun g => Effect.none p _ g)
    fun s' hr hi => ?_
  · exact congrArg (fun x => x.2.2) (exec s'.1)
  · have result := exec s'.1
    simp only [kernel, result]
    exact h s' hr hi

/-- A seek that stays. -/
theorem wp_lseek_cur {fd : Fd} {k : Int → M β}
    (h : ∀ s', Rely p s s' → Inv s' → Wp p ab (k (l.at fd)) Q l s')
    : Wp p ab ((lseek fd 0 .cur).bind k) Q l s := by
  have exec : ∀ d, execCall p (.lseek fd 0 .cur) l d = ((l.at fd : Int), l, d) := by
    intro d
    simp only [execCall, seekTarget, Int.add_zero, Int.toNat_natCast, Offsets.move_same]
    exact if_neg (by omega)
  refine wp_call_read (fun s' _ => ?_) (fun _ _ => trivial) (fun g => Effect.none p _ g)
    fun s' hr hi => ?_
  · exact congrArg (fun x => x.2.2) (exec s'.1)
  · have result := exec s'.1
    simp only [kernel, result]
    exact h s' hr hi

/-- A seek to the end of the file, wherever others have moved it. -/
theorem wp_lseek_end {fd : Fd} {k : Int → M β}
    (h : ∀ s', Rely p s s' → Inv s' → Wp p ab (k ((s'.1.file fd).data.length : Nat)) Q
      (l.move fd (s'.1.file fd).data.length) s')
    : Wp p ab ((lseek fd 0 .end).bind k) Q l s := by
  have exec : ∀ d, execCall p (.lseek fd 0 .end) l d
      = (((d.file fd).data.length : Int), l.move fd (d.file fd).data.length, d) := by
    intro d
    simp only [execCall, seekTarget, Int.add_zero, Int.toNat_natCast]
    exact if_neg (by omega)
  refine wp_call_read (fun s' _ => ?_) (fun _ _ => trivial) (fun g => Effect.none p _ g)
    fun s' hr hi => ?_
  · exact congrArg (fun x => x.2.2) (exec s'.1)
  · have result := exec s'.1
    simp only [kernel, result]
    exact h s' hr hi

/-- A read, after what others have written. -/
theorem wp_read {fd : Fd} {n : Nat} {k : List Byte → M β}
    (h : ∀ s', Rely p s s' → Inv s'
      → Wp p ab (k (pread (s'.1.file fd).data (l.at fd) n)) Q
          (l.move fd (l.at fd + (pread (s'.1.file fd).data (l.at fd) n).length)) s')
    : Wp p ab ((read fd n).bind k) Q l s :=
  wp_call_read (fun _ _ => rfl) (fun _ _ => trivial) (fun g => Effect.none p _ g) h

/-- The lists, the records and the regions do not depend on the progress of processes. -/
theorem ChainOk.setStat {g : Ghost} {h : Nat} (ok : ChainOk g h) (stat' : Pid → Status)
    : ChainOk { g with stat := stat' } h :=
  ⟨ok.linked, ok.content⟩

/-- The status of the processes does not matter to the lists. -/
theorem Members.setStat {g : Ghost} (ok : Members g) (stat' : Pid → Status)
    : Members { g with stat := stat' } :=
  ⟨ok.chain, ok.free⟩

/-- The status of the processes does not matter to the data file. -/
theorem Regions.setStat {g : Ghost} (ok : Regions g) (stat' : Pid → Status)
    : Regions { g with stat := stat' } :=
  ⟨ok.exists_, ok.unique, ok.named, ok.orphan⟩

/-- The status of the processes does not matter to the files. -/
theorem Inv.setStat (inv : Inv s) (stat' : Pid → Status)
    : Inv (s.1, { s.2 with stat := stat' }) :=
  ⟨inv.idx, inv.dat, inv.idxMax, inv.exclusive, inv.recOk, inv.members.setStat _,
    inv.regions.setStat _, fun lt unlocked => (inv.chainOk lt unlocked).setStat _, inv.freeOk⟩

/-- The progress of `p` is invisible to the others. -/
theorem rely_setStat {stat' : Pid → Status} (stats : ∀ q, q ≠ p → stat' q = s.2.stat q)
    {q : Pid} (ne : q ≠ p)
    : Rely q s (s.1, { s.2 with stat := stat' }) :=
  { Rely.refl q s with stat := stats q ne }

/-- A read at which the operation of `p` may take effect. -/
theorem wp_read_effect {fd : Fd} {n : Nat} {k : List Byte → M β}
    (h : ∀ s', Rely p s s' → Inv s'
      → ∃ stat', (∀ q, q ≠ p → stat' q = s'.2.stat q)
        ∧ Effect p (.read fd n) s'.2 { s'.2 with stat := stat' }
        ∧ Wp p ab (k (pread (s'.1.file fd).data (l.at fd) n)) Q
            (l.move fd (l.at fd + (pread (s'.1.file fd).data (l.at fd) n).length))
            (s'.1, { s'.2 with stat := stat' }))
    : Wp p ab ((read fd n).bind k) Q l s := by
  intro s' hr hi _
  obtain ⟨stat', stats, effect, rest⟩ := h s' hr hi
  exact ⟨trivial, _, hi.setStat stat', fun q ne => rely_setStat stats ne, effect, rest⟩

/-- A write that an `int` counts reaches the file. -/
theorem write_small {fd : Fd} {bytes : List Byte} (small : bytes.length ≤ INT_MAX)
    : write fd bytes = Prog.perform (S := Sys) (.write fd bytes) := if_pos small

/-- A longer one does not. -/
theorem write_refused {fd : Fd} {bytes : List Byte} (large : ¬ bytes.length ≤ INT_MAX)
    : write fd bytes = Prog.ret (-1 : Int) := if_neg large

/-- A write of the files of `s'` to those of the image of `g`. A write that fails goes on
with -1.
-/
theorem wp_write {fd : Fd} {bytes : List Byte} {k : Int → M β}
    (small : bytes.length ≤ INT_MAX)
    (may : ∀ s', Rely p s s' → Inv s' → MayWrite p s' fd (l.at fd) bytes.length)
    (kind : Unsettled (s.2.stat p) ∨ fd = .idx ∧ bytes.length = PTR_SZ)
    (fails : ∀ s', Rely p s s' → Inv s' → Wp p ab (k (-1)) Q l s')
    (h : ∀ s', Rely p s s' → Inv s' → l.at fd + bytes.length ≤ OFF_MAX
      → ∃ g, s'.1.setFile fd
            { s'.1.file fd with data := pwrite 0 (s'.1.file fd).data (l.at fd) bytes }
          = s'.1.put g.im
        ∧ Allowed p s' g
        ∧ Effect p (.write fd bytes) s'.2 g
        ∧ Wp p ab (k bytes.length) Q (l.move fd (l.at fd + bytes.length))
            (s'.1.put g.im, g))
    : Wp p ab ((write fd bytes).bind k) Q l s := by
  rw [write_small small]
  intro s' hr hi _
  have permitted : Permitted p (.write fd bytes) l s' :=
    ⟨may s' hr hi, by rw [hr.stat]; exact kind⟩
  by_cases room : l.at fd + bytes.length ≤ OFF_MAX
  · obtain ⟨g, files, allowed, effect, rest⟩ := h s' hr hi room
    have exec : execCall p (.write fd bytes) l s'.1
        = ((bytes.length : Int), l.move fd (l.at fd + bytes.length), s'.1.put g.im) := by
      rw [← files]
      exact if_pos room
    refine ⟨permitted, g, ?_⟩
    simp only [kernel, exec]
    exact ⟨allowed.1, allowed.2, effect, rest⟩
  · have exec : execCall p (.write fd bytes) l s'.1 = ((-1 : Int), l, s'.1) := by
      exact if_neg room
    refine ⟨permitted, s'.2, ?_⟩
    simp only [kernel, exec]
    exact ⟨hi, fun q _ => Rely.refl q s', Effect.none p _ _, fails s' hr hi⟩

/-- A write to the index file that leaves the files of an image. -/
theorem put_idx {d : Disk} {im im' : Image} {bytes : List Byte} {o : Nat}
    (idx : d.idx.data = im.idx) (dat : d.dat.data = im.dat) (same : im'.dat = im.dat)
    (write : pwrite 0 im.idx o bytes = im'.idx)
    : d.setFile .idx { d.file .idx with data := pwrite 0 (d.file .idx).data o bytes }
      = d.put im' := by
  simp only [Disk.setFile, Disk.file, Disk.put, idx, write, same, ← dat]

/-- A write to the data file that leaves the files of an image. -/
theorem put_dat {d : Disk} {im im' : Image} {bytes : List Byte} {o : Nat}
    (idx : d.idx.data = im.idx) (dat : d.dat.data = im.dat) (same : im'.idx = im.idx)
    (write : pwrite 0 im.dat o bytes = im'.dat)
    : d.setFile .dat { d.file .dat with data := pwrite 0 (d.file .dat).data o bytes }
      = d.put im' := by
  simp only [Disk.setFile, Disk.file, Disk.put, dat, write, same, ← idx]

-----------------------------------------------------------------------------------------
-- Locks
-----------------------------------------------------------------------------------------

@[simp] theorem setLocks_idx (d : Disk) (q : Pid) (fd : Fd) (a n : Nat) (k : Option LockKind)
    : (d.setLocks q fd a n k).idx = d.idx := rfl

@[simp] theorem setLocks_dat (d : Disk) (q : Pid) (fd : Fd) (a n : Nat) (k : Option LockKind)
    : (d.setLocks q fd a n k).dat = d.dat := rfl

/-- The locks of one process after a lock or unlock request. -/
def relock (T : Fd → Nat → Option LockKind) (fd : Fd) (start len : Nat)
    (kind : Option LockKind)
    : Fd → Nat → Option LockKind :=
  fun f b => if f = fd ∧ inRange start len b then kind else T f b

/-- The locks of the process itself. -/
theorem setLocks_self (d : Disk) (q : Pid) (fd : Fd) (a n : Nat) (k : Option LockKind)
    : (d.setLocks q fd a n k).locks q = relock (d.locks q) fd a n k := by
  funext f b
  simp [Disk.setLocks, relock]

/-- Unlocking what was just locked restores the locks of before. -/
theorem relock_undo {T : Fd → Nat → Option LockKind} {fd : Fd} {a n : Nat}
    {k : Option LockKind} (fresh : ∀ b, inRange a n b → T fd b = none)
    : relock (relock T fd a n k) fd a n none = T := by
  funext f b
  simp only [relock]
  split
  · rename_i here
    rw [here.1, fresh b here.2]
  · rfl

/-- The locks of the other processes. -/
theorem setLocks_other (d : Disk) {q q' : Pid} (fd : Fd) (a n : Nat) (k : Option LockKind)
    (ne : q' ≠ q)
    : (d.setLocks q fd a n k).locks q' = d.locks q' := by
  funext f b
  simp [Disk.setLocks, ne]

/-- A change of the locks and of the status of `p` is invisible to the others. -/
theorem rely_setLocks {fd : Fd} {a n : Nat} {k : Option LockKind} (stat' : Pid → Status)
    (stats : ∀ q, q ≠ p → stat' q = s.2.stat q) {q : Pid} (ne : q ≠ p)
    : Rely q s (s.1.setLocks p fd a n k, { s.2 with stat := stat' }) :=
  { Rely.refl q s with
    locks := setLocks_other s.1 fd a n k ne
    stat := stats q ne }

/-- Taking a lock on bytes that `p` does not hold keeps the invariant. -/
theorem inv_acquire {fd : Fd} {kind : LockKind} {a n : Nat} (stat' : Pid → Status)
    (inv : Inv s) (granted : s.1.grants p fd kind a n)
    (fresh : ∀ b, inRange a n b → s.1.locks p fd b = none)
    : Inv (s.1.setLocks p fd a n (some kind), { s.2 with stat := stat' }) := by
  -- Locks that were held for writing still are, and no write lock was lost.
  have keep : ∀ {q f b}, s.1.locks q f b = some .wr
      → (s.1.setLocks p fd a n (some kind)).locks q f b = some .wr := by
    intro q f b held
    simp only [Disk.setLocks]
    split
    · rename_i here
      obtain ⟨rfl, rfl, range⟩ := here
      simp [fresh b range] at held
    · exact held
  refine ⟨inv.idx, inv.dat, inv.idxMax, ?_, ?_, inv.members.setStat _, inv.regions.setStat _, ?_, ?_⟩
  · intro q q' f b ne held
    simp only [Disk.setLocks] at held ⊢
    split at held
    · rename_i here
      obtain ⟨rfl, rfl, range⟩ := here
      obtain rfl : kind = .wr := Option.some.inj held
      rw [if_neg (fun both => ne both.1.symm)]
      exact (granted q' b (Ne.symm ne) range).2 rfl
    · split
      · rename_i here
        obtain ⟨rfl, rfl, range⟩ := here
        exact absurd held (granted q b ne range).1
      · exact inv.exclusive ne held
  · intro o r found
    have ok := inv.recOk found
    simp only [RecOk] at ok ⊢
    cases owner : s.2.own o with
    | chain h => simpa only [owner, OwnerOk] using ok
    | free => simpa only [owner, OwnerOk] using ok
    | proc q =>
        simp only [owner, OwnerOk] at ok ⊢
        intro nonblank
        exact ⟨keep (ok nonblank).1, (ok nonblank).2.imp_right keep⟩
  · intro h lt unlocked
    exact (inv.chainOk lt fun q held => unlocked q (keep held)).setStat _
  · intro unlocked
    exact inv.freeOk fun q held => unlocked q (keep held)

/-- Giving up locks keeps the invariant when the lists they guarded are well formed and no
record of `p` depends on them.
-/
theorem inv_release {fd : Fd} {a n : Nat} (stat' : Pid → Status) (inv : Inv s)
    (chains : ∀ h, h < NHASH_DEF → HoldsW s p (chainSlot h) → fd = .idx
      → inRange a n (chainSlot h) → ChainOk s.2 h)
    (free : HoldsW s p FREE_OFF → fd = .idx → inRange a n FREE_OFF
      → Linked s.2.im.next FREE_OFF s.2.free)
    (records : ∀ o r, s.2.im.recAt o = some r → s.2.own o = .proc p
      → OwnerOk (s.1.setLocks p fd a n none).locks s.2.map r.key
          (s.2.im.chunkAt r.datoff) (.proc p))
    : Inv (s.1.setLocks p fd a n none, { s.2 with stat := stat' }) := by
  have back : ∀ {q f b}, (s.1.setLocks p fd a n none).locks q f b = some .wr
      → s.1.locks q f b = some .wr := by
    intro q f b held
    simp only [Disk.setLocks] at held
    split at held
    · cases held
    · exact held
  have lost : ∀ {q f b}, s.1.locks q f b = some .wr
      → (s.1.setLocks p fd a n none).locks q f b ≠ some .wr
      → q = p ∧ f = fd ∧ inRange a n b := by
    intro q f b held gone
    by_contra out
    exact gone (by simp only [Disk.setLocks, if_neg out, held])
  refine ⟨inv.idx, inv.dat, inv.idxMax, ?_, ?_, inv.members.setStat _, inv.regions.setStat _, ?_, ?_⟩
  · intro q q' f b ne held
    simp only [Disk.setLocks]
    split
    · rfl
    · exact inv.exclusive ne (back held)
  · intro o r found
    have ok := inv.recOk found
    simp only [RecOk] at ok ⊢
    cases owner : s.2.own o with
    | chain h => simpa only [owner, OwnerOk] using ok
    | free => simpa only [owner, OwnerOk] using ok
    | proc q =>
        by_cases mine : q = p
        · subst mine
          exact records o r found owner
        · simp only [owner, OwnerOk, setLocks_other s.1 fd a n none mine] at ok ⊢
          exact ok
  · intro h lt unlocked
    by_cases held : ∃ q, HoldsW s q (chainSlot h)
    · obtain ⟨q, held⟩ := held
      obtain ⟨rfl, file, range⟩ := lost held (unlocked q)
      exact (chains h lt held file.symm range).setStat _
    · exact (inv.chainOk lt fun q held' => held ⟨q, held'⟩).setStat _
  · intro unlocked
    by_cases held : ∃ q, HoldsW s q FREE_OFF
    · obtain ⟨q, held⟩ := held
      obtain ⟨rfl, file, range⟩ := lost held (unlocked q)
      exact free held file.symm range
    · exact inv.freeOk fun q held' => held ⟨q, held'⟩

/-- A lock, at which the operation of `p` may take effect. -/
theorem wp_lock {fd : Fd} {kind : LockKind} {a n : Nat} {k : Int → M β}
    (fresh : ∀ b, inRange a n b → s.1.locks p fd b = none)
    (h : ∀ s', Rely p s s' → Inv s' → s'.1.grants p fd kind a n
      → ∃ stat', (∀ q, q ≠ p → stat' q = s'.2.stat q)
        ∧ Effect p (.lock fd kind a n) s'.2 { s'.2 with stat := stat' }
        ∧ Wp p ab (k 0) Q l
            (s'.1.setLocks p fd a n (some kind), { s'.2 with stat := stat' }))
    : Wp p ab (.call (S := Sys) (.lock fd kind a n) k) Q l s := by
  intro s' hr hi ready
  obtain ⟨stat', stats, effect, rest⟩ := h s' hr hi ready
  have none_ : ∀ b, inRange a n b → s'.1.locks p fd b = none := by
    intro b range
    rw [hr.locks]
    exact fresh b range
  exact ⟨trivial, _, inv_acquire stat' hi ready none_, fun q ne => rely_setLocks stat' stats ne,
    effect, rest⟩

/-- A write lock, once it is granted. -/
theorem wp_writewLock {fd : Fd} {a n : Nat} {k : Int → M β}
    (fresh : ∀ b, inRange a n b → s.1.locks p fd b = none)
    (h : ∀ s', Rely p s s' → Inv s' → s'.1.grants p fd .wr a n
      → ∃ stat', (∀ q, q ≠ p → stat' q = s'.2.stat q)
        ∧ Effect p (.lock fd .wr a n) s'.2 { s'.2 with stat := stat' }
        ∧ Wp p ab (k 0) Q l
            (s'.1.setLocks p fd a n (some .wr), { s'.2 with stat := stat' }))
    : Wp p ab ((writewLock fd a n).bind k) Q l s :=
  wp_lock fresh h

/-- A read lock, once it is granted. -/
theorem wp_readwLock {fd : Fd} {a n : Nat} {k : Int → M β}
    (fresh : ∀ b, inRange a n b → s.1.locks p fd b = none)
    (h : ∀ s', Rely p s s' → Inv s' → s'.1.grants p fd .rd a n
      → ∃ stat', (∀ q, q ≠ p → stat' q = s'.2.stat q)
        ∧ Effect p (.lock fd .rd a n) s'.2 { s'.2 with stat := stat' }
        ∧ Wp p ab (k 0) Q l
            (s'.1.setLocks p fd a n (some .rd), { s'.2 with stat := stat' }))
    : Wp p ab ((readwLock fd a n).bind k) Q l s :=
  wp_lock fresh h

/-- A lock that is given up. -/
theorem wp_unlock {fd : Fd} {a n : Nat} {k : Int → M β}
    (h : ∀ s', Rely p s s' → Inv s'
      → Inv (s'.1.setLocks p fd a n none, s'.2)
        ∧ Wp p ab (k 0) Q l (s'.1.setLocks p fd a n none, s'.2))
    : Wp p ab ((unLock fd a n).bind k) Q l s := by
  intro s' hr hi _
  obtain ⟨inv', rest⟩ := h s' hr hi
  refine ⟨trivial, s'.2, inv', fun q ne => ?_, Effect.none p _ _, rest⟩
  exact rely_setLocks s'.2.stat (fun _ _ => rfl) ne

-----------------------------------------------------------------------------------------
-- What a process relies on while it holds an additional lock
-----------------------------------------------------------------------------------------

/-- A lock is kept when another is taken. -/
theorem Holds.acquire {fd : Fd} {a n b : Nat} {k : LockKind} (h : Holds s p b)
    : Holds (s.1.setLocks p fd a n (some k), s.2) p b := by
  simp only [Holds, Disk.setLocks] at h ⊢
  split
  · simp
  · exact h

/-- A lock that is left was held before. -/
theorem Holds.of_release {fd : Fd} {a n b : Nat}
    (h : Holds (s.1.setLocks p fd a n none, s.2) p b)
    : Holds s p b := by
  simp only [Holds, Disk.setLocks] at h ⊢
  split at h
  · simp at h
  · exact h

/-- With more locks a process sees more. -/
theorem Sees.mono {t : State} {o : Nat} (h : Sees s p o) (ghost : t.2 = s.2)
    (holds : ∀ {b}, Holds s p b → Holds t p b)
    : Sees t p o := by
  refine ⟨by rw [ghost]; exact h.1, ?_⟩
  have rest := h.2
  rw [ghost]
  cases owner : s.2.own o with
  | chain c => exact holds (by simpa [owner] using rest)
  | free => exact holds (by simpa [owner] using rest)
  | proc q => simpa [owner] using rest

/-- Fewer locks, fewer demands. -/
theorem Rely.weaken {s' t t' : State} (h : Rely p s t) (before : s'.2 = s.2)
    (after : t'.2 = t.2) (holds : ∀ {b}, Holds s' p b → Holds s p b)
    (dat : (s'.1.locks p .dat 0).isSome → (s.1.locks p .dat 0).isSome)
    (locks : t'.1.locks p = s'.1.locks p)
    : Rely p s' t' where
  locks := locks
  stat := by rw [before, after]; exact h.stat
  orphan := by rw [before, after]; exact h.orphan
  orphanChunk := by rw [before, after]; exact h.orphanChunk
  chain := by rw [before, after]; exact fun lt held => h.chain lt (holds held)
  free := by rw [before, after]; exact fun held => h.free (holds held)
  recs := by
    intro o seen
    rw [after, before]
    exact h.recs (seen.mono before.symm holds)
  mine := by rw [before, after]; exact h.mine
  tail := by rw [before, after]; exact fun held => h.tail (holds held)
  datTail := by rw [before, after]; exact fun held => h.datTail (dat held)
  grows := by rw [before, after]; exact h.grows
  scanned := by rw [before, after]; exact fun held => h.scanned (holds held)

/-- What held with an additional lock holds without it. -/
theorem Rely.unlocked {t : State} {fd : Fd} {a n : Nat} {k : LockKind}
    (fresh : ∀ b, inRange a n b → s.1.locks p fd b = none)
    (h : Rely p (s.1.setLocks p fd a n (some k), s.2) t)
    : Rely p s (t.1.setLocks p fd a n none, t.2) := by
  refine h.weaken rfl rfl Holds.acquire ?_ ?_
  · intro held
    simp only [Disk.setLocks]
    split
    · simp
    · exact held
  · have now : t.1.locks p = relock (s.1.locks p) fd a n (some k) :=
      h.locks.trans (setLocks_self s.1 p fd a n (some k))
    simp only [setLocks_self, now]
    exact relock_undo fresh

/-- Giving up a lock on both sides. -/
theorem Rely.release {t : State} (fd : Fd) (a n : Nat) (h : Rely p s t)
    : Rely p (s.1.setLocks p fd a n none, s.2) (t.1.setLocks p fd a n none, t.2) := by
  refine h.weaken rfl rfl Holds.of_release ?_ ?_
  · intro held
    simp only [Disk.setLocks] at held
    split at held
    · simp at held
    · exact held
  · simp only [setLocks_self, h.locks]

end Minions.Db
