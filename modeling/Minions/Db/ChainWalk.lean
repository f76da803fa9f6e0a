import Mathlib.Data.Int.ConditionallyCompleteOrder
import Mathlib.Data.Int.Interval
import Minions.Data.Orbit
import Minions.Db.Direct

/-! The chain walk of `_db_find_and_lock` on an index file of any content.
The walk follows the offsets that it reads and keeps no note of where it has been. It ends,
with a record, at the end of the chain or by an abort, unless the offsets lead back to one
that it has read before.
-/

namespace Minions.Db

open Minions.Data Minions.Logic

/-- The key of the text of an index record, where `_db_readidx` accepts the text. -/
def textKey (text : List Byte) : Option (List Byte) :=
  match splitSep text with
  | none => none
  | some (key, rest) =>
      match splitSep rest with
      | none => none
      | some (ptr1, ptr2) =>
          if SEP ∈ ptr2 ∨ atol ptr1 < 0 ∨ sizeT (atol ptr2) = 0
              ∨ sizeT (atol ptr2) > DATLEN_MAX then none
          else some key

/-- The chain pointer and the key at an offset of an index file, where `_db_readidx` accepts
what it finds there.
-/
def recordAt (file : List Byte) (offset : Nat) : Option (Int × List Byte) :=
  let head := pread file offset (PTR_SZ + IDXLEN_SZ)
  let idxlen := sizeT (atol (cstr (head.drop PTR_SZ)))
  let body := pread file (offset + (PTR_SZ + IDXLEN_SZ)) idxlen
  if head.length ≠ PTR_SZ + IDXLEN_SZ ∨ (idxlen < IDXLEN_MIN ∨ idxlen > IDXLEN_MAX)
      ∨ body.length ≠ idxlen ∨ body.getLast? ≠ some NEWLINE then none
  else (textKey (cstr body.dropLast)).map fun key => (atol (cstr (head.take PTR_SZ)), key)

/-- Where the walk for a key goes from an offset, if it goes on there. -/
def chainNext (file key : List Byte) (offset : Int) : Option Int :=
  if offset ≤ 0 then none
  else
    match recordAt file offset.toNat with
    | none => none
    | some (next, found) => if found = key then none else some next

/-- The first offset of the chain of a key, where its pointer can be read. -/
def chainStart (file : List Byte) (chainoff : Nat) : Option Int :=
  let asciiptr := pread file chainoff PTR_SZ
  if asciiptr.length ≠ PTR_SZ then none else some (atol (cstr asciiptr))

/-- The walk goes on from offsets inside the file only. -/
theorem chainNext_inside {file key : List Byte} {offset : Int}
    (goes : (chainNext file key offset).isSome)
    : offset ∈ Finset.Ico 0 (file.length : Int) := by
  unfold chainNext at goes
  split at goes
  · cases goes
  · rename_i positive
    have there : (recordAt file offset.toNat).isSome := by
      cases found : recordAt file offset.toNat with
      | none => simp [found] at goes
      | some record => rfl
    have long : (pread file offset.toNat (PTR_SZ + IDXLEN_SZ)).length = PTR_SZ + IDXLEN_SZ := by
      apply Classical.byContradiction
      intro short
      simp [recordAt, short] at there
    simp only [pread, List.length_take, List.length_drop, PTR_SZ, IDXLEN_SZ] at long
    rw [Finset.mem_Ico]
    omega

-----------------------------------------------------------------------------------------
-- One step of the walk
-----------------------------------------------------------------------------------------

variable {p : Pid} {fuel : Nat} {l : Offsets} {d : Disk}

/-- How `_db_readidx` ends where the file holds the given record, or no record that it
accepts. The disk is only read.
-/
inductive Reads (d : Disk)
    : Option (Int × List Byte) → Prog.Outcome Fatal (Int × DB) × (Offsets × Disk) → Prop
  | rejected (e : Fatal) (l : Offsets) : Reads d none (.stopped e, (l, d))
  | accepted (next : Int) (db : DB) (l : Offsets)
    : Reads d (some (next, db.idxbuf)) (.done (next, db), (l, d))

/-- The same, with the offset that `_db_readidx` notes and the place where it stops reading. -/
inductive ReadsAt (d : Disk) (idxoff : Int) (stop : Nat)
    : Option (Int × List Byte) → Prog.Outcome Fatal (Int × DB) × (Offsets × Disk) → Prop
  | rejected (e : Fatal) (l : Offsets) : ReadsAt d idxoff stop none (.stopped e, (l, d))
  | accepted (next : Int) (db : DB) (l : Offsets) (noted : db.idxoff = idxoff)
    (stopped : l.idx = stop)
    : ReadsAt d idxoff stop (some (next, db.idxbuf)) (.done (next, db), (l, d))

/-- The offsets are forgotten. -/
theorem ReadsAt.reads {idxoff : Int} {stop : Nat} {record : Option (Int × List Byte)}
    {result : Prog.Outcome Fatal (Int × DB) × (Offsets × Disk)}
    (h : ReadsAt d idxoff stop record result)
    : Reads d record result := by
  cases h with
  | rejected e l => exact .rejected e l
  | accepted next db l => exact .accepted next db l

/-- The checks on the text of a record accept it exactly if it has a key. -/
theorem readsAt_parseIdxbuf (db : DB) (text : List Byte)
    : ReadsAt d db.idxoff l.idx ((textKey text).map fun key => (db.ptrval, key))
        (runs p fuel (parseIdxbuf db text) l d) := by
  unfold textKey parseIdxbuf
  rcases splitSep text with _ | ⟨key, rest⟩
  · exact .rejected _ _
  rcases second : splitSep rest with _ | ⟨ptr1, ptr2⟩
  · simp only [second]
    exact .rejected _ _
  simp only [second]
  by_cases sep : SEP ∈ ptr2
  · rw [if_pos (.inl sep), if_pos sep]
    exact .rejected _ _
  by_cases negative : atol ptr1 < 0
  · rw [if_pos (.inr (.inl negative)), if_neg sep, if_pos negative]
    exact .rejected _ _
  by_cases bad : sizeT (atol ptr2) = 0 ∨ sizeT (atol ptr2) > DATLEN_MAX
  · rw [if_pos (.inr (.inr bad)), if_neg sep, if_neg negative, if_pos bad]
    exact .rejected _ _
  · have fine : ¬ (SEP ∈ ptr2 ∨ atol ptr1 < 0 ∨ sizeT (atol ptr2) = 0
        ∨ sizeT (atol ptr2) > DATLEN_MAX) := by
      rintro (h | h | h)
      · exact sep h
      · exact negative h
      · exact bad h
    rw [if_neg fine, if_neg sep, if_neg negative, if_neg bad]
    exact .accepted db.ptrval
      { db with idxbuf := key, datoff := atol ptr1, datlen := sizeT (atol ptr2) } l rfl rfl

/-- What `_db_readidx` does with the front of the record that it has read. -/
def readRest (db : DB) (offset idxoff : Int) (head : List Byte) : M (Int × DB) :=
  if head.length ≠ PTR_SZ + IDXLEN_SZ then
    if head.length = 0 ∧ offset = 0 then Prog.ret (-1, { db with idxoff })
    else errDump "_db_readidx: readv error of index record"
  else
    let ptrval := atol (cstr (head.take PTR_SZ))
    let idxlen := sizeT (atol (cstr (head.drop PTR_SZ)))
    if idxlen < IDXLEN_MIN ∨ idxlen > IDXLEN_MAX then errDump "_db_readidx: invalid length"
    else
      (read .idx idxlen).bind fun body =>
        if body.length ≠ idxlen then errDump "_db_readidx: read error of index record"
        else if body.getLast? ≠ some NEWLINE then errDump "_db_readidx: missing newline"
        else parseIdxbuf { db with idxoff, ptrval, idxlen } (cstr body.dropLast)

/-- `_db_readidx` reads the front of a record and goes on with the rest. -/
theorem dbReadidx_eq (db : DB) (offset : Int)
    : dbReadidx db offset
      = (lseek .idx offset (if offset = 0 then .cur else .set)).bind fun idxoff =>
          if idxoff = -1 then errDump "_db_readidx: lseek error"
          else (read .idx (PTR_SZ + IDXLEN_SZ)).bind (readRest db offset idxoff) := by
  simp only [dbReadidx, Prog.bind_eq, Prog.pure_eq, errDump_bind]
  rfl

/-- Where the record at an offset of an index file ends. -/
def recordEnd (file : List Byte) (offset : Nat) : Nat :=
  offset + (PTR_SZ + IDXLEN_SZ)
    + sizeT (atol (cstr ((pread file offset (PTR_SZ + IDXLEN_SZ)).drop PTR_SZ)))

/-- The record at the current offset, whose front has been read. Only a caller that passes
the offset 0 takes an empty front for the end of the file.
-/
theorem readsAt_readRest (db : DB) {offset : Int} {start : Nat}
    (there : offset ≠ 0 ∨ start < d.idx.data.length)
    : ReadsAt d start (recordEnd d.idx.data start) (recordAt d.idx.data start)
        (runs p fuel (readRest db offset start (pread d.idx.data start (PTR_SZ + IDXLEN_SZ)))
          (l.move .idx (start + (pread d.idx.data start (PTR_SZ + IDXLEN_SZ)).length)) d) := by
  have notEnd : ¬ ((pread d.idx.data start (PTR_SZ + IDXLEN_SZ)).length = 0 ∧ offset = 0) := by
    rintro ⟨empty, zero⟩
    rcases there with nonzero | inside
    · exact nonzero zero
    · simp only [pread, List.length_take, List.length_drop, PTR_SZ, IDXLEN_SZ] at empty
      omega
  simp only [recordAt, recordEnd, readRest]
  generalize pread d.idx.data start (PTR_SZ + IDXLEN_SZ) = head at notEnd ⊢
  by_cases short : head.length ≠ PTR_SZ + IDXLEN_SZ
  · rw [if_pos (.inl short), if_pos short, if_neg notEnd]
    exact .rejected _ _
  have whole : head.length = PTR_SZ + IDXLEN_SZ := Classical.not_not.mp short
  rw [if_neg short, whole]
  by_cases length : sizeT (atol (cstr (head.drop PTR_SZ))) < IDXLEN_MIN
      ∨ sizeT (atol (cstr (head.drop PTR_SZ))) > IDXLEN_MAX
  · rw [if_pos (.inr (.inl length)), if_pos length]
    exact .rejected _ _
  rw [if_neg length, runs_read]
  simp only [Offsets.move_at, Offsets.move_move, Disk.file]
  generalize sizeT (atol (cstr (head.drop PTR_SZ))) = idxlen at length ⊢
  generalize pread d.idx.data (start + (PTR_SZ + IDXLEN_SZ)) idxlen = body
  by_cases cut : body.length ≠ idxlen
  · rw [if_pos (.inr (.inr (.inl cut))), if_pos cut]
    exact .rejected _ _
  by_cases newline : body.getLast? ≠ some NEWLINE
  · rw [if_pos (.inr (.inr (.inr newline))), if_neg cut, if_pos newline]
    exact .rejected _ _
  have fine : ¬ (PTR_SZ + IDXLEN_SZ ≠ PTR_SZ + IDXLEN_SZ
      ∨ (idxlen < IDXLEN_MIN ∨ idxlen > IDXLEN_MAX) ∨ body.length ≠ idxlen
      ∨ body.getLast? ≠ some NEWLINE) := by
    rintro (h | h | h | h)
    · exact h rfl
    · exact length h
    · exact cut h
    · exact newline h
  rw [if_neg fine, if_neg cut, if_neg newline, Classical.not_not.mp cut]
  exact readsAt_parseIdxbuf (l := l.move .idx (start + (PTR_SZ + IDXLEN_SZ) + idxlen))
    { db with idxoff := start, idxlen, ptrval := atol (cstr (head.take PTR_SZ)) } _

/-- `_db_readidx` at an offset behind the start of the file reads the record there. -/
theorem reads_dbReadidx (db : DB) {offset : Nat} (positive : 0 < offset)
    : Reads d (recordAt d.idx.data offset) (runs p fuel (dbReadidx db offset) l d) := by
  have nonzero : ¬ (offset : Int) = 0 := by omega
  rw [dbReadidx_eq, if_neg nonzero, runs_lseek (n := offset) rfl, if_neg (by omega), runs_read]
  simp only [Offsets.move_at, Offsets.move_move, Disk.file]
  exact (readsAt_readRest db (.inl nonzero)).reads

/-- An offset before the start of the file is not read. -/
theorem runs_dbReadidx_negative (db : DB) {offset : Int} (negative : offset < 0)
    : runs p fuel (dbReadidx db offset) l d
      = (.stopped (.errDump "_db_readidx: lseek error"), (l, d)) := by
  simp only [dbReadidx, Prog.bind_eq, Prog.pure_eq, errDump_bind,
    if_neg (show ¬ offset = 0 by omega)]
  rw [runs_lseek_negative (by exact negative), if_pos rfl]
  rfl

/-- One round of the loop in `_db_find_and_lock`. -/
def findRound (key : List Byte) : Int × DB → M ((Int × DB) ⊕ (Int × DB))
  | (offset, db) =>
      if offset = 0 then Prog.ret (.inr (offset, db))
      else
        (dbReadidx db offset).bind fun (nextoffset, db) =>
          if db.idxbuf = key then Prog.ret (.inr (offset, db))
          else Prog.ret (.inl (nextoffset, { db with ptroff := offset }))

/-- The loop of `_db_find_and_lock` as rounds. -/
theorem findLoop_eq (key : List Byte) (start : Int × DB)
    : findLoop key start = Prog.iter start (findRound key) :=
  rfl

/-- How a round ends: the walk goes on, or the loop is left by an exit or an abort. -/
inductive Rounds (d : Disk)
    : Option Int → Prog.Outcome Fatal ((Int × DB) ⊕ (Int × DB)) × (Offsets × Disk) → Prop
  | on (next : Int) (db : DB) (l : Offsets) : Rounds d (some next) (.done (.inl (next, db)), (l, d))
  | left (result : Int × DB) (l : Offsets) : Rounds d none (.done (.inr result), (l, d))
  | aborted (e : Fatal) (l : Offsets) : Rounds d none (.stopped e, (l, d))

/-- A round goes on where the chain leads. -/
theorem rounds_findRound (key : List Byte) (offset : Int) (db : DB)
    : Rounds d (chainNext d.idx.data key offset)
        (runs p fuel (findRound key (offset, db)) l d) := by
  rcases lt_trichotomy offset 0 with negative | rfl | positive
  · rw [chainNext, if_pos negative.le, findRound, if_neg (by omega),
      runs_bind_stopped (runs_dbReadidx_negative db negative)]
    exact .aborted _ _
  · exact .left _ _
  · obtain ⟨o, rfl⟩ := Int.eq_ofNat_of_zero_le positive.le
    rw [chainNext, if_neg (by omega), Int.toNat_natCast, findRound, if_neg (by omega)]
    have read : Reads d (recordAt d.idx.data o) (runs p fuel (dbReadidx db o) l d) :=
      reads_dbReadidx db (by omega)
    generalize result : runs p fuel (dbReadidx db o) l d = out at read
    generalize recordAt d.idx.data o = record at read ⊢
    cases read with
    | rejected e l' =>
        rw [runs_bind_stopped result]
        exact .aborted e l'
    | accepted next db' l' =>
        rw [runs_bind result]
        by_cases found : db'.idxbuf = key
        · simp only [if_pos found]
          exact .left _ l'
        · simp only [if_neg found]
          exact .on next { db' with ptroff := o } l'

/-- A walk of a number of rounds is cut short exactly if it has not ended by itself by then. -/
theorem iterate_findRound_timeout_iff (key : List Byte) (rounds : Nat) (offset : Int) (db : DB)
    (l : Offsets)
    : (Prog.iterate (fun s w => (findRound key s).run (kernel.alone p) fuel w) rounds
        (offset, db) (l, d)).1 = .timeout
      ↔ (orbit (chainNext d.idx.data key) rounds offset).isSome := by
  induction rounds generalizing offset db l with
  | zero => simp [Prog.iterate, orbit]
  | succ rounds ih =>
      have round : Rounds d _ (runs p fuel (findRound key (offset, db)) l d) :=
        rounds_findRound key offset db
      rw [Prog.iterate, orbit]
      simp only [runs] at round
      generalize (findRound key (offset, db)).run (kernel.alone p) fuel (l, d) = result at round ⊢
      generalize chainNext d.idx.data key offset = next at round ⊢
      cases round with
      | on next db' l' => exact ih next db' l'
      | left result l' => simp
      | aborted e l' => simp

/-- The loop runs out of fuel exactly if the chain goes on that long. -/
theorem findLoop_timeout_iff (key : List Byte) (offset : Int) (db : DB)
    : (runs p fuel (findLoop key (offset, db)) l d).1 = .timeout
      ↔ (orbit (chainNext d.idx.data key) fuel offset).isSome := by
  rw [← iterate_findRound_timeout_iff (p := p) key fuel offset db l, runs, findLoop_eq]
  simp only [Prog.iter, Prog.run]
  rcases Prog.iterate (fun s w => (findRound key s).run (kernel.alone p) fuel w) fuel
    (offset, db) (l, d) with ⟨out, w⟩
  cases out with
  | done result => simp
  | stopped e => simp
  | timeout => simp

-----------------------------------------------------------------------------------------
-- The whole call
-----------------------------------------------------------------------------------------

/-- The walk of `_db_find_and_lock` for a key comes back to an offset that it has followed. -/
def ChainReturns (file : List Byte) (db : DB) (key : List Byte) : Prop :=
  ∃ start, chainStart file (dbHash db.nhash key * PTR_SZ + db.hashoff) = some start
    ∧ ComesBack (chainNext file key) start

/-- `_db_readptr` on a file of any content. -/
theorem runs_dbReadptr (offset : Nat)
    : runs p fuel (dbReadptr offset) l d
      = (match chainStart d.idx.data offset with
          | none => .stopped (.errDump "_db_readptr: read error of ptr field")
          | some start => .done start,
        (l.move .idx (offset + (pread d.idx.data offset PTR_SZ).length), d)) := by
  simp only [dbReadptr, Prog.bind_eq, Prog.pure_eq, errDump_bind, chainStart]
  rw [runs_lseek (n := offset) rfl, if_neg (by omega), runs_read]
  simp only [Offsets.move_at, Offsets.move_move, Disk.file]
  by_cases short : (pread d.idx.data offset PTR_SZ).length ≠ PTR_SZ
  · rw [if_pos short, if_pos short]
    rfl
  · rw [if_neg short, if_neg short]
    rfl

/-- The part of `_db_find_and_lock` after its lock exhausts its fuel exactly if the walk has
not ended by then.
-/
theorem walk_timeout_iff (chainoff : Nat) (db : DB) (key : List Byte)
    : (runs p fuel
        ((dbReadptr chainoff).bind fun offset =>
          (findLoop key (offset, db)).bind fun found =>
            Prog.ret ((if found.1 = 0 then -1 else 0 : Int), found.2)) l d).1 = .timeout
      ↔ ∃ start, chainStart d.idx.data chainoff = some start
        ∧ (orbit (chainNext d.idx.data key) fuel start).isSome := by
  have pointer : runs p fuel (dbReadptr chainoff) l d = _ := runs_dbReadptr chainoff
  cases first : chainStart d.idx.data chainoff with
  | none =>
      rw [first] at pointer
      rw [runs_bind_stopped pointer]
      simp
  | some start =>
      rw [first] at pointer
      rw [runs_bind pointer]
      simp only [Option.some.injEq, exists_eq_left']
      rw [← findLoop_timeout_iff (p := p) (d := d) key start db]
      exact Prog.timeout_bind_iff (fun _ => .ret _) fuel _

/-- `_db_find_and_lock` runs out of fuel exactly if the chain goes on that long. -/
theorem findAndLock_timeout_iff (db : DB) (key : List Byte) (writelock : Bool)
    : (runs p fuel (dbFindAndLock db key writelock) l d).1 = .timeout
      ↔ ∃ start, chainStart d.idx.data (dbHash db.nhash key * PTR_SZ + db.hashoff) = some start
        ∧ (orbit (chainNext d.idx.data key) fuel start).isSome := by
  cases writelock with
  | false =>
      simp only [dbFindAndLock, Prog.bind_eq, Prog.pure_eq, errDump_bind, Bool.false_eq_true,
        if_false]
      rw [runs_readwLock, if_neg (by decide), walk_timeout_iff]
      rfl
  | true =>
      simp only [dbFindAndLock, Prog.bind_eq, Prog.pure_eq, errDump_bind, if_true]
      rw [runs_writewLock, if_neg (by decide), walk_timeout_iff]
      rfl

/-- `_db_readdat` has no loop. -/
theorem direct_dbReaddat (db : DB) : (dbReaddat db).Direct (kernel.alone p) := by
  simp only [dbReaddat, Prog.bind_eq, Prog.pure_eq, errDump_bind]
  refine .call fun _ => .ite (.abort _) (.call fun _ => .ite (.abort _) (.ite (.abort _) ?_))
  exact .ret _

/-- What `db_fetch` does after the walk always ends. -/
theorem fetch_timeout_iff (db : DB) (key : List Byte)
    : (runs p fuel (dbFetch db key) l d).1 = .timeout
      ↔ ∃ start, chainStart d.idx.data (dbHash db.nhash key * PTR_SZ + db.hashoff) = some start
        ∧ (orbit (chainNext d.idx.data key) fuel start).isSome := by
  rw [← findAndLock_timeout_iff (p := p) (l := l) db key false]
  simp only [dbFetch, Prog.bind_eq, Prog.pure_eq, errDump_bind]
  apply Prog.timeout_bind_iff
  intro found
  split
  · exact .call fun _ => .ite (.abort _) (.ret _)
  · exact (direct_dbReaddat _).bind fun _ => .call fun _ => .ite (.abort _) (.ret _)

/-- A walk that comes back never ends. -/
theorem ChainReturns.timeout {db : DB} {key : List Byte}
    (returns : ChainReturns d.idx.data db key)
    : (runs p fuel (dbFetch db key) l d).1 = .timeout := by
  obtain ⟨start, first, back⟩ := returns
  exact (fetch_timeout_iff db key).mpr ⟨start, first, back.isSome fuel⟩

/-- A walk that is still going after one round for each byte of the file has come back. -/
theorem chainReturns_of_timeout {db : DB} {key : List Byte}
    (out : (runs p (d.idx.data.length + 1) (dbFetch db key) l d).1 = .timeout)
    : ChainReturns d.idx.data db key := by
  obtain ⟨start, first, going⟩ := (fetch_timeout_iff db key).mp out
  refine ⟨start, first, comesBack_of_card (fun offset => chainNext_inside) ?_⟩
  rw [Int.card_Ico, Int.sub_zero, Int.toNat_natCast]
  exact going

/-- On every index file `db_fetch` ends, with a result or by an abort, unless its chain walk
comes back to an offset that it has followed; and where it ends, one round of the walk for
each byte of the file and one more are enough.
-/
theorem fetch_ends_iff_not_chainReturns (p : Pid) (l : Offsets) (d : Disk) (db : DB)
    (key : List Byte)
    : ((∃ fuel, (runs p fuel (dbFetch db key) l d).1 ≠ .timeout)
        ↔ ¬ ChainReturns d.idx.data db key)
      ∧ ((runs p (d.idx.data.length + 1) (dbFetch db key) l d).1 ≠ .timeout
        ↔ ¬ ChainReturns d.idx.data db key) := by
  have bounded : (runs p (d.idx.data.length + 1) (dbFetch db key) l d).1 ≠ .timeout
      ↔ ¬ ChainReturns d.idx.data db key :=
    not_congr ⟨chainReturns_of_timeout, fun returns => returns.timeout⟩
  refine ⟨⟨?_, fun straight => ⟨_, bounded.mpr straight⟩⟩, bounded⟩
  rintro ⟨fuel, ended⟩ returns
  exact ended returns.timeout

/-- An index file whose chains all start at one record, with the key `b`, that points to
itself.
-/
def circularIndex : List Byte :=
  (List.replicate (NHASH_DEF + 1) (padLeft PTR_SZ (decimalInt 967))).flatten ++ [NEWLINE]
    ++ asciiptrlen 967 6 ++ idxText [98] 0 2

/-- The record of the sample points to itself. -/
theorem circularIndex_next : chainNext circularIndex [97] 967 = some 967 := by
  decide +kernel

/-- Its chain starts at that record. -/
theorem circularIndex_start
    : chainStart circularIndex (dbHash dbAlloc.nhash [97] * PTR_SZ + dbAlloc.hashoff)
      = some 967 := by
  decide +kernel

/-- Its chain returns to an offset that has been read. -/
theorem circularIndex_returns : ChainReturns circularIndex dbAlloc [97] :=
  ⟨967, circularIndex_start, 0, 1, 967, Nat.zero_lt_one, rfl, by
    simp [orbit, circularIndex_next]⟩

/-- A `db_fetch` of the key `a` never ends on that file. -/
theorem fetch_does_not_end
    : ¬ ∀ (p : Pid) (l : Offsets) (d : Disk) (db : DB) (key : List Byte),
        ∃ fuel, (runs p fuel (dbFetch db key) l d).1 ≠ .timeout := by
  intro always
  obtain ⟨fuel, ended⟩ := always 0 ⟨0, 0⟩
    { idx := ⟨true, circularIndex⟩, dat := ⟨true, []⟩, locks := fun _ _ _ => none } dbAlloc [97]
  exact ended (ChainReturns.timeout circularIndex_returns)

end Minions.Db
