import Minions.Db.Reading

/-! The end of a scan, on an index file of any content.
`_db_readidx` returns the chain pointer of a record as the same value by which it reports the
end of the file. Its comment says that the pointer is never negative, but nothing checks the
text that it is read from: a scan ends early at a record with a negative pointer.
-/

namespace Minions.Db

open Minions.Data Minions.Logic

/-- `_db_readidx` accepts the record at the offset, and its chain pointer is negative. -/
def NegativeAt (file : List Byte) (offset : Nat) : Prop :=
  ∃ next key, recordAt file offset = some (next, key) ∧ next < 0

instance (file : List Byte) (offset : Nat) : Decidable (NegativeAt file offset) :=
  decidable_of_iff ((recordAt file offset).any fun record => record.1 < 0) (by
    simp only [NegativeAt, Option.any_eq_true, Prod.exists, decide_eq_true_eq])

/-- Where `db_nextrec` goes on from an offset: behind a record whose key is blank. -/
def skipNext (file : List Byte) (offset : Nat) : Option Nat :=
  match recordAt file offset with
  | none => none
  | some (next, key) =>
      if next < 0 then none
      else if key.all (· = SPACE) then some (recordEnd file offset)
      else none

/-- A record lies inside the file. -/
theorem recordAt_inside {file key : List Byte} {offset : Nat} {next : Int}
    (found : recordAt file offset = some (next, key))
    : offset < recordEnd file offset ∧ recordEnd file offset ≤ file.length := by
  simp only [recordAt] at found
  split at found
  · cases found
  · rename_i fine
    simp only [not_or, Classical.not_not] at fine
    obtain ⟨head, length, body, -⟩ := fine
    simp only [recordEnd]
    generalize sizeT (atol (cstr ((pread file offset (PTR_SZ + IDXLEN_SZ)).drop PTR_SZ))) = idxlen
      at length body ⊢
    simp only [pread, List.length_take, List.length_drop] at head body
    simp only [PTR_SZ, IDXLEN_SZ, IDXLEN_MIN] at head length body ⊢
    omega

/-- A skip goes forward and stays in the file. -/
theorem skipNext_inside {file : List Byte} {offset next : Nat}
    (skips : skipNext file offset = some next)
    : offset < next ∧ next ≤ file.length := by
  unfold skipNext at skips
  cases found : recordAt file offset with
  | none => simp [found] at skips
  | some record =>
      simp only [found] at skips
      split at skips
      · cases skips
      · split at skips
        · cases skips
          exact recordAt_inside found
        · cases skips

/-- A record with a negative pointer lies in the file. -/
theorem NegativeAt.inside {file : List Byte} {offset : Nat} (negative : NegativeAt file offset)
    : offset < file.length := by
  obtain ⟨next, key, found, -⟩ := negative
  have := recordAt_inside found
  omega

/-- A record with a negative pointer is not skipped. -/
theorem NegativeAt.skipNext_eq {file : List Byte} {offset : Nat}
    (negative : NegativeAt file offset)
    : skipNext file offset = none := by
  obtain ⟨next, key, found, below⟩ := negative
  simp [skipNext, found, below]

/-- Nothing is skipped at the end of the file. -/
theorem skipNext_beyond {file : List Byte} {offset : Nat} (beyond : file.length ≤ offset)
    : skipNext file offset = none := by
  cases skips : skipNext file offset with
  | none => rfl
  | some next =>
      have := skipNext_inside skips
      omega

-----------------------------------------------------------------------------------------
-- One record
-----------------------------------------------------------------------------------------

variable {p : Pid} {fuel : Nat} {l : Offsets} {d : Disk}

/-- `_db_readidx` from the current offset, before the end of the file. -/
theorem readsAt_dbReadidx (db : DB) (inside : l.idx < d.idx.data.length)
    : ReadsAt d l.idx (recordEnd d.idx.data l.idx) (recordAt d.idx.data l.idx)
        (runs p fuel (dbReadidx db 0) l d) := by
  rw [dbReadidx_eq, if_pos rfl, runs_lseek (n := l.idx) (by simp [seekTarget, Offsets.at]),
    if_neg (by omega), runs_read]
  simp only [Offsets.move_at, Offsets.move_move, Disk.file]
  exact readsAt_readRest db (.inr inside)

/-- How one call of `_db_readidx` in `db_nextrec` ends. -/
inductive ScanReads (d : Disk) (l : Offsets)
    : Prog.Outcome Fatal (Int × DB) → Offsets → Prop
  | atEnd (db : DB) (beyond : d.idx.data.length ≤ l.idx) (noted : db.idxoff = l.idx)
    : ScanReads d l (.done (-1, db)) l
  | rejected (e : Fatal) (l' : Offsets) (inside : l.idx < d.idx.data.length)
    (rejects : recordAt d.idx.data l.idx = none)
    : ScanReads d l (.stopped e) l'
  | accepted (next : Int) (db : DB) (l' : Offsets)
    (found : recordAt d.idx.data l.idx = some (next, db.idxbuf)) (noted : db.idxoff = l.idx)
    (stopped : l'.idx = recordEnd d.idx.data l.idx)
    : ScanReads d l (.done (next, db)) l'

/-- `_db_readidx` in a scan ends in one of these ways. -/
theorem scanReads (db : DB)
    : ∃ out l', Yields p (dbReadidx db 0) l d out l' d ∧ ScanReads d l out l' := by
  rcases Nat.lt_or_ge l.idx d.idx.data.length with inside | beyond
  · have read : ∀ fuel, ReadsAt d l.idx (recordEnd d.idx.data l.idx) _
        (runs p fuel (dbReadidx db 0) l d) := fun _ => readsAt_dbReadidx db inside
    have first := read 0
    generalize result : runs p 0 (dbReadidx db 0) l d = out at first
    generalize record : recordAt d.idx.data l.idx = found at first
    have ends : out.1 ≠ .timeout → Yields p (dbReadidx db 0) l d out.1 out.2.1 out.2.2 := by
      rintro ended
      rw [← result] at ended ⊢
      exact Prog.Ends.of_run 0 ended
    cases first with
    | rejected e l' => exact ⟨_, l', ends nofun, .rejected e l' inside record⟩
    | accepted next db' l' noted stopped =>
        exact ⟨_, l', ends nofun, .accepted next db' l' record noted stopped⟩
  · exact ⟨_, l, yields_readidx_end beyond, .atEnd _ beyond rfl⟩

-----------------------------------------------------------------------------------------
-- The loop of `db_nextrec`
-----------------------------------------------------------------------------------------

/-- How the loop ends at an offset. -/
inductive ScanStops (file : List Byte) (offset : Nat)
    : Prog.Outcome Fatal (Option (List Byte) × DB) → Prop
  | atEnd (db : DB) (beyond : file.length ≤ offset) (noted : db.idxoff = offset)
    : ScanStops file offset (.done (none, db))
  | negative (db : DB) (below : NegativeAt file offset) (noted : db.idxoff = offset)
    : ScanStops file offset (.done (none, db))
  | rejected (e : Fatal) (inside : offset < file.length) (rejects : recordAt file offset = none)
    : ScanStops file offset (.stopped e)
  | found (key : List Byte) (db : DB) (above : ¬ NegativeAt file offset)
    (inside : offset < file.length) (stays : skipNext file offset = none)
    : ScanStops file offset (.done (some key, db))

/-- The loop ends where nothing is skipped. -/
theorem ScanStops.skipNext_eq {file : List Byte} {offset : Nat}
    {out : Prog.Outcome Fatal (Option (List Byte) × DB)} (stops : ScanStops file offset out)
    : skipNext file offset = none := by
  cases stops with
  | atEnd db beyond noted => exact skipNext_beyond beyond
  | negative db below noted => exact below.skipNext_eq
  | rejected e inside rejects => simp [skipNext, rejects]
  | found key db above inside stays => exact stays

/-- The loop ends, at the first offset that it does not skip. Witness: each record that it
skips brings it nearer to the end of the file.
-/
theorem loopEnds_scanStops (db : DB)
    : ∃ out l' stop, Prog.LoopEnds (kernel.alone p) scanRound db (l, d) out (l', d)
        ∧ Leads (skipNext d.idx.data) l.idx stop ∧ ScanStops d.idx.data stop out := by
  induction left : d.idx.data.length - l.idx using Nat.strongRecOn generalizing db l with
  | ind left ih =>
      obtain ⟨out, l', read, reads⟩ := scanReads (p := p) (l := l) (d := d) db
      cases reads with
      | atEnd db' beyond noted =>
          exact ⟨_, l, l.idx, .leave (read.bind (yields_ret _)) (.inl ⟨_, rfl, rfl⟩), .refl _ _,
            .atEnd db' beyond noted⟩
      | rejected e _ inside rejects =>
          exact ⟨_, l', l.idx, .leave read.bind_stopped (.inr ⟨e, rfl, rfl⟩), .refl _ _,
            .rejected e inside rejects⟩
      | accepted next db' _ found noted stopped =>
          have inside := recordAt_inside found
          by_cases below : next < 0
          · refine ⟨_, l', l.idx, .leave (read.bind ?_) (.inl ⟨_, rfl, rfl⟩), .refl _ _,
              .negative db' ⟨next, db'.idxbuf, found, below⟩ noted⟩
            simp only [if_pos below]
            exact yields_ret _
          have above : ¬ NegativeAt d.idx.data l.idx := by
            rintro ⟨next', key', found', below'⟩
            rw [found] at found'
            cases found'
            exact below below'
          by_cases blank : db'.idxbuf.all (· = SPACE)
          · have skips : skipNext d.idx.data l.idx = some l'.idx := by
              simp [skipNext, found, below, blank, stopped]
            obtain ⟨out, l'', stop, loop, leads, stops⟩ :=
              ih (d.idx.data.length - l'.idx) (by omega) db' rfl
            refine ⟨out, l'', stop, .again (read.bind ?_) loop, leads.step skips, stops⟩
            simp only [if_neg below, if_pos blank]
            exact yields_ret _
          · have stays : skipNext d.idx.data l.idx = none := by
              simp [skipNext, found, below, blank]
            refine ⟨_, l', l.idx, .leave (read.bind ?_) (.inl ⟨_, rfl, rfl⟩), .refl _ _,
              .found db'.idxbuf db' above (by omega) stays⟩
            simp only [if_neg below, if_neg blank]
            exact yields_ret _

-----------------------------------------------------------------------------------------
-- The whole call
-----------------------------------------------------------------------------------------

/-- The end of `db_nextrec`. -/
def scanUnlock (found : Option (List Byte × List Byte)) (db : DB)
    : M (Option (List Byte × List Byte) × DB) :=
  (unLock .idx FREE_OFF 1).bind fun rc =>
    if rc < 0 then errDump "db_nextrec: un_lock error" else Prog.ret (found, db)

/-- What `db_nextrec` does after its loop. -/
def scanReturn : Option (List Byte) × DB → M (Option (List Byte × List Byte) × DB)
  | (none, db) => scanUnlock none db
  | (some key, db) =>
      (dbReaddat db).bind fun (ptr, db) =>
        scanUnlock (some (key, ptr)) { db with cntNextrec := db.cntNextrec + 1 }

/-- `db_nextrec` as a loop between locking and unlocking. -/
theorem dbNextrec_eq (db : DB)
    : dbNextrec db
      = (readwLock .idx FREE_OFF 1).bind fun rc =>
          if rc < 0 then errDump "db_nextrec: readw_lock error"
          else Prog.loop db scanRound scanReturn := by
  simp only [dbNextrec, Prog.bind_eq, Prog.pure_eq, errDump_bind, scanLoop_eq, Prog.iter,
    Prog.loop_bind, Prog.ret_bind]
  congr 1
  funext rc
  congr 2
  funext result
  rcases result with ⟨_ | key, db⟩
  · rfl
  · rfl

/-- The end of `db_nextrec` gives up the lock. -/
theorem yields_scanUnlock (found : Option (List Byte × List Byte)) (db : DB)
    : Yields p (scanUnlock found db) l d (.done (found, db)) l
        (d.setLocks p .idx FREE_OFF 1 none) := by
  refine yields_unLock ?_
  rw [if_neg (by decide)]
  exact yields_ret _

/-- A record that the loop has found is returned, unless its data cannot be read. -/
theorem yields_scanReturn_some (key : List Byte) (db : DB)
    : ∃ out l' d', Yields p (scanReturn (some key, db)) l d out l' d'
        ∧ (∀ db', out ≠ .done (none, db')) ∧ out ≠ .timeout := by
  have direct : (runs p 0 (dbReaddat db) l d).1 ≠ .timeout := direct_dbReaddat db 0 (l, d)
  have read : Yields p (dbReaddat db) l d (runs p 0 (dbReaddat db) l d).1
      (runs p 0 (dbReaddat db) l d).2.1 (runs p 0 (dbReaddat db) l d).2.2 :=
    Prog.Ends.of_run 0 direct
  rcases result : runs p 0 (dbReaddat db) l d with ⟨out, l', d'⟩
  rw [result] at direct read
  match out with
  | .done (ptr, db') =>
      refine ⟨.done (some (key, ptr), { db' with cntNextrec := db'.cntNextrec + 1 }), l',
        d'.setLocks p .idx FREE_OFF 1 none, ?_, nofun, nofun⟩
      exact read.bind (yields_scanUnlock (some (key, ptr)) _)
  | .stopped e => exact ⟨.stopped e, l', d', read.bind_stopped, nofun, nofun⟩
  | .timeout => exact absurd rfl direct

/-- How `db_nextrec` ends where its loop ends at an offset: only the end of the file, and a
record with a negative chain pointer, make it return `NULL`.
-/
theorem yields_dbNextrec_any (db : DB)
    : ∃ out l' d' stop, Yields p (dbNextrec db) l d out l' d' ∧ out ≠ .timeout
        ∧ Leads (skipNext d.idx.data) l.idx stop ∧ skipNext d.idx.data stop = none
        ∧ ((∃ db', out = .done (none, db'))
          ↔ d.idx.data.length ≤ stop ∨ NegativeAt d.idx.data stop)
        ∧ ∀ db', out = .done (none, db') → db'.idxoff = stop := by
  obtain ⟨out, l', stop, loop, leads, stops⟩ :=
    loopEnds_scanStops (p := p) (l := l) (d := d.setLocks p .idx FREE_OFF 1 (some .rd)) db
  have stays := stops.skipNext_eq
  change Leads (skipNext d.idx.data) l.idx stop at leads
  change skipNext d.idx.data stop = none at stays
  change ScanStops d.idx.data stop out at stops
  have locked : ∀ {out l' d'},
      Prog.Ends (kernel.alone p) (Prog.loop db scanRound scanReturn)
        (l, d.setLocks p .idx FREE_OFF 1 (some .rd)) out (l', d')
      → Yields p (dbNextrec db) l d out l' d' := by
    intro out l' d' rest
    rw [dbNextrec_eq]
    refine yields_readwLock ?_
    rw [if_neg (by decide)]
    exact rest
  cases stops with
  | atEnd db' beyond noted =>
      refine ⟨_, _, _, stop, locked (loop.next (yields_scanUnlock none db')), nofun, leads, stays,
        iff_of_true ⟨db', rfl⟩ (.inl beyond), ?_⟩
      rintro _ ⟨⟩
      exact noted
  | negative db' below noted =>
      refine ⟨_, _, _, stop, locked (loop.next (yields_scanUnlock none db')), nofun, leads, stays,
        iff_of_true ⟨db', rfl⟩ (.inr below), ?_⟩
      rintro _ ⟨⟩
      exact noted
  | rejected e inside rejects =>
      refine ⟨_, _, _, stop, locked loop.stopped, nofun, leads, stays, iff_of_false nofun ?_,
        nofun⟩
      rintro (beyond | ⟨next, key, found, -⟩)
      · omega
      · rw [rejects] at found
        cases found
  | found key db' above inside _ =>
      obtain ⟨out, l'', d'', rest, notNull, ended⟩ := yields_scanReturn_some (p := p) (l := l')
        (d := d.setLocks p .idx FREE_OFF 1 (some .rd)) key db'
      refine ⟨out, l'', d'', stop, locked (loop.next rest), ended, leads, stays,
        iff_of_false ?_ ?_, ?_⟩
      · rintro ⟨db'', null⟩
        exact notNull db'' null
      · rintro (beyond | below)
        · omega
        · exact above below
      · intro db'' null
        exact absurd null (notNull db'')

/-- The scan stays inside the file, or where it started. -/
theorem skipped_le {file : List Byte} {start stop : Nat} (within : start ≤ file.length)
    (leads : Leads (skipNext file) start stop)
    : stop ≤ file.length :=
  leads.invariant within fun _ _ skips _ => (skipNext_inside skips).2

/-- `_db_readidx` reports the end exactly at the end unless a record there has a negative chain
pointer.
-/
theorem readidx_ends_iff (p : Pid) (l : Offsets) (d : Disk) (db : DB)
    : (∃ out l', Yields p (dbReadidx db 0) l d out l' d
        ∧ ∀ next db', out = .done (next, db') → next < 0 → l.idx = d.idx.data.length)
      ↔ l.idx ≤ d.idx.data.length ∧ ¬ NegativeAt d.idx.data l.idx := by
  obtain ⟨out, l', ends, reads⟩ := scanReads (p := p) (l := l) (d := d) db
  constructor
  · rintro ⟨out', l'', ends', exact_⟩
    obtain ⟨rfl, -⟩ := ends.unique ends'
    cases reads with
    | atEnd db' beyond noted =>
        have here := exact_ (-1) db' rfl (by decide)
        exact ⟨by omega, fun negative => by have := negative.inside; omega⟩
    | rejected e _ inside rejects =>
        refine ⟨inside.le, ?_⟩
        rintro ⟨next, key, found, -⟩
        rw [rejects] at found
        cases found
    | accepted next db' _ found noted stopped =>
        have inside := recordAt_inside found
        refine ⟨by omega, ?_⟩
        rintro ⟨next', key, found', below⟩
        rw [found] at found'
        cases found'
        have here := exact_ next db' rfl below
        omega
  · rintro ⟨within, above⟩
    refine ⟨out, l', ends, ?_⟩
    rintro next db' rfl below
    cases reads with
    | atEnd _ beyond noted => omega
    | accepted _ _ _ found noted stopped => exact absurd ⟨next, _, found, below⟩ above

/-- `db_nextrec` reports the end exactly at the end unless the first record that it does not skip
has a negative chain pointer.
-/
theorem nextrec_ends_iff (p : Pid) (l : Offsets) (d : Disk) (db : DB)
    : (∃ out l' d', Yields p (dbNextrec db) l d out l' d' ∧ out ≠ .timeout
        ∧ ∀ db', out = .done (none, db') → db'.idxoff = d.idx.data.length)
      ↔ l.idx ≤ d.idx.data.length
        ∧ ∀ stop, Leads (skipNext d.idx.data) l.idx stop → ¬ NegativeAt d.idx.data stop := by
  obtain ⟨out, l', d', stop, ends, ended, leads, stays, null, noted⟩ :=
    yields_dbNextrec_any (p := p) (l := l) (d := d) db
  constructor
  · rintro ⟨out', l'', d'', ends', -, exact_⟩
    obtain ⟨rfl, -⟩ := ends.unique ends'
    have within : l.idx ≤ d.idx.data.length := by
      apply Classical.byContradiction
      intro beyond
      have here : l.idx = stop :=
        (Leads.refl _ _).stop_unique leads (skipNext_beyond (by omega)) stays
      obtain ⟨db', rfl⟩ := null.mpr (.inl (by omega))
      have there := exact_ db' rfl
      rw [noted db' rfl] at there
      omega
    refine ⟨within, fun stop' leads' below => ?_⟩
    obtain rfl : stop' = stop := leads'.stop_unique leads below.skipNext_eq stays
    obtain ⟨db', rfl⟩ := null.mpr (.inr below)
    have there := exact_ db' rfl
    rw [noted db' rfl] at there
    have := below.inside
    omega
  · rintro ⟨within, above⟩
    refine ⟨out, l', d', ends, ended, ?_⟩
    rintro db' rfl
    have below := skipped_le within leads
    rcases null.mp ⟨db', rfl⟩ with beyond | negative
    · rw [noted db' rfl]
      omega
    · exact absurd negative (above stop leads)

/-- On every index file and from every position, `_db_readidx` at the current offset returns a
negative value at the end of the file only, and `db_nextrec` returns `NULL` there only, exactly
if the position is not beyond the end and no record that the call reads has a negative chain
pointer. The call of `db_nextrec` always ends.
-/
theorem scan_ends_at_end_iff (p : Pid) (l : Offsets) (d : Disk) (db : DB)
    : ((∃ out l', Yields p (dbReadidx db 0) l d out l' d
          ∧ ∀ next db', out = .done (next, db') → next < 0 → l.idx = d.idx.data.length)
        ↔ l.idx ≤ d.idx.data.length ∧ ¬ NegativeAt d.idx.data l.idx)
      ∧ ((∃ out l' d', Yields p (dbNextrec db) l d out l' d' ∧ out ≠ .timeout
          ∧ ∀ db', out = .done (none, db') → db'.idxoff = d.idx.data.length)
        ↔ l.idx ≤ d.idx.data.length
          ∧ ∀ stop, Leads (skipNext d.idx.data) l.idx stop → ¬ NegativeAt d.idx.data stop) :=
  ⟨readidx_ends_iff p l d db, nextrec_ends_iff p l d db⟩

/-- An index file whose first record, with the key `a`, has the chain pointer -1; the record
of the key `b` stands behind it.
-/
def negativeIndex : List Byte :=
  emptyHash ++ asciiptrlen (-1) 6 ++ idxText [97] 0 2 ++ asciiptrlen 0 6 ++ idxText [98] 2 2

/-- A scan of that file ends at its first record. -/
theorem scan_ends_early
    : ¬ ∀ (p : Pid) (l : Offsets) (d : Disk) (db : DB),
        ∃ out l' d', Yields p (dbNextrec db) l d out l' d' ∧ out ≠ .timeout
          ∧ ∀ db', out = .done (none, db') → db'.idxoff = d.idx.data.length := by
  intro always
  let d : Disk :=
    { idx := ⟨true, negativeIndex⟩, dat := ⟨true, [97, 10, 98, 10]⟩, locks := fun _ _ _ => none }
  obtain ⟨out, l', d', ends, -, exact_⟩ := always 1 ⟨967, 0⟩ d dbAlloc
  obtain ⟨⟨found, db'⟩, w, ends', value⟩ :
      ∃ r w', (dbNextrec dbAlloc).Ends (kernel.alone 1) (⟨967, 0⟩, d) (.done r) w'
        ∧ (r.1, r.2.idxoff) = (none, 967) :=
    Prog.Ends.of_value_map 1 (by decide +kernel)
  obtain ⟨rfl, -⟩ := ends.unique ends'
  cases found with
  | some record => simp at value
  | none =>
      have there := exact_ db' rfl
      rw [show db'.idxoff = 967 by simpa using value] at there
      exact absurd there (by decide +kernel)

end Minions.Db
