import Minions.Db.ChainWalk
import Minions.Db.Representation
import Minions.Db.Scan

/-! What one process reads from the files of a database.
`Stands` asks less of the files than the representation invariant: regions of the data file
that no record names, and blank records that no list holds, do not matter to a reader. The
rules below say how a call ends, and at which offset of the index file it leaves the process.
-/

namespace Minions.Db

open Minions.Data Minions.Logic

/-- The two files are those of the image. -/
structure Placed (d : Disk) (im : Image) : Prop where
  idx : d.idx.data = im.idx
  dat : d.dat.data = im.dat

/-- The two files begin with those of the image. -/
structure Begins (d : Disk) (im : Image) : Prop where
  idx : im.idx <+: d.idx.data
  dat : im.dat <+: d.dat.data

/-- Files of an image begin with it. -/
theorem Placed.begins {d : Disk} {im : Image} (placed : Placed d im) : Begins d im :=
  ⟨by rw [placed.idx], by rw [placed.dat]⟩

/-- The chains show the map, and every record names a region of the data file. -/
structure Chained (im : Image) (chain : Nat → List Nat) (m : Bindings) : Prop where
  linked : ∀ {h}, h < NHASH_DEF → Linked im.next (chainSlot h) (chain h)
  alive : ∀ {h o}, h < NHASH_DEF → o ∈ chain h → ∃ r, im.recAt o = some r
  shows : ∀ {h}, h < NHASH_DEF → Shows im h (chain h) m
  text : ∀ {o r}, im.recAt o = some r
    → ∃ d, im.chunkAt r.datoff = some d ∧ d.bytes.length + 1 = r.datlen

/-- Every record that is not blank is on its chain. -/
structure Sound (im : Image) (chain : Nat → List Nat) (m : Bindings) : Prop
    extends Chained im chain m where
  listed : ∀ {o r}, im.recAt o = some r → ¬ Blank r.key → o ∈ chain (hash r.key)

/-- A reader of the files finds the map. -/
def Stands (d : Disk) (m : Bindings) : Prop := ∃ im chain, Placed d im ∧ Sound im chain m

/-- Well-formed files that show a map are sound for it. -/
theorem WellFormed.sound {idx dat : List Byte} {im : Image} {chain : Nat → List Nat}
    {free : List Nat} {m : Bindings} (wf : WellFormed idx dat im chain free)
    (shows : ∀ {h}, h < NHASH_DEF → Shows im h (chain h) m)
    : Sound im chain m := by
  refine ⟨⟨wf.lists.linked, fun lt member => wf.lists.listed.mpr (.inr ⟨_, lt, member⟩), shows,
    wf.cover.text⟩, ?_⟩
  intro o r found nonblank
  rcases wf.lists.listed.mp ⟨r, found⟩ with inFree | ⟨h, lt, member⟩
  · exact absurd (wf.keys.blank inFree found) nonblank
  · rw [wf.keys.hashed lt member found]
    exact member

/-- Files that represent a map stand for it. -/
theorem Represents.stands {d : Disk} {m : Bindings} (rep : Represents d m) : Stands d m := by
  obtain ⟨im, chain, free, wf, shows⟩ := rep
  exact ⟨im, chain, ⟨wf.idxFile, wf.datFile⟩, wf.sound shows⟩

variable {p : Pid} {l : Offsets} {d : Disk} {im : Image} {db : DB}
  {chain : Nat → List Nat} {m : Bindings}

/-- Locks do not matter to the files. -/
theorem Placed.setLocks (placed : Placed d im) (fd : Fd) (a n : Nat) (kind : Option LockKind)
    : Placed (d.setLocks p fd a n kind) im :=
  ⟨placed.idx, placed.dat⟩

/-- Locks do not matter to the files. -/
theorem Begins.setLocks (begins : Begins d im) (fd : Fd) (a n : Nat) (kind : Option LockKind)
    : Begins (d.setLocks p fd a n kind) im :=
  ⟨begins.idx, begins.dat⟩

-----------------------------------------------------------------------------------------
-- One field, one record
-----------------------------------------------------------------------------------------

/-- `_db_readptr` at a chain pointer. -/
theorem yields_readptr (begins : Begins d im) {a v : Nat} (cell : im.next a = some v)
    : Yields p (dbReadptr a) l d (.done v) (l.move .idx (a + PTR_SZ)) d := by
  obtain ⟨q, at_, value⟩ := Image.cell_of_next cell
  simp only [dbReadptr, Prog.bind_eq, Prog.pure_eq, errDump_bind]
  refine yields_lseek (n := a) rfl ?_
  rw [if_neg (by omega)]
  refine yields_read (b := q.enc) ?_ ?_
  · rw [Offsets.move_at]
    exact (pread_grown begins.idx (by rw [im.pread_cell at_, Ptr.enc_length])).trans
      (im.pread_cell at_)
  · rw [Ptr.enc_length, if_neg (by simp), q.atol_enc, value, Offsets.move_at, Offsets.move_move]
    exact yields_ret _

/-- The two reads of `_db_readidx` where its `lseek` leads to a record, whatever else is in the
file, and what follows from them.
-/
theorem yields_readidx_split {before after : List Byte} {r : Rec}
    (file : d.idx.data = before ++ r.enc ++ after) {offset : Int}
    (seeks : seekTarget d l .idx offset (if offset = 0 then .cur else .set) = before.length)
    : Yields p (dbReadidx db offset) l d (.done ((r.ptr.val : Int), db.load before.length r))
        (l.move .idx (before.length + r.enc.length)) d := by
  have data : (d.file .idx).data = before ++ r.enc ++ after := file
  simp only [dbReadidx, Prog.bind_eq, Prog.pure_eq, errDump_bind]
  refine yields_lseek (n := before.length) seeks ?_
  rw [if_neg (by omega)]
  refine yields_read (b := r.head) ?_ ?_
  · rw [Offsets.move_at, data]
    exact r.pread_head before after
  simp only [Offsets.move_at, Offsets.move_move, r.head_length, ne_eq, not_true_eq_false,
    if_false, r.head_take, r.ptr.atol_enc, r.sizeT_head, if_neg r.length_ok]
  refine yields_read (b := r.text) ?_ ?_
  · rw [Offsets.move_at, data]
    exact r.pread_text before after
  rw [if_neg (by simp), r.text_getLast, if_neg (by simp), r.parse, Offsets.move_at,
    Offsets.move_move, r.enc_length, Nat.add_assoc]
  exact yields_ret _

/-- `_db_readidx` where its `lseek` leads to a record of the image. -/
theorem yields_readidx_at (begins : Begins d im) {o : Nat} {r : Rec}
    (found : im.recAt o = some r) {offset : Int}
    (seeks : seekTarget d l .idx offset (if offset = 0 then .cur else .set) = o)
    : Yields p (dbReadidx db offset) l d (.done ((r.ptr.val : Int), db.load o r))
        (l.move .idx (o + r.enc.length)) d := by
  obtain ⟨before, after, split, rfl⟩ := im.recAt_split found
  obtain ⟨rest, file⟩ := begins.idx
  rw [split, List.append_assoc] at file
  exact yields_readidx_split file.symm seeks

/-- `_db_readidx` at the offset of a record. -/
theorem yields_readidx (begins : Begins d im) {o : Nat} {r : Rec} (found : im.recAt o = some r)
    : Yields p (dbReadidx db o) l d (.done ((r.ptr.val : Int), db.load o r))
        (l.move .idx (o + r.enc.length)) d := by
  have nonzero : (o : Int) ≠ 0 := by
    have pos := Image.recAt_pos found
    omega
  exact yields_readidx_at begins found (by rw [if_neg nonzero]; rfl)

/-- `_db_readidx` at the current offset, where a record starts. -/
theorem yields_readidx_next (begins : Begins d im) {r : Rec} (found : im.recAt l.idx = some r)
    : Yields p (dbReadidx db 0) l d (.done ((r.ptr.val : Int), db.load l.idx r))
        (l.move .idx (l.idx + r.enc.length)) d :=
  yields_readidx_at begins found (by simp [seekTarget, Offsets.at])

/-- `_db_readidx` at the current offset, at the end of the file. -/
theorem yields_readidx_end (last : d.idx.data.length ≤ l.idx)
    : Yields p (dbReadidx db 0) l d (.done (-1, { db with idxoff := (l.idx : Int) })) l d := by
  have here : l.at .idx = l.idx := rfl
  simp only [dbReadidx, Prog.bind_eq, Prog.pure_eq, errDump_bind, if_true, and_true]
  refine yields_lseek (n := l.idx) (by simp [seekTarget, here]) ?_
  rw [if_neg (by omega)]
  refine yields_read (b := []) ?_ ?_
  · rw [Offsets.move_at]
    exact pread_end last
  simp only [Offsets.move_at, Offsets.move_move, List.length_nil, Nat.add_zero]
  exact yields_ret _

/-- `_db_readdat` where the record names a region of the data file. -/
theorem yields_readdat (begins : Begins d im) {c : Nat} {data : CString}
    (chunk : im.chunkAt c = some data) (off : db.datoff = c)
    (len : db.datlen = data.bytes.length + 1)
    : Yields p (dbReaddat db) l d (.done (data.bytes, { db with datbuf := data.bytes }))
        (l.move .dat (c + db.datlen)) d := by
  simp only [dbReaddat, Prog.bind_eq, Prog.pure_eq, errDump_bind, off]
  refine yields_lseek (n := c) rfl ?_
  rw [if_neg (by omega)]
  refine yields_read (b := encChunk data) ?_ ?_
  · rw [Offsets.move_at, len]
    exact (pread_grown begins.dat (by rw [im.pread_chunk chunk, encChunk_length])).trans
      (im.pread_chunk chunk)
  rw [encChunk_length, len, if_neg (by simp), encChunk_getLast, if_neg (by simp),
    encChunk_dropLast, data.cstr_bytes, Offsets.move_at, Offsets.move_move]
  exact yields_ret _

-----------------------------------------------------------------------------------------
-- The chain walk
-----------------------------------------------------------------------------------------

/-- Where the record at an offset ends. -/
def Image.recEnd (im : Image) (o : Nat) : Nat :=
  o + ((im.recAt o).map fun r => r.enc.length).getD 0

/-- A record ends behind its bytes. -/
theorem Image.recEnd_eq {o : Nat} {r : Rec} (found : im.recAt o = some r)
    : im.recEnd o = o + r.enc.length := by
  simp [Image.recEnd, found]

/-- The offset of the index file after the records of a list have been read. -/
def Image.walkEnd (im : Image) (start : Nat) (list : List Nat) : Nat :=
  (list.getLast?.map im.recEnd).getD start

/-- A walk ends behind its last record. -/
theorem Image.walkEnd_append (im : Image) (start : Nat) (list : List Nat) (o : Nat)
    : im.walkEnd start (list ++ [o]) = im.recEnd o := by
  simp [Image.walkEnd]

/-- What a search of `_db_find_and_lock` reports about a key, the handle it leaves and the
offset at which it leaves the index file.
-/
inductive Finds (im : Image) (chain : Nat → List Nat) (key : List Byte)
    : Int → DB → Nat → Prop
  | absent {db : DB} (good : Good db) (chainoff : db.chainoff = chainSlot (hash key))
    (other : ∀ {o r}, o ∈ chain (hash key) → im.recAt o = some r → r.key ≠ key)
    : Finds im chain key (-1) db
        (im.walkEnd (chainSlot (hash key) + PTR_SZ) (chain (hash key)))
  | present {l₁ l₂ : List Nat} {o : Nat} {r : Rec} {db : DB}
    (split : chain (hash key) = l₁ ++ o :: l₂) (found : im.recAt o = some r)
    (same : r.key = key)
    (at_ : AtRecord db (hash key) (lastCell (chainSlot (hash key)) l₁) o r)
    (buffer : db.idxbuf = key)
    : Finds im chain key 0 db (o + r.enc.length)

/-- A round of the walk at a record with another key. -/
theorem yields_findRound_other (begins : Begins d im) {key : List Byte} {o : Nat} {r : Rec}
    (found : im.recAt o = some r) (other : r.key ≠ key)
    : Yields p (findRound key (o, db)) l d
        (.done (.inl ((r.ptr.val : Int), { db.load o r with ptroff := (o : Int) })))
        (l.move .idx (o + r.enc.length)) d := by
  have pos := Image.recAt_pos found
  rw [findRound, if_neg (by omega)]
  refine (yields_readidx begins found).bind ?_
  change Yields p (if r.key = key then _ else _) _ _ _ _ _
  rw [if_neg other]
  exact yields_ret _

/-- A round of the walk at the record of the key. -/
theorem yields_findRound_same (begins : Begins d im) {key : List Byte} {o : Nat} {r : Rec}
    (found : im.recAt o = some r) (same : r.key = key)
    : Yields p (findRound key (o, db)) l d (.done (.inr ((o : Int), db.load o r)))
        (l.move .idx (o + r.enc.length)) d := by
  have pos := Image.recAt_pos found
  rw [findRound, if_neg (by omega)]
  refine (yields_readidx begins found).bind ?_
  change Yields p (if r.key = key then _ else _) _ _ _ _ _
  rw [if_pos same]
  exact yields_ret _

/-- The walk from the cell behind `passed` on, by induction on the rest of the chain. -/
theorem Chained.loopEnds_find (chained : Chained im chain m) (begins : Begins d im)
    {key : List Byte} {passed rest : List Nat} (split : chain (hash key) = passed ++ rest)
    (skipped : ∀ {o r}, o ∈ passed → im.recAt o = some r → r.key ≠ key) (good : Good db)
    (chainoff : db.chainoff = chainSlot (hash key))
    (ptroff : db.ptroff = lastCell (chainSlot (hash key)) passed)
    (at_ : l.idx = im.walkEnd (chainSlot (hash key) + PTR_SZ) passed)
    : ∃ offset db' e,
        Prog.LoopEnds (kernel.alone p) (findRound key) ((rest.headD 0 : Nat), db) (l, d)
          (.done (offset, db')) (l.move .idx e, d)
        ∧ Finds im chain key (if offset = 0 then -1 else 0) db' e := by
  induction rest generalizing passed db l with
  | nil =>
      refine ⟨0, db, l.idx, ?_, ?_⟩
      · refine .leave ?_ (.inl ⟨(0, db), rfl, rfl⟩)
        have same : l.move .idx l.idx = l := rfl
        rw [same]
        exact yields_ret _
      · rw [at_, if_pos rfl]
        rw [List.append_nil] at split
        rw [← split]
        exact .absent good chainoff fun member => skipped (split ▸ member)
  | cons o rest ih =>
      have lt := hash_lt key
      obtain ⟨r, found⟩ := chained.alive lt (o := o) (by rw [split]; simp)
      have linked := chained.linked lt
      rw [split] at linked
      by_cases same : r.key = key
      · refine ⟨o, db.load o r, o + r.enc.length, ?_, ?_⟩
        · exact .leave (yields_findRound_same begins found same) (.inl ⟨_, rfl, rfl⟩)
        · have pos := Image.recAt_pos found
          rw [if_neg (by omega)]
          exact .present split found same ⟨good.load o r, chainoff, ptroff, rfl, rfl, rfl, rfl⟩ same
      · have next : (r.ptr.val : Int) = (rest.headD 0 : Nat) := by
          have entry := linked.drop.2.2.next_entry
          rw [Image.next, Image.cell_rec found] at entry
          exact congrArg Nat.cast (Option.some.inj entry)
        have skippedToo : ∀ {o' r'}, o' ∈ passed ++ [o] → im.recAt o' = some r'
            → r'.key ≠ key := by
          intro o' r' member at'
          rcases List.mem_append.mp member with before | here
          · exact skipped before at'
          · obtain rfl := List.mem_singleton.mp here
            obtain rfl : r = r' := Option.some.inj (found.symm.trans at')
            exact same
        obtain ⟨offset, db', e, loop, finds⟩ :=
          @ih { db.load o r with ptroff := (o : Int) } (passed ++ [o])
            (l := l.move .idx (o + r.enc.length)) (by rw [split]; simp) skippedToo
            ⟨good.nhash, good.hashoff⟩ chainoff (by simp [lastCell_append, lastCell])
            (by rw [im.walkEnd_append, Image.recEnd_eq found]; rfl)
        rw [← next] at loop
        refine ⟨offset, db', e, ?_, finds⟩
        exact .again (yields_findRound_other begins found same) loop

/-- `_db_find_and_lock` on files that stand for a map. -/
theorem Chained.yields_findAndLock (chained : Chained im chain m) (begins : Begins d im)
    (good : Good db) (key : List Byte) (writelock : Bool)
    : ∃ rc db' e,
        Yields p (dbFindAndLock db key writelock) l d (.done (rc, db')) (l.move .idx e)
          (d.setLocks p .idx (chainSlot (hash key)) 1 (some (findKind writelock)))
        ∧ Finds im chain key rc db' e := by
  have slot : dbHash db.nhash key * PTR_SZ + db.hashoff = chainSlot (hash key) := by
    rw [good.nhash, good.hashoff]
    rfl
  -- Both kinds of lock lead to the same search.
  have search : ∀ kind, ∃ rc db' e,
      Yields p
        ((dbReadptr (chainSlot (hash key))).bind fun offset =>
          (findLoop key
            (offset,
              { db with
                chainoff := (chainSlot (hash key) : Int)
                ptroff := (chainSlot (hash key) : Int) })).bind fun x =>
            Prog.ret ((if x.1 = 0 then -1 else 0 : Int), x.2)) l
        (d.setLocks p .idx (chainSlot (hash key)) 1 (some kind)) (.done (rc, db'))
        (l.move .idx e) (d.setLocks p .idx (chainSlot (hash key)) 1 (some kind))
      ∧ Finds im chain key rc db' e := by
    intro kind
    have begins' := begins.setLocks (p := p) .idx (chainSlot (hash key)) 1 (some kind)
    have entry := (chained.linked (hash_lt key)).next_entry
    have goodStart : Good
        { db with
          chainoff := (chainSlot (hash key) : Int)
          ptroff := (chainSlot (hash key) : Int) } :=
      ⟨good.nhash, good.hashoff⟩
    obtain ⟨offset, db', e, loop, finds⟩ := chained.loopEnds_find (p := p)
      (l := l.move .idx (chainSlot (hash key) + PTR_SZ)) begins'
      (List.nil_append (chain (hash key))).symm (by simp) goodStart rfl rfl rfl
    refine ⟨_, db', e, ?_, finds⟩
    refine (yields_readptr begins' entry).bind ?_
    rw [findLoop_eq]
    refine loop.next ?_
    rw [Offsets.move_move]
    exact yields_ret _
  simp only [dbFindAndLock, Prog.bind_eq, Prog.pure_eq, errDump_bind, slot]
  cases writelock with
  | true =>
      obtain ⟨rc, db', e, yields, finds⟩ := search .wr
      refine ⟨rc, db', e, ?_, finds⟩
      simp only [if_true]
      refine yields_writewLock ?_
      rw [if_neg (by decide)]
      exact yields
  | false =>
      obtain ⟨rc, db', e, yields, finds⟩ := search .rd
      refine ⟨rc, db', e, ?_, finds⟩
      simp only [Bool.false_eq_true, if_false]
      refine yields_readwLock ?_
      rw [if_neg (by decide)]
      exact yields

-----------------------------------------------------------------------------------------
-- Fetching
-----------------------------------------------------------------------------------------

/-- Locking and unlocking changes nothing for a process without locks. -/
theorem setLocks_undo (unlocked : d.locks p = noLocks) (fd : Fd) (a n : Nat)
    (kind : Option LockKind)
    : (d.setLocks p fd a n kind).setLocks p fd a n none = d := by
  have same : ((d.setLocks p fd a n kind).setLocks p fd a n none).locks = d.locks := by
    funext q
    by_cases eq : q = p
    · rw [eq, setLocks_self, setLocks_self, unlocked]
      exact relock_undo fun _ _ => rfl
    · rw [setLocks_other _ fd a n none eq, setLocks_other _ fd a n kind eq]
  exact congrArg (fun locks => { d with locks }) same

/-- A key without a record on its chain is not bound. -/
theorem Chained.unbound (chained : Chained im chain m) {key : List Byte}
    (other : ∀ {o r}, o ∈ chain (hash key) → im.recAt o = some r → r.key ≠ key)
    : m key = none := by
  cases bound : m key with
  | none => rfl
  | some data =>
      obtain ⟨o, r, member, found, same, -⟩ :=
        ((chained.shows (hash_lt key)).bound rfl data).mp bound
      exact absurd same (other member found)

/-- A key with a record on its chain is bound to the data of the record. -/
theorem Chained.bound (chained : Chained im chain m) {o : Nat} {r : Rec} {data : CString}
    (member : o ∈ chain (hash r.key)) (found : im.recAt o = some r)
    (chunk : im.chunkAt r.datoff = some data)
    : m r.key = some data :=
  ((chained.shows (hash_lt r.key)).bound rfl data).mpr ⟨o, r, member, found, rfl, chunk⟩

/-- Where `db_fetch` leaves the index file: behind the record of the key, or behind the last
record of the chain, or behind the pointer of an empty chain.
-/
inductive LeftAt (im : Image) (chain : Nat → List Nat) (key : List Byte) : Nat → Prop
  | found {o : Nat} {r : Rec} (member : o ∈ chain (hash key)) (found : im.recAt o = some r)
    (same : r.key = key)
    : LeftAt im chain key (o + r.enc.length)
  | absent (other : ∀ {o r}, o ∈ chain (hash key) → im.recAt o = some r → r.key ≠ key)
    : LeftAt im chain key (im.walkEnd (chainSlot (hash key) + PTR_SZ) (chain (hash key)))

/-- `db_fetch` answers as the map. -/
theorem Chained.yields_fetch (chained : Chained im chain m) (begins : Begins d im) (good : Good db)
    (unlocked : d.locks p = noLocks) (key : List Byte)
    : ∃ db' l', Yields p (dbFetch db key) l d (.done ((m key).map CString.bytes, db')) l' d
        ∧ Good db' ∧ LeftAt im chain key l'.idx := by
  obtain ⟨rc, db', e, search, finds⟩ :=
    chained.yields_findAndLock (p := p) (l := l) begins good key false
  have begins' := begins.setLocks (p := p) .idx (chainSlot (hash key)) 1 (some .rd)
  have undo := setLocks_undo unlocked .idx (chainSlot (hash key)) 1 (some .rd)
  simp only [dbFetch, Prog.bind_eq, Prog.pure_eq, errDump_bind]
  cases finds with
  | absent goodDb chainoff other =>
      refine ⟨{ db' with cntFetcherr := db'.cntFetcherr + 1 },
        l.move .idx (im.walkEnd (chainSlot (hash key) + PTR_SZ) (chain (hash key))),
        search.bind ?_, ⟨goodDb.nhash, goodDb.hashoff⟩, .absent other⟩
      dsimp only
      rw [if_pos (by decide), Prog.ret_bind, chained.unbound other]
      refine yields_unLock ?_
      rw [if_neg (by decide)]
      simp only [chainoff, Int.toNat_natCast, findKind, Bool.false_eq_true, if_false, undo]
      exact yields_ret _
  | @present l₁ l₂ o r _ split found same at_ buffer =>
      have member : o ∈ chain (hash key) := by simp [split]
      obtain ⟨data, chunk, size⟩ := chained.text found
      have bound : m key = some data := same ▸ chained.bound (same ▸ member) found chunk
      refine ⟨{ db' with datbuf := data.bytes, cntFetchok := db'.cntFetchok + 1 },
        (l.move .idx (o + r.enc.length)).move .dat (r.datoff + db'.datlen),
        search.bind ?_, ⟨at_.good.nhash, at_.good.hashoff⟩, .found member found same⟩
      dsimp only
      rw [if_neg (by decide), bound]
      refine (yields_readdat begins' chunk at_.datoff (at_.datlen.trans size.symm)).bind ?_
      refine yields_unLock ?_
      rw [if_neg (by decide)]
      simp only [at_.chainoff, Int.toNat_natCast, undo]
      exact yields_ret _

-----------------------------------------------------------------------------------------
-- Scanning
-----------------------------------------------------------------------------------------

/-- What a scan returns for a record: nothing where the key is blank. -/
def Image.pair (im : Image) (r : Rec) : Option (List Byte × List Byte) :=
  if r.key.all (· = SPACE) then none
  else (im.chunkAt r.datoff).map fun data => (r.key, data.bytes)

/-- What a scan returns for records that follow each other in the index file. -/
def Image.live (im : Image) (recs : List Rec) : List (List Byte × List Byte) :=
  recs.filterMap im.pair

/-- The offset of the index file is at the first of the records `rest`, which are its last. -/
structure Ahead (im : Image) (l : Offsets) (rest : List Rec) : Prop where
  split : ∃ before, im.recs = before ++ rest ∧ l.idx = RECS_OFF + (render Rec.enc before).length

/-- The current offset is that of the first record ahead. -/
theorem Ahead.first {r : Rec} {rest : List Rec} (ahead : Ahead im l (r :: rest))
    : im.recAt l.idx = some r := by
  obtain ⟨before, split, at_⟩ := ahead.split
  rw [Image.recAt, split, at_]
  exact tileAt_of_split Rec.enc_pos _ _ _ _

/-- The record ahead has been read. -/
theorem Ahead.next {r : Rec} {rest : List Rec} (ahead : Ahead im l (r :: rest))
    : Ahead im (l.move .idx (l.idx + r.enc.length)) rest := by
  obtain ⟨before, split, at_⟩ := ahead.split
  refine ⟨before ++ [r], by simp [split], ?_⟩
  simp only [render_append, render_cons, render_nil, List.append_nil, List.length_append]
  change l.idx + r.enc.length = _
  omega

/-- No record is ahead at the end of the file. -/
theorem Ahead.done (ahead : Ahead im l []) : l.idx = im.idx.length := by
  obtain ⟨before, split, at_⟩ := ahead.split
  rw [List.append_nil] at split
  simp [Image.idx, split, at_]

/-- The offset of the data file does not matter to a scan. -/
theorem Ahead.congr {l' : Offsets} {rest : List Rec} (ahead : Ahead im l rest)
    (same : l'.idx = l.idx)
    : Ahead im l' rest :=
  ⟨same ▸ ahead.split⟩

/-- One round of the loop of `db_nextrec`. -/
def scanRound (db : DB) : M (DB ⊕ (Option (List Byte) × DB)) :=
  (dbReadidx db 0).bind fun (next, db) =>
    if next < 0 then Prog.ret (.inr (none, db))
    else if db.idxbuf.all (· = SPACE) then Prog.ret (.inl db)
    else Prog.ret (.inr (some db.idxbuf, db))

/-- The loop of `db_nextrec` as rounds. -/
theorem scanLoop_eq (db : DB) : scanLoop db = Prog.iter db scanRound := rfl

/-- What the loop of `db_nextrec` leaves. -/
inductive Skips (im : Image) (rest : List Rec) : Option (List Byte) → DB → Offsets → Prop
  | none {db : DB} {l : Offsets} (good : Good db) (ahead : Ahead im l [])
    (empty : im.live rest = [])
    : Skips im rest none db l
  | some {db : DB} {l : Offsets} {o : Nat} {r : Rec} {after : List Rec} (good : Good db)
    (ahead : Ahead im l after) (live : im.live rest = im.live (r :: after))
    (found : im.recAt o = some r) (nonblank : r.key.all (· = SPACE) = false)
    (datoff : db.datoff = r.datoff) (datlen : db.datlen = r.datlen)
    : Skips im rest (some r.key) db l

/-- The loop skips blank records, by induction on the records ahead. -/
theorem loopEnds_scan (placed : Placed d im) {rest : List Rec} (good : Good db)
    (ahead : Ahead im l rest)
    : ∃ key db' l',
        Prog.LoopEnds (kernel.alone p) scanRound db (l, d) (.done (key, db')) (l', d)
        ∧ Skips im rest key db' l' := by
  induction rest generalizing db l with
  | nil =>
      refine ⟨none, { db with idxoff := (l.idx : Int) }, l, ?_,
        .none ⟨good.nhash, good.hashoff⟩ ahead rfl⟩
      have last : d.idx.data.length ≤ l.idx := by rw [placed.idx, ahead.done]
      refine .leave ((yields_readidx_end last).bind ?_) (.inl ⟨_, rfl, rfl⟩)
      exact yields_ret _
  | cons r rest ih =>
      have read : Yields p (dbReadidx db 0) l d _ _ _ :=
        yields_readidx_next placed.begins ahead.first
      have nonneg : ¬ (r.ptr.val : Int) < 0 := by omega
      cases blank : r.key.all (· = SPACE) with
      | true =>
          obtain ⟨key, db', l', loop, skips⟩ :=
            ih (good.load l.idx r) ahead.next
          have same : im.live (r :: rest) = im.live rest := by
            simp [Image.live, Image.pair, blank]
          refine ⟨key, db', l', .again (read.bind ?_) loop, ?_⟩
          · dsimp only
            rw [if_neg nonneg, show (db.load l.idx r).idxbuf.all (· = SPACE) = true from blank,
              if_pos rfl]
            exact yields_ret _
          · cases skips with
            | none good ahead empty => exact .none good ahead (same.trans empty)
            | some good ahead live found nonblank datoff datlen =>
                exact .some good ahead (same.trans live) found nonblank datoff datlen
      | false =>
          refine ⟨some r.key, db.load l.idx r, l.move .idx (l.idx + r.enc.length),
            .leave (read.bind ?_) (.inl ⟨_, rfl, rfl⟩), ?_⟩
          · dsimp only
            rw [if_neg nonneg, show (db.load l.idx r).idxbuf.all (· = SPACE) = false from blank,
              if_neg Bool.false_ne_true]
            exact yields_ret _
          · exact .some (good.load _ r) ahead.next rfl ahead.first blank rfl rfl

/-- `db_nextrec` returns the first live record ahead, and goes on behind it. -/
theorem Chained.yields_nextrec (chained : Chained im chain m) (placed : Placed d im)
    (good : Good db) (unlocked : d.locks p = noLocks) {rest : List Rec} (ahead : Ahead im l rest)
    : ∃ db' l' rest',
        Yields p (dbNextrec db) l d (.done ((im.live rest).head?, db')) l' d
        ∧ Good db' ∧ Ahead im l' rest' ∧ im.live rest' = (im.live rest).tail := by
  have placed' := placed.setLocks (p := p) .idx FREE_OFF 1 (some .rd)
  have undo := setLocks_undo unlocked .idx FREE_OFF 1 (some .rd)
  obtain ⟨key, db', l', loop, skips⟩ := loopEnds_scan (p := p) placed' good ahead
  simp only [dbNextrec, Prog.bind_eq, Prog.pure_eq, errDump_bind, scanLoop_eq]
  cases skips with
  | none goodDb done empty =>
      refine ⟨db', l', [], yields_readwLock ?_, goodDb, done, by rw [empty]; rfl⟩
      rw [if_neg (by decide), empty]
      refine loop.next ?_
      rw [Prog.ret_bind]
      refine yields_unLock ?_
      rw [if_neg (by decide), undo]
      exact yields_ret _
  | @some _ _ o r after goodDb ahead' live found nonblank datoff datlen =>
      obtain ⟨data, chunk, size⟩ := chained.text found
      have pair : im.pair r = some (r.key, data.bytes) := by
        simp [Image.pair, nonblank, chunk]
      have whole : im.live rest = (r.key, data.bytes) :: im.live after := by
        rw [live, Image.live, List.filterMap_cons_some pair]
        rfl
      refine ⟨{ db' with datbuf := data.bytes, cntNextrec := db'.cntNextrec + 1 },
        l'.move .dat (r.datoff + db'.datlen), after, yields_readwLock ?_,
        ⟨goodDb.nhash, goodDb.hashoff⟩, ahead'.congr rfl, by rw [whole]; rfl⟩
      rw [if_neg (by decide), whole]
      refine loop.next ?_
      refine (yields_readdat placed'.begins chunk datoff (datlen.trans size.symm)).bind ?_
      refine yields_unLock ?_
      rw [if_neg (by decide), undo]
      exact yields_ret _

/-- `db_rewind` goes to the first record. -/
theorem yields_rewind (good : Good db)
    : Yields p (dbRewind db) l d (.done { db with idxoff := (RECS_OFF : Int) })
        (l.move .idx RECS_OFF) d := by
  simp only [dbRewind, Prog.bind_eq, Prog.pure_eq, errDump_bind, good.nhash]
  refine yields_lseek (n := RECS_OFF) rfl ?_
  rw [if_neg (by decide)]
  exact yields_ret _

/-- All records are ahead of the first offset. -/
theorem ahead_first (im : Image) (l : Offsets) : Ahead im (l.move .idx RECS_OFF) im.recs :=
  ⟨[], rfl, rfl⟩

-----------------------------------------------------------------------------------------
-- What a scan returns
-----------------------------------------------------------------------------------------

/-- The pairs of the live records. -/
theorem mem_live {recs : List Rec} {k v : List Byte}
    : (k, v) ∈ im.live recs
      ↔ ∃ r ∈ recs, r.key = k ∧ ¬ Blank k
        ∧ ∃ data, im.chunkAt r.datoff = some data ∧ data.bytes = v := by
  simp only [Image.live, List.mem_filterMap, Image.pair]
  constructor
  · rintro ⟨r, member, pair⟩
    split at pair
    · cases pair
    · rename_i nonblank
      obtain ⟨data, chunk, same⟩ := Option.map_eq_some_iff.mp pair
      cases same
      exact ⟨r, member, rfl, fun blank => nonblank (all_blank.mpr blank), data, chunk, rfl⟩
  · rintro ⟨r, member, rfl, nonblank, data, chunk, rfl⟩
    refine ⟨r, member, ?_⟩
    rw [if_neg fun all => nonblank (all_blank.mp all), chunk]
    rfl

/-- A record of the image starts somewhere. -/
theorem exists_recAt {r : Rec} (member : r ∈ im.recs) : ∃ o, im.recAt o = some r := by
  obtain ⟨before, after, split⟩ := List.append_of_mem member
  refine ⟨RECS_OFF + (render Rec.enc before).length, ?_⟩
  rw [Image.recAt, split]
  exact tileAt_of_split Rec.enc_pos _ _ _ _

/-- A record at an offset is one of the records. -/
theorem mem_recs_of_recAt {o : Nat} {r : Rec} (found : im.recAt o = some r) : r ∈ im.recs := by
  obtain ⟨before, after, split, -⟩ := tileAt_split found
  rw [split]
  simp

/-- A scan of all records returns the bindings whose keys are not blank. -/
theorem Sound.mem_live_recs (sound : Sound im chain m) {k v : List Byte}
    : (k, v) ∈ im.live im.recs ↔ ¬ Blank k ∧ (m k).map CString.bytes = some v := by
  rw [mem_live]
  constructor
  · rintro ⟨r, member, rfl, nonblank, data, chunk, rfl⟩
    obtain ⟨o, found⟩ := exists_recAt member
    refine ⟨nonblank, ?_⟩
    rw [sound.bound (sound.listed found nonblank) found chunk]
    rfl
  · rintro ⟨nonblank, bound⟩
    obtain ⟨data, holds, rfl⟩ := Option.map_eq_some_iff.mp bound
    obtain ⟨o, r, -, found, same, chunk⟩ :=
      ((sound.shows (hash_lt k)).bound rfl data).mp holds
    exact ⟨r, mem_recs_of_recAt found, same, nonblank, data, chunk, rfl⟩

/-- No key is returned twice, since its record is on its chain once. -/
theorem Sound.nodup_live (sound : Sound im chain m) {before rest : List Rec}
    (split : im.recs = before ++ rest)
    : ((im.live rest).map Prod.fst).Nodup := by
  induction rest generalizing before with
  | nil => exact .nil
  | cons r rest ih =>
      have tail := @ih (before ++ [r]) (by simp [split])
      cases pair : im.pair r with
      | none =>
          rw [Image.live, List.filterMap_cons_none pair]
          exact tail
      | some kv =>
          obtain ⟨key, value⟩ := kv
          rw [Image.live, List.filterMap_cons_some pair, List.map_cons, List.nodup_cons]
          refine ⟨?_, tail⟩
          intro again
          obtain ⟨⟨k, v⟩, later, rfl⟩ := List.mem_map.mp again
          obtain ⟨r', member, sameKey, nonblank, -⟩ := mem_live.mp later
          have here : r.key = k := by
            simp only [Image.pair] at pair
            split at pair
            · cases pair
            · obtain ⟨data, -, same⟩ := Option.map_eq_some_iff.mp pair
              exact congrArg Prod.fst same
          obtain ⟨mid, after, rfl⟩ := List.append_of_mem member
          -- Both records would be on the chain of the key, at different offsets.
          have first : im.recAt (RECS_OFF + (render Rec.enc before).length) = some r := by
            rw [Image.recAt, split]
            exact tileAt_of_split Rec.enc_pos _ _ _ _
          have second : im.recAt (RECS_OFF + (render Rec.enc (before ++ r :: mid)).length)
              = some r' := by
            rw [Image.recAt, show im.recs = (before ++ r :: mid) ++ r' :: after by simp [split]]
            exact tileAt_of_split Rec.enc_pos _ _ _ _
          have same := (sound.shows (hash_lt k)).distinct
            (here ▸ sound.listed first (here ▸ nonblank))
            (sameKey ▸ sound.listed second (sameKey ▸ nonblank)) first second
            (here.trans sameKey.symm)
          have positive := r.enc_pos
          simp only [render_append, render_cons, List.length_append] at same
          omega

end Minions.Db
