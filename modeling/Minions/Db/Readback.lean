import Minions.Db.Accounts

/-! What a process reads back from the files its calls have left.
A scan walks the index file record by record, and its position is the offset of the index file,
which every other call moves.
-/

namespace Minions.Db

open Minions.Data Minions.Logic

variable {p : Pid} {l l' l'' : Offsets} {d d' d'' : Disk} {im : Image} {db : DB}
  {chain : Nat → List Nat} {m : Bindings}

-----------------------------------------------------------------------------------------
-- Scans
-----------------------------------------------------------------------------------------

/-- The answers of `n` calls of `db_nextrec` that return these pairs, and then `NULL`. -/
def scanned (pairs : List (List Byte × List Byte)) (n : Nat) : List Res :=
  (List.range n).map fun i => .record pairs[i]?

/-- The first answer of a scan and the others. -/
theorem scanned_succ (pairs : List (List Byte × List Byte)) (n : Nat)
    : scanned pairs (n + 1) = .record pairs.head? :: scanned pairs.tail n := by
  simp only [scanned, List.range_succ_eq_map, List.map_cons, List.map_map, List.head?_eq_getElem?]
  refine congrArg _ (List.map_congr_left fun i _ => ?_)
  simp

/-- Calls of `db_nextrec` from a record on return the live records from there on. Witness:
induction on the number of calls.
-/
theorem Chained.yields_scan (chained : Chained im chain m) (placed : Placed d im) (good : Good db)
    (unlocked : d.locks p = noLocks) {rest : List Rec} (ahead : Ahead im l rest) (n : Nat)
    : ∃ db' l', Yields p (session (List.replicate n .nextrec) (some db)) l d
        (.done (scanned (im.live rest) n, some db')) l' d
        ∧ Good db' := by
  induction n generalizing db l rest with
  | zero => exact ⟨db, l, yields_ret _, good⟩
  | succ n ih =>
      obtain ⟨db₁, l₁, rest₁, first, good₁, ahead₁, live⟩ :=
        chained.yields_nextrec (p := p) placed good unlocked ahead
      obtain ⟨db', l', later, good'⟩ := ih good₁ ahead₁
      rw [live] at later
      refine ⟨db', l', ?_, good'⟩
      rw [scanned_succ]
      exact yields_session_cons (first.bind (yields_ret _)) later

/-- `db_rewind` and calls of `db_nextrec`. -/
theorem Chained.yields_rewind_scan (chained : Chained im chain m) (placed : Placed d im)
    (good : Good db) (unlocked : d.locks p = noLocks) (n : Nat)
    : ∃ db' l', Yields p (session (.rewind :: List.replicate n .nextrec) (some db)) l d
        (.done (.unit :: scanned (im.live im.recs) n, some db')) l' d
        ∧ Good db' := by
  have good₁ : Good { db with idxoff := (RECS_OFF : Int) } := ⟨good.nhash, good.hashoff⟩
  obtain ⟨db', l', scan, good'⟩ :=
    chained.yields_scan placed good₁ unlocked (ahead_first im l) n
  refine ⟨db', l', ?_, good'⟩
  exact yields_session_cons ((yields_rewind good).bind (yields_ret _)) scan

/-- On an index file without contents every `db_nextrec` returns `NULL`. -/
theorem yields_nextrec_bare (file : d.idx.data = []) (unlocked : d.locks p = noLocks)
    : Yields p (dbNextrec db) l d (.done (none, { db with idxoff := (l.idx : Int) })) l d := by
  have undo := setLocks_undo unlocked .idx FREE_OFF 1 (some .rd)
  simp only [dbNextrec, Prog.bind_eq, Prog.pure_eq, errDump_bind, scanLoop_eq]
  refine yields_readwLock ?_
  rw [if_neg (by decide)]
  have empty : (d.setLocks p .idx FREE_OFF 1 (some .rd)).idx.data.length ≤ l.idx := by
    change d.idx.data.length ≤ l.idx
    simp [file]
  have round : Yields p (scanRound db) l (d.setLocks p .idx FREE_OFF 1 (some .rd))
      (.done (.inr (none, { db with idxoff := (l.idx : Int) }))) l
      (d.setLocks p .idx FREE_OFF 1 (some .rd)) :=
    (yields_readidx_end empty).bind (yields_ret _)
  refine Prog.LoopEnds.next (.leave round (.inl ⟨_, rfl, rfl⟩)) ?_
  refine yields_unLock ?_
  rw [if_neg (by decide), undo]
  exact yields_ret _

/-- A scan of an index file without contents returns no record. -/
theorem yields_scan_bare (file : d.idx.data = []) (unlocked : d.locks p = noLocks) (n : Nat)
    : ∃ db', Yields p (session (List.replicate n .nextrec) (some db)) l d
        (.done (scanned [] n, some db')) l d := by
  induction n generalizing db with
  | zero => exact ⟨db, yields_ret _⟩
  | succ n ih =>
      obtain ⟨db', later⟩ := @ih { db with idxoff := (l.idx : Int) }
      refine ⟨db', ?_⟩
      rw [scanned_succ]
      exact yields_session_cons ((yields_nextrec_bare file unlocked).bind (yields_ret _)) later

/-- In every state that a process can be in, if every bound key is free of the separator and is
not blank, `db_rewind` and repeated `db_nextrec` return each binding once, nothing else, and
then `NULL`. Witness: the live records of the index file.
-/
theorem scan_returns_bindings (p : Pid) (l : Offsets) (d : Disk) (db : DB) (m : Bindings)
    (reached : Reached p l d (some db) m)
    (keys : ∀ key, (m key).isSome → SEP ∉ key ∧ ¬ Blank key)
    : ∃ pairs : List (List Byte × List Byte),
        (pairs.map Prod.fst).Nodup
        ∧ (∀ k v, (k, v) ∈ pairs ↔ (m k).map CString.bytes = some v)
        ∧ ∀ n, ∃ mem l', Yields p (session (.rewind :: List.replicate n .nextrec) (some db)) l d
            (.done (.unit :: (List.range n).map fun i => .record pairs[i]?, mem)) l' d := by
  have good := reached.rests.2 db rfl
  rcases reached.clean fun key bound => (keys key bound).1 with between | ⟨free, file, rfl⟩
  · obtain ⟨im, chain, placed, sound⟩ := between.represents.stands
    refine ⟨im.live im.recs, sound.nodup_live (List.nil_append im.recs).symm, fun k v => ?_,
      fun n => ?_⟩
    · rw [sound.mem_live_recs]
      refine and_iff_right_of_imp fun bound => (keys k ?_).2
      obtain ⟨data, holds, -⟩ := Option.map_eq_some_iff.mp bound
      simp [holds]
    · obtain ⟨db', l', scan, -⟩ := sound.yields_rewind_scan placed good between.unlocked n
      exact ⟨some db', l', scan⟩
  · refine ⟨[], .nil, fun k v => by simp [Bindings.empty], fun n => ?_⟩
    obtain ⟨db', scan⟩ := yields_scan_bare (l := l.move .idx RECS_OFF) file (free p) n
    exact ⟨some db', _, yields_session_cons ((yields_rewind good).bind (yields_ret _)) scan⟩

/-- A process that makes a database and has its first store accepted. -/
theorem reached_accepted (key data : CString)
    (stored : ((session [.open true true, .store key data DB_INSERT] none).run (kernel.alone 1) 2
      (⟨0, 0⟩, noDisk)).1.value.map (fun r => (r.1, r.2.isSome))
        = some ([.opened true, .code 0], true))
    : ∃ l d db l' d' db', Reached 1 l d (some db) .empty
        ∧ Yields 1 (opCode (.store key data DB_INSERT) (some db)) l d
            (.done (.code 0, some db')) l' d'
        ∧ Reached 1 l' d' (some db') (Bindings.empty.set key.bytes (some data)) := by
  obtain ⟨⟨rs, mem⟩, ⟨l', d'⟩, ends, value⟩ := Prog.Ends.of_value_map 2 stored
  obtain ⟨rfl, some_⟩ := Prod.mk.inj value
  obtain ⟨db', rfl⟩ := Option.isSome_iff_exists.mp some_
  obtain ⟨res, rs, mem₁, l, d, same, first, later⟩ := session_cons_inv ends
  obtain ⟨rfl, rfl⟩ := List.cons.inj same
  obtain ⟨res, rs, mem₂, l₂, d₂, same, store, last⟩ := session_cons_inv later
  obtain ⟨rfl, rfl⟩ := List.cons.inj same
  obtain ⟨value, disk⟩ := last.unique (yields_ret _)
  cases value
  cases disk
  cases mem₁ with
  | none => exact absurd store (opCode_null nofun)
  | some db =>
      refine ⟨l, d, db, l', d', db', ?_, store, ?_⟩
      · exact ⟨⟨0, 0⟩, noDisk, [.open true true], [.opened true], fun _ => rfl, rfl,
          yields_session_cons first (yields_ret _), rfl⟩
      · exact ⟨⟨0, 0⟩, noDisk, _, _, fun _ => rfl, rfl, ends,
          by simp [Bindings.credits, Bindings.credit]⟩

/-- The sample key has no separator and is not blank. -/
theorem keyA_plain : SEP ∉ keyA.bytes ∧ ¬ Blank keyA.bytes :=
  ⟨by decide, fun blank => absurd (blank 97 (by decide)) (by decide)⟩

/-- The sample key is the only one that is bound. -/
theorem only_keyA_eq {key : List Byte}
    (bound : (Bindings.empty.set keyA.bytes (some dataOne) key).isSome)
    : key = keyA.bytes := by
  by_contra other
  rw [Bindings.set_other _ _ other] at bound
  simp [Bindings.empty] at bound

/-- The only key that is bound has no separator and is not blank. -/
theorem only_keyA {key : List Byte}
    (bound : (Bindings.empty.set keyA.bytes (some dataOne) key).isSome)
    : SEP ∉ key ∧ ¬ Blank key := by
  rw [only_keyA_eq bound]
  exact keyA_plain

/-- A session that has got these answers from a kernel without files has made these bindings. -/
theorem reached_credits {ops : List Op} {rs : List Res}
    (answers : ((session ops none).run (kernel.alone 1) 2 (⟨0, 0⟩, noDisk)).1.value.map
      (fun r => (r.1, r.2.isSome)) = some (rs, true))
    : ∃ l d db, Reached 1 l d (some db) (Bindings.empty.credits ops rs) := by
  obtain ⟨⟨rs, mem⟩, ⟨l, d⟩, ends, value⟩ := Prog.Ends.of_value_map 2 answers
  obtain ⟨rfl, some_⟩ := Prod.mk.inj value
  obtain ⟨db, rfl⟩ := Option.isSome_iff_exists.mp some_
  exact ⟨l, d, db, ⟨0, 0⟩, noDisk, ops, rs, fun _ => rfl, rfl, ends, rfl⟩

/-- A process makes a database and binds two keys. It deletes the first one, and binds a third one,
whose record takes the place of the deleted one.
-/
def reusing : List Op :=
  [.open true true, .store keyA dataOne DB_INSERT, .store keyB dataTwo DB_INSERT, .delete keyA,
    .store keyC dataOne DB_INSERT]

/-- The bindings of the second key and of the third one. -/
def reused : Bindings :=
  (((Bindings.empty.set keyA.bytes (some dataOne)).set keyB.bytes (some dataTwo)).set keyA.bytes
    none).set keyC.bytes (some dataOne)

/-- The bound keys of the sample have no separator and are not blank. -/
theorem reused_plain {key : List Byte} (bound : (reused key).isSome)
    : SEP ∉ key ∧ ¬ Blank key := by
  have letter : ∀ c : Byte, c ≠ SEP → c ≠ SPACE → SEP ∉ [c] ∧ ¬ Blank [c] := fun c sep space =>
    ⟨fun member => sep (List.mem_singleton.mp member).symm,
      fun blank => space (blank c (List.mem_singleton_self c))⟩
  simp only [reused, Bindings.set, Bindings.empty] at bound
  split at bound
  · next same => exact same ▸ letter 99 (by decide) (by decide)
  split at bound
  · cases bound
  split at bound
  · next same => exact same ▸ letter 98 (by decide) (by decide)
  cases bound

/-- A scan after a record has been deleted and its place has been taken by another key. -/
theorem scan_returns_bindings_sample
    : ∃ l d db, Reached 1 l d (some db) reused
        ∧ reused keyA.bytes = none ∧ reused keyB.bytes = some dataTwo
        ∧ reused keyC.bytes = some dataOne
        ∧ ∃ pairs : List (List Byte × List Byte),
            (pairs.map Prod.fst).Nodup
            ∧ (∀ k v, (k, v) ∈ pairs ↔ (reused k).map CString.bytes = some v)
            ∧ ∀ n, ∃ mem l',
                Yields 1 (session (.rewind :: List.replicate n .nextrec) (some db)) l d
                  (.done (.unit :: (List.range n).map fun i => .record pairs[i]?, mem)) l' d := by
  have answers : ((session reusing none).run (kernel.alone 1) 2 (⟨0, 0⟩, noDisk)).1.value.map
      (fun r => (r.1, r.2.isSome))
        = some ([.opened true, .code 0, .code 0, .code 0, .code 0], true) := by
    decide +kernel
  obtain ⟨l, d, db, reached⟩ := reached_credits answers
  have reached : Reached 1 l d (some db) reused := reached
  exact ⟨l, d, db, reached, rfl, rfl, rfl,
    scan_returns_bindings 1 l d db _ reached fun _ => reused_plain⟩

-----------------------------------------------------------------------------------------
-- Accepted stores
-----------------------------------------------------------------------------------------

/-- A binding can be read: `db_fetch` returns its data, and `db_rewind` and repeated
`db_nextrec` return it before `NULL`.
-/
structure Readable (p : Pid) (l : Offsets) (d : Disk) (db : DB) (key data : CString) : Prop where
  fetch : ∃ mem l', Yields p (opCode (.fetch key) (some db)) l d
    (.done (.data (some data.bytes), mem)) l' d
  scan : ∃ (pairs : List (List Byte × List Byte)) (mem : Option DB) (l' : Offsets),
    Yields p (session (.rewind :: List.replicate (pairs.length + 1) .nextrec) (some db)) l d
      (.done (.unit :: (pairs.map fun kv => Res.record (some kv))
        ++ [.record (some (key.bytes, data.bytes))], mem)) l' d

/-- The answers of a scan that stops at a pair. -/
theorem scanned_until (before after : List (List Byte × List Byte)) (kv : List Byte × List Byte)
    : scanned (before ++ kv :: after) (before.length + 1)
      = (before.map fun kv => Res.record (some kv)) ++ [.record (some kv)] := by
  induction before with
  | nil => rfl
  | cons first before ih =>
      rw [List.length_cons, scanned_succ]
      simp only [List.cons_append, List.tail_cons, ih, List.map_cons, List.head?_cons]

/-- No call of `db_nextrec` returns a key with a separator or a blank key, whatever the files
hold.
-/
theorem session_nextrec_plain {n : Nat} {mem mem' : Option DB} {rs : List Res}
    (ends : Yields p (session (List.replicate n .nextrec) mem) l d (.done (rs, mem')) l' d')
    {k v : List Byte} (member : .record (some (k, v)) ∈ rs)
    : SEP ∉ k ∧ ¬ Blank k := by
  induction n generalizing mem rs l d with
  | zero =>
      cases (ends.unique (yields_ret _)).1
      cases member
  | succ n ih =>
      obtain ⟨res, rs₁, mem₁, l₁, d₁, rfl, first, later⟩ := session_cons_inv ends
      rcases List.mem_cons.mp member with here | there
      · subst here
        cases mem with
        | none => exact absurd first (opCode_null nofun)
        | some db =>
            obtain ⟨⟨found, db₁⟩, ⟨l₃, d₃⟩, next, last⟩ := first.of_bind
            cases (last.unique (yields_ret _)).1
            exact ((onlyReads_nextrec db).ends next).1 k v rfl
      · exact ih later there

/-- A key with a separator cannot be fetched. -/
theorem Readable.clean {key data : CString} (readable : Readable p l d db key data)
    : SEP ∉ key.bytes := by
  intro sep
  obtain ⟨mem, l', ends⟩ := readable.fetch
  obtain ⟨⟨ptr, db₁⟩, ⟨l₁, d₁⟩, first, last⟩ := ends.of_bind
  obtain ⟨absent, -⟩ := (onlyReads_fetch db key.bytes).ends first
  have value := (last.unique (yields_ret _)).1
  dsimp only at absent
  rw [absent sep] at value
  cases value

/-- A blank key is not returned by a scan. -/
theorem Readable.nonblank {key data : CString} (readable : Readable p l d db key data)
    : ¬ Blank key.bytes := by
  obtain ⟨pairs, mem, l', ends⟩ := readable.scan
  obtain ⟨res, rs, mem₁, l₁, d₁, same, first, later⟩ := session_cons_inv ends
  obtain ⟨-, rfl⟩ := List.cons.inj same
  exact (session_nextrec_plain later (v := data.bytes) (by simp)).2

/-- A binding whose key is free of the separator and not blank can be read. -/
theorem Between.readable {key data : CString} (between : Between p d m) (good : Good db)
    (bound : m key.bytes = some data) (nonblank : ¬ Blank key.bytes)
    : Readable p l d db key data := by
  obtain ⟨im, chain, placed, sound⟩ := between.represents.stands
  constructor
  · obtain ⟨db', l', fetch, -⟩ := sound.yields_fetch (l := l) placed.begins good between.unlocked key.bytes
    rw [bound] at fetch
    exact ⟨some db', l', fetch.bind (yields_ret _)⟩
  · have member : (key.bytes, data.bytes) ∈ im.live im.recs :=
      sound.mem_live_recs.mpr ⟨nonblank, by rw [bound]; rfl⟩
    obtain ⟨before, after, split⟩ := List.append_of_mem member
    obtain ⟨db', l', scan, -⟩ :=
      sound.yields_rewind_scan (l := l) placed good between.unlocked (before.length + 1)
    rw [split, scanned_until] at scan
    exact ⟨before, some db', l', scan⟩

/-- Where no key with a separator has been bound so far, a store that returns 0 can be read back
exactly if its key is free of the separator and not blank.
-/
theorem accepted_readable_iff (p : Pid) (l l' : Offsets) (d d' : Disk) (db db' : DB)
    (m : Bindings) (key data : CString) (flag : Int) (reached : Reached p l d (some db) m)
    (keys : ∀ k, (m k).isSome → SEP ∉ k)
    (accepted : Yields p (opCode (.store key data flag) (some db)) l d
      (.done (.code 0, some db')) l' d')
    : Readable p l' d' db' key data ↔ SEP ∉ key.bytes ∧ ¬ Blank key.bytes := by
  constructor
  · exact fun readable => ⟨readable.clean, readable.nonblank⟩
  · rintro ⟨clean, nonblank⟩
    obtain ⟨rests, opened⟩ := reached.rests
    have ok : MayInvoke (fun _ => False) p (.store key data flag) := ⟨not_false, clean⟩
    have good' := (opCode_rest opened rests.free accepted).1 db' rfl
    rcases reached.clean keys with between | ⟨free, file, rfl⟩
    · obtain ⟨out, l₁, d₁, ends, post⟩ := call_alone (l := l) between (opened db rfl) ok
      obtain ⟨rfl, disk⟩ := accepted.unique ends
      obtain ⟨-, rfl⟩ := Prod.mk.inj disk
      obtain ⟨db₁, m', -, -, between', answers⟩ := post
      refine between'.readable good' ?_ nonblank
      rw [← answers_credit ok answers]
      simp [Bindings.credit]
    · obtain ⟨⟨rc, db₁⟩, w, first, last⟩ := accepted.of_bind
      obtain ⟨rfl, -⟩ := store_bare file (opened db rfl) first
      cases (last.unique (yields_ret _)).1

/-- A store of a plain key, which can be read. -/
theorem accepted_readable_iff_sample
    : ∃ l d db l' d' db',
        Yields 1 (opCode (.store keyA dataOne DB_INSERT) (some db)) l d
          (.done (.code 0, some db')) l' d'
        ∧ Readable 1 l' d' db' keyA dataOne := by
  obtain ⟨l, d, db, l', d', db', reached, accepted, -⟩ :=
    reached_accepted keyA dataOne (by decide +kernel)
  refine ⟨l, d, db, l', d', db', accepted, ?_⟩
  exact (accepted_readable_iff 1 l l' d d' db db' _ keyA dataOne DB_INSERT reached nofun
    accepted).mpr keyA_plain

/-- A key with a separator. -/
def keySep : CString := ⟨[97, 58, 98], by decide⟩

/-- A process makes a database and stores data under the key `a:b`. The store returns 0, and the
data cannot be read back.
-/
theorem accepted_not_readable
    : ¬ ∀ (p : Pid) (l l' : Offsets) (d d' : Disk) (db db' : DB) (m : Bindings)
        (key data : CString) (flag : Int), Reached p l d (some db) m
        → Yields p (opCode (.store key data flag) (some db)) l d (.done (.code 0, some db')) l' d'
        → Readable p l' d' db' key data := by
  intro claim
  obtain ⟨l, d, db, l', d', db', reached, accepted, -⟩ :=
    reached_accepted keySep dataOne (by decide +kernel)
  have readable := claim 1 l l' d d' db db' .empty keySep dataOne DB_INSERT reached accepted
  exact readable.clean (by decide)

end Minions.Db
