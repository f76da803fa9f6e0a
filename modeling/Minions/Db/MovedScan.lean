import Minions.Db.Readback
import Minions.Db.ScanEnd

/-! A fetch in the middle of a scan.
The position of a scan is the offset of the index file, and `db_fetch` leaves it where the walk
along a hash chain has ended: behind a record of the chain, or, if the chain is empty, inside
the table of chain pointers.
-/

namespace Minions.Db

open Minions.Data Minions.Logic

variable {p : Pid} {l l' : Offsets} {d : Disk} {im : Image} {db : DB}
  {chain : Nat → List Nat} {free : List Nat} {m : Bindings}

-----------------------------------------------------------------------------------------
-- Behind a record
-----------------------------------------------------------------------------------------

/-- Behind a record the scan goes on with the records that follow it in the index file. -/
theorem ahead_behind {o : Nat} {r : Rec} (found : im.recAt o = some r)
    : ∃ before after, im.recs = before ++ r :: after
        ∧ ∀ l : Offsets, l.idx = o + r.enc.length → Ahead im l after := by
  obtain ⟨before, after, split, place, -⟩ := tileAt_split found
  refine ⟨before, after, split, fun l at_ => ⟨before ++ [r], by simp [split], ?_⟩⟩
  simp only [render_append, render_cons, render_nil, List.append_nil, List.length_append]
  omega

/-- Where the chain of the key is not empty, `db_fetch` leaves the index file behind a record of
the chain, which is the record of the key if there is one.
-/
theorem Sound.leftAt_behind (sound : Sound im chain m) {key : List Byte}
    (nonempty : chain (hash key) ≠ [])
    : ∃ o r, o ∈ chain (hash key) ∧ im.recAt o = some r ∧ ((m key).isSome → r.key = key)
        ∧ ∀ e, LeftAt im chain key e → e = o + r.enc.length := by
  have lt := hash_lt key
  cases bound : m key with
  | some data =>
      obtain ⟨o, r, member, found, same, -⟩ := ((sound.shows lt).bound rfl data).mp bound
      refine ⟨o, r, member, found, fun _ => same, fun e left => ?_⟩
      cases left with
      | @found o' r' member' found' same' =>
          obtain rfl := (sound.shows lt).distinct member member' found found'
            (same.trans same'.symm)
          obtain rfl := Option.some.inj (found.symm.trans found')
          rfl
      | absent other => exact absurd same (other member found)
  | none =>
      have member := List.getLast_mem nonempty
      obtain ⟨r, found⟩ := sound.alive lt member
      refine ⟨_, r, member, found, nofun, fun e left => ?_⟩
      cases left with
      | @found o' r' member' found' same' =>
          obtain ⟨data, chunk, -⟩ := sound.text found'
          have holds := sound.bound (same' ▸ member') found' chunk
          rw [same', bound] at holds
          cases holds
      | absent other =>
          rw [← Image.recEnd_eq found, Image.walkEnd, List.getLast?_eq_some_getLast nonempty]
          rfl

/-- The live records around a record whose key is not blank. -/
theorem Sound.live_split (sound : Sound im chain m) {before after : List Rec} {r : Rec}
    (split : im.recs = before ++ r :: after) (nonblank : ¬ Blank r.key)
    : ∃ v, im.live im.recs = im.live before ++ (r.key, v) :: im.live after := by
  have member : r ∈ im.recs := by simp [split]
  obtain ⟨o, found⟩ := exists_recAt member
  obtain ⟨data, chunk, -⟩ := sound.text found
  have pair : im.pair r = some (r.key, data.bytes) := by
    rw [Image.pair, if_neg fun blank => nonblank (all_blank.mp blank), chunk]
    rfl
  refine ⟨data.bytes, ?_⟩
  rw [split, Image.live, List.filterMap_append, List.filterMap_cons_some pair]
  rfl

-----------------------------------------------------------------------------------------
-- Inside the table
-----------------------------------------------------------------------------------------

/-- A chain without a bound key is empty. -/
theorem WellFormed.chain_eq_nil {idx dat : List Byte} (wf : WellFormed idx dat im chain free)
    (sound : Sound im chain m) {h : Nat} (lt : h < NHASH_DEF)
    (unbound : ∀ k, (m k).isSome → hash k ≠ h)
    : chain h = [] := by
  refine List.eq_nil_iff_forall_not_mem.mpr fun o member => ?_
  obtain ⟨r, found⟩ := sound.alive lt member
  obtain ⟨data, chunk, -⟩ := sound.text found
  have hashed := wf.keys.hashed lt member found
  refine unbound r.key ?_ hashed
  rw [sound.bound (hashed ▸ member) found chunk]
  rfl

/-- After an empty chain `db_fetch` leaves the index file behind its pointer. -/
theorem LeftAt.empty {key : List Byte} {e : Nat} (left : LeftAt im chain key e)
    (empty : chain (hash key) = [])
    : e = chainSlot (hash key) + PTR_SZ := by
  cases left with
  | found member =>
      rw [empty] at member
      cases member
  | absent other => simp [Image.walkEnd, empty]

/-- What stands behind the pointer of a chain does not pass for an index record if the chain
after the next one is empty: its pointer is read as the length of the record.
-/
theorem Chained.recordAt_table (chained : Chained im chain m) {h : Nat} (lt : h + 2 < NHASH_DEF)
    (empty : chain (h + 2) = [])
    : recordAt im.idx (chainSlot h + PTR_SZ) = none := by
  have linked := chained.linked lt
  rw [empty] at linked
  obtain ⟨q, cell, value⟩ := Image.cell_of_next linked.next_entry
  have field : q.enc = padLeft PTR_SZ (decimal 0) := by rw [Ptr.enc, value]; rfl
  have next : chainSlot h + PTR_SZ + PTR_SZ = chainSlot (h + 2) := by
    simp only [chainSlot, PTR_SZ]
    omega
  have length : (pread im.idx (chainSlot h + PTR_SZ) (PTR_SZ + IDXLEN_SZ)).drop PTR_SZ
      = (padLeft PTR_SZ (decimal 0)).take IDXLEN_SZ := by
    rw [← field, ← Image.pread_cell cell, ← next]
    simp only [pread, List.drop_take, List.drop_drop, List.take_take]
    rfl
  have blank : sizeT (atol (cstr ((padLeft PTR_SZ (decimal 0)).take IDXLEN_SZ))) < IDXLEN_MIN := by
    decide +kernel
  simp only [recordAt, length]
  exact if_pos (.inr (.inl (.inl blank)))

/-- `db_nextrec` ends the process where the bytes at the offset do not pass for an index record.
-/
theorem nextrec_rejected (inside : l.idx < d.idx.data.length)
    (rejects : recordAt d.idx.data l.idx = none)
    : ∃ e l' d', Yields p (opCode .nextrec (some db)) l d (.stopped e) l' d' := by
  obtain ⟨out, l', read, reads⟩ :=
    scanReads (p := p) (l := l) (d := d.setLocks p .idx FREE_OFF 1 (some .rd)) db
  have file : (d.setLocks p .idx FREE_OFF 1 (some .rd)).idx = d.idx := rfl
  cases reads with
  | atEnd _ beyond _ =>
      rw [file] at beyond
      omega
  | accepted next db' _ found _ _ =>
      rw [file, rejects] at found
      cases found
  | rejected e _ _ _ =>
      have loop : Prog.LoopEnds (kernel.alone p) scanRound db
          (l, d.setLocks p .idx FREE_OFF 1 (some .rd)) (.stopped e) (l', _) :=
        .leave read.bind_stopped (.inr ⟨e, rfl, rfl⟩)
      refine ⟨e, l', d.setLocks p .idx FREE_OFF 1 (some .rd), Prog.Ends.bind_stopped ?_⟩
      rw [dbNextrec_eq]
      refine yields_readwLock ?_
      rw [if_neg (by decide)]
      exact loop.stopped

-----------------------------------------------------------------------------------------
-- The scan after the fetch
-----------------------------------------------------------------------------------------

/-- A scan that would return `all` goes on behind a record of the chain of the key, however far
it had come: behind the record of the key, if the key is bound.
-/
structure GoesBehind (p : Pid) (l : Offsets) (d : Disk) (db : DB) (m : Bindings) (key : CString)
    (all back : List (List Byte × List Byte)) (stop : List Byte)
    : Prop where
  suffix : back <:+ all
  bound : (m stop).isSome
  hashed : hash stop = hash key.bytes
  same : (m key.bytes).isSome → stop = key.bytes
  behind : ¬ Blank stop → ∃ front v, all = front ++ (stop, v) :: back
  scans : ∀ j n, ∃ mem l', Yields p
    (session (.rewind :: List.replicate j .nextrec
      ++ .fetch key :: List.replicate n .nextrec) (some db)) l d
    (.done (.unit :: scanned all j
      ++ .data ((m key.bytes).map CString.bytes) :: scanned back n, mem)) l' d

/-- A scan that would return `all` goes on inside the table of chain pointers, behind the pointer
of the chain of the key. The next call ends the process, unless the bytes there pass for an
index record; they do not if the chain after the next one is empty.
-/
structure GoesAstray (p : Pid) (l : Offsets) (d : Disk) (db : DB) (m : Bindings) (key : CString)
    (all : List (List Byte × List Byte))
    : Prop where
  fetches : ∀ j, ∃ db' l', Yields p
    (session (.rewind :: List.replicate j .nextrec ++ [.fetch key]) (some db)) l d
    (.done (.unit :: scanned all j ++ [.data none], some db')) l' d
    ∧ l'.idx = chainSlot (hash key.bytes) + PTR_SZ
    ∧ (recordAt d.idx.data (chainSlot (hash key.bytes) + PTR_SZ) = none →
      ∃ e l'' d', Yields p (opCode .nextrec (some db')) l' d (.stopped e) l'' d')
  rejects : hash key.bytes + 2 < NHASH_DEF
    → (∀ k, (m k).isSome → hash k ≠ hash key.bytes + 2)
    → recordAt d.idx.data (chainSlot (hash key.bytes) + PTR_SZ) = none

/-- Some bound key is on the chain of the key. -/
theorem Sound.goesBehind (sound : Sound im chain m) (placed : Placed d im) (good : Good db)
    (unlocked : d.locks p = noLocks) {key : CString}
    (keys : ∀ {o r}, o ∈ chain (hash key.bytes) → im.recAt o = some r
      → hash r.key = hash key.bytes)
    (nonempty : chain (hash key.bytes) ≠ [])
    : ∃ back stop, GoesBehind p l d db m key (im.live im.recs) back stop := by
  obtain ⟨o, r, member, found, same, leaves⟩ := sound.leftAt_behind nonempty
  have hashed := keys member found
  obtain ⟨data, chunk, -⟩ := sound.text found
  obtain ⟨before, after, split, ahead⟩ := ahead_behind found
  refine ⟨im.live after, r.key, ⟨im.live (before ++ [r]), ?_⟩, ?_, hashed, same,
    fun nonblank => ?_, fun j n => ?_⟩
  · rw [Image.live, Image.live, ← List.filterMap_append, split, List.append_assoc]
    rfl
  · rw [sound.bound (hashed ▸ member) found chunk]
    rfl
  · obtain ⟨v, whole⟩ := sound.live_split split nonblank
    exact ⟨im.live before, v, whole⟩
  · obtain ⟨db₁, l₁, scan, good₁⟩ := sound.yields_rewind_scan placed good unlocked j
    obtain ⟨db₂, l₂, fetch, good₂, left⟩ :=
      sound.yields_fetch placed.begins good₁ unlocked key.bytes
    obtain ⟨db₃, l₃, rest, -⟩ :=
      sound.yields_scan placed good₂ unlocked (ahead l₂ (leaves _ left)) n
    refine ⟨some db₃, l₃, ?_⟩
    exact yields_session_append scan (yields_session_cons (fetch.bind (yields_ret _)) rest)

/-- No bound key is on the chain of the key. -/
theorem WellFormed.goesAstray (wf : WellFormed d.idx.data d.dat.data im chain free)
    (sound : Sound im chain m) (good : Good db) (unlocked : d.locks p = noLocks) {key : CString}
    (unshared : ∀ k, (m k).isSome → hash k ≠ hash key.bytes)
    : GoesAstray p l d db m key (im.live im.recs) := by
  have placed : Placed d im := ⟨wf.idxFile, wf.datFile⟩
  have lt := hash_lt key.bytes
  have empty := wf.chain_eq_nil sound lt unshared
  have unbound : m key.bytes = none :=
    Option.not_isSome_iff_eq_none.mp fun bound => unshared _ bound rfl
  refine ⟨fun j => ?_, fun two none_ => ?_⟩
  · obtain ⟨db₁, l₁, scan, good₁⟩ := sound.yields_rewind_scan placed good unlocked j
    obtain ⟨db₂, l₂, fetch, -, left⟩ := sound.yields_fetch placed.begins good₁ unlocked key.bytes
    rw [unbound] at fetch
    have place := left.empty empty
    refine ⟨db₂, l₂, ?_, place, fun rejects => nextrec_rejected ?_ (place ▸ rejects)⟩
    · have last : Yields p (session [] (some db₂)) l₂ d (.done ([], some db₂)) l₂ d := yields_ret _
      exact yields_session_append scan (yields_session_cons (fetch.bind (yields_ret _)) last)
    · have size := recs_le_idx im
      simp only [chainSlot, HASH_OFF, PTR_SZ, RECS_OFF, NHASH_DEF] at lt size place
      rw [place, placed.idx]
      omega
  · rw [placed.idx]
    exact sound.recordAt_table two (wf.chain_eq_nil sound two none_)

/-- A `db_fetch` between two calls of `db_nextrec` moves the scan. If some bound key is on the
chain of the key, the calls that remain return the bindings behind the record at which the walk
along the chain ended, and then `NULL`. Otherwise the scan goes on inside the table of chain
pointers.
-/
theorem fetch_moves_scan (p : Pid) (l : Offsets) (d : Disk) (db : DB) (m : Bindings)
    (key : CString) (reached : Reached p l d (some db) m)
    (keys : ∀ k, (m k).isSome → SEP ∉ k) (contents : d.idx.data ≠ [])
    : ∃ all : List (List Byte × List Byte),
        (all.map Prod.fst).Nodup
        ∧ (∀ k v, (k, v) ∈ all ↔ ¬ Blank k ∧ (m k).map CString.bytes = some v)
        ∧ (∀ n, ∃ mem l', Yields p
          (session (.rewind :: List.replicate n .nextrec) (some db)) l d
          (.done (.unit :: scanned all n, mem)) l' d)
        ∧ ((∃ k, (m k).isSome ∧ hash k = hash key.bytes)
          → ∃ back stop, GoesBehind p l d db m key all back stop)
        ∧ ((∀ k, (m k).isSome → hash k ≠ hash key.bytes) → GoesAstray p l d db m key all) := by
  have good := reached.rests.2 db rfl
  rcases reached.clean keys with between | ⟨-, file, -⟩
  · obtain ⟨im, chain, free, wf, shows⟩ := between.represents
    have sound := wf.sound shows
    have placed : Placed d im := ⟨wf.idxFile, wf.datFile⟩
    refine ⟨im.live im.recs, sound.nodup_live (List.nil_append im.recs).symm,
      fun k v => sound.mem_live_recs, fun n => ?_, ?_,
      wf.goesAstray sound good between.unlocked⟩
    · obtain ⟨db', l', scan, -⟩ := sound.yields_rewind_scan placed good between.unlocked n
      exact ⟨some db', l', scan⟩
    · rintro ⟨k, bound, same⟩
      obtain ⟨data, holds⟩ := Option.isSome_iff_exists.mp bound
      obtain ⟨o, -, member, -⟩ := ((sound.shows (hash_lt key.bytes)).bound same data).mp holds
      exact sound.goesBehind placed good between.unlocked
        (fun member found => wf.keys.hashed (hash_lt key.bytes) member found)
        (List.ne_nil_of_mem member)
  · exact absurd file contents

/-- Witness: one key is bound. A fetch of it moves the scan behind its record; a fetch of the
other one makes the next `db_nextrec` end the process.
-/
theorem fetch_moves_scan_sample
    : ∃ l d db, Reached 1 l d (some db) (Bindings.empty.set keyA.bytes (some dataOne))
        ∧ (∃ back mem l', Yields 1 (session [.rewind, .fetch keyA, .nextrec] (some db)) l d
          (.done ([.unit, .data (some dataOne.bytes), .record back], mem)) l' d)
        ∧ ∃ first db' l' e l'' d',
            Yields 1 (session [.rewind, .nextrec, .fetch keyB] (some db)) l d
              (.done ([.unit, .record first, .data none], some db')) l' d
            ∧ Yields 1 (opCode .nextrec (some db')) l' d (.stopped e) l'' d' := by
  obtain ⟨-, -, -, l, d, db, -, -, reached⟩ := reached_accepted keyA dataOne (by decide +kernel)
  have hashes : ∀ k, (Bindings.empty.set keyA.bytes (some dataOne) k).isSome → hash k = 97 := by
    intro k bound
    rw [show k = keyA.bytes from only_keyA_eq bound]
    decide +kernel
  have clean : ∀ k, (Bindings.empty.set keyA.bytes (some dataOne) k).isSome → SEP ∉ k := by
    intro k bound
    exact (only_keyA bound).1
  have moves := fun key => fetch_moves_scan 1 l d db _ key reached clean
    (reached.contents clean ⟨keyA.bytes, rfl⟩)
  refine ⟨l, d, db, reached, ?_, ?_⟩
  · obtain ⟨all, -, -, -, behind, -⟩ := moves keyA
    obtain ⟨back, stop, goes⟩ := behind ⟨keyA.bytes, rfl, rfl⟩
    obtain ⟨mem, l', ends⟩ := goes.scans 0 1
    rw [Bindings.set_self, scanned_succ] at ends
    exact ⟨back.head?, mem, l', ends⟩
  · obtain ⟨all, -, -, -, -, astray⟩ := moves keyB
    have other : hash keyB.bytes = 98 := by decide +kernel
    have goes := astray fun k bound => by
      have := hashes k bound
      omega
    obtain ⟨db', l', ends, -, stops⟩ := goes.fetches 1
    obtain ⟨e, l'', d', stopped⟩ := stops (goes.rejects (by rw [other]; decide) fun k bound => by
      have := hashes k bound
      omega)
    rw [scanned_succ] at ends
    exact ⟨all.head?, db', l', e, l'', d', ends, stopped⟩

/-- Two bindings are scanned. A `db_fetch` of the second key behind the first record makes the
next `db_nextrec` return `NULL` where it would have returned the second binding.
-/
theorem fetch_disturbs_scan
    : ∃ mem l d mem' l' d',
        Yields 1
          (session [.open true true, .store keyA dataOne DB_INSERT, .store keyB dataTwo DB_INSERT,
            .rewind, .nextrec, .nextrec] none) ⟨0, 0⟩ noDisk
          (.done ([.opened true, .code 0, .code 0, .unit,
            .record (some (keyA.bytes, dataOne.bytes)),
            .record (some (keyB.bytes, dataTwo.bytes))], mem)) l d
        ∧ Yields 1
          (session [.open true true, .store keyA dataOne DB_INSERT, .store keyB dataTwo DB_INSERT,
            .rewind, .nextrec, .fetch keyB, .nextrec] none) ⟨0, 0⟩ noDisk
          (.done ([.opened true, .code 0, .code 0, .unit,
            .record (some (keyA.bytes, dataOne.bytes)), .data (some dataTwo.bytes),
            .record none], mem')) l' d' := by
  have plain : ((session [.open true true, .store keyA dataOne DB_INSERT,
      .store keyB dataTwo DB_INSERT, .rewind, .nextrec, .nextrec] none).run (kernel.alone 1) 3
      (⟨0, 0⟩, noDisk)).1.value.map Prod.fst
      = some [.opened true, .code 0, .code 0, .unit,
          .record (some (keyA.bytes, dataOne.bytes)),
          .record (some (keyB.bytes, dataTwo.bytes))] := by
    decide +kernel
  have disturbed : ((session [.open true true, .store keyA dataOne DB_INSERT,
      .store keyB dataTwo DB_INSERT, .rewind, .nextrec, .fetch keyB, .nextrec] none).run
      (kernel.alone 1) 3 (⟨0, 0⟩, noDisk)).1.value.map Prod.fst
      = some [.opened true, .code 0, .code 0, .unit,
          .record (some (keyA.bytes, dataOne.bytes)), .data (some dataTwo.bytes),
          .record none] := by
    decide +kernel
  obtain ⟨⟨rs, mem⟩, ⟨l, d⟩, ends, rfl⟩ := Prog.Ends.of_value_map 3 plain
  obtain ⟨⟨rs', mem'⟩, ⟨l', d'⟩, ends', rfl⟩ := Prog.Ends.of_value_map 3 disturbed
  exact ⟨mem, l, d, mem', l', d', ends, ends'⟩

end Minions.Db
