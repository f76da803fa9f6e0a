import Minions.Db.Opening
import Minions.Db.TornScan

/-! What a process finds in the files after a store has ended another one.
A new binding that could not be written leaves nothing that is read, unless its record is in
the index file and on no chain; a replacement has lost the old binding, unless the new data
would have taken its place and was not written.
-/

namespace Minions.Db

open Minions.Data Minions.Logic

variable {p q : Pid} {l l' : Offsets} {d d' : Disk} {im im' : Image} {db : DB}
  {chain : Nat → List Nat} {m m' : Bindings} {key data : CString}

-----------------------------------------------------------------------------------------
-- Files that an append has torn
-----------------------------------------------------------------------------------------

/-- Data that no record names does not show. -/
theorem Chained.addChunk (chained : Chained im chain m) (data : CString)
    : Chained (im.addChunk data) chain m := by
  have same : ∀ {o r}, im.recAt o = some r
      → (im.addChunk data).chunkAt r.datoff = im.chunkAt r.datoff := by
    intro o r found
    obtain ⟨old, chunk, -⟩ := chained.text found
    have inside := im.chunkAt_range chunk
    rw [Image.chunkAt_addChunk, if_neg (by omega)]
  refine ⟨chained.linked, chained.alive, fun lt => ⟨(chained.shows lt).distinct, ?_⟩, ?_⟩
  · intro key hashed data'
    refine ((chained.shows lt).bound hashed data').trans ?_
    constructor
    · rintro ⟨o, r, member, found, sameKey, chunk⟩
      exact ⟨o, r, member, found, sameKey, (same found).trans chunk⟩
    · rintro ⟨o, r, member, found, sameKey, chunk⟩
      exact ⟨o, r, member, found, sameKey, (same found).symm.trans chunk⟩
  · intro o r found
    obtain ⟨old, chunk, size⟩ := chained.text found
    exact ⟨old, (same found).trans chunk, size⟩

/-- The records of the index file stay when one is added. -/
theorem Image.recAt_addRec_of_some {o : Nat} {r r' : Rec} (found : im.recAt o = some r)
    : (im.addRec r').recAt o = some r := by
  have inside := (im.recAt_range found).2
  have positive := r.enc_pos
  rw [Image.recAt_addRec, if_neg (by omega)]
  exact found

/-- A record on no chain does not show, if it names a region. -/
theorem Chained.addRec (chained : Chained im chain m) {r : Rec} {data : CString}
    (chunk : im.chunkAt r.datoff = some data) (size : data.bytes.length + 1 = r.datlen)
    : Chained (im.addRec r) chain m := by
  have back : ∀ {h o r'}, h < NHASH_DEF → o ∈ chain h → (im.addRec r).recAt o = some r'
      → im.recAt o = some r' := by
    intro h o r' lt member found
    obtain ⟨r₁, found₁⟩ := chained.alive lt member
    rw [Image.recAt_addRec_of_some found₁] at found
    exact found₁.trans found
  refine ⟨fun {h} lt => ?_, fun lt member => ?_, fun {h} lt => ⟨?_, ?_⟩, ?_⟩
  · refine (chained.linked lt).congr fun b member => ?_
    rw [Image.next_addRec]
    refine if_neg ?_
    rcases List.mem_cons.mp member with rfl | later
    · obtain ⟨q, cell⟩ := chain_cell im lt
      have inside := Image.cell_range cell
      simp only [PTR_SZ] at inside
      omega
    · obtain ⟨r', found⟩ := chained.alive lt later
      have inside := (im.recAt_range found).2
      have positive := r'.enc_pos
      omega
  · obtain ⟨r', found⟩ := chained.alive lt member
    exact ⟨r', Image.recAt_addRec_of_some found⟩
  · intro o o' r₁ r₂ member member' found found' same
    exact (chained.shows lt).distinct member member' (back lt member found)
      (back lt member' found') same
  · intro key hashed data'
    refine ((chained.shows lt).bound hashed data').trans ?_
    constructor
    · rintro ⟨o, r', member, found, sameKey, chunk'⟩
      exact ⟨o, r', member, Image.recAt_addRec_of_some found, sameKey, chunk'⟩
    · rintro ⟨o, r', member, found, sameKey, chunk'⟩
      exact ⟨o, r', member, back lt member found, sameKey, chunk'⟩
  · intro o r' found
    rw [Image.recAt_addRec] at found
    split at found
    · obtain rfl := Option.some.inj found
      exact ⟨data, chunk, size⟩
    · exact chained.text found

/-- Whatever a torn append leaves, the chains show the same map. -/
theorem Torn.chained (torn : Torn im key data im') (chained : Chained im chain m)
    : Chained im' chain m := by
  cases torn with
  | refused _ => exact chained
  | unfit _ => exact chained.addChunk data
  | @unlinked r _ _ _ _ datoff datlen =>
      have chunk : (im.addChunk data).chunkAt r.datoff = some data := by
        rw [Image.chunkAt_addChunk, if_pos datoff]
      exact (chained.addChunk data).addRec chunk datlen.symm

/-- A torn append of a record that is not in the file, or is blank, leaves nothing that is
read.
-/
theorem Torn.sound (torn : Torn im key data im') (sound : Sound im chain m)
    (hidden : ¬ Storable data ∨ ¬ Fits key data im.dat.length ∨ Blank key.bytes)
    : Sound im' chain m := by
  refine ⟨torn.chained sound.toChained, ?_⟩
  cases torn with
  | refused _ => exact sound.listed
  | unfit _ => exact sound.listed
  | @unlinked r storable fits _ sameKey _ _ =>
      intro o r' found nonblank
      rw [Image.recAt_addRec] at found
      split at found
      · obtain rfl := Option.some.inj found
        rcases hidden with long | unfit | blank
        · exact absurd storable long
        · exact absurd fits unfit
        · exact absurd (sameKey ▸ blank) nonblank
      · exact sound.listed found nonblank

-----------------------------------------------------------------------------------------
-- Files that are opened afresh
-----------------------------------------------------------------------------------------

/-- What process `q` reads after it has opened the files is the map: `db_fetch` answers as the
map does, and `db_rewind` and repeated `db_nextrec` return each binding once and then `NULL`.
-/
def ReadsAs (q : Pid) (d : Disk) (m : Bindings) : Prop :=
  ∀ l, ∃ db l',
    Yields q (opCode (.open false false) none) l d (.done (.opened true, some db)) l' d
    ∧ (∀ key : CString, ∃ mem l'',
      Yields q (opCode (.fetch key) (some db)) l' d (.done (m.fetch key, mem)) l'' d)
    ∧ ∃ pairs : List (List Byte × List Byte),
        (pairs.map Prod.fst).Nodup
        ∧ (∀ k v, (k, v) ∈ pairs ↔ (m k).map CString.bytes = some v)
        ∧ ∀ n, ∃ mem l'',
          Yields q (session (.rewind :: List.replicate n .nextrec) (some db)) l' d
            (.done (.unit :: scanned pairs n, mem)) l'' d

/-- The answers of scans of every length determine the pairs. -/
theorem scanned_inj {pairs pairs' : List (List Byte × List Byte)}
    (same : ∀ n, scanned pairs n = scanned pairs' n)
    : pairs = pairs' := by
  refine List.ext_getElem? fun i => ?_
  have at_ := congrArg (fun answers => answers[i]?) (same (i + 1))
  simpa [scanned] using at_

/-- No handle. -/
theorem opened_none : Opened none := nofun

section Afresh

variable (reads : ReadsAs q d m')
include reads

/-- A fetch of files whose chains show a map tells its binding. -/
theorem ReadsAs.fetches (chained : Chained im chain m) (placed : Placed d im)
    (free : ∀ q, d.locks q = noLocks) (key : CString)
    : (m' key.bytes).map CString.bytes = (m key.bytes).map CString.bytes := by
  obtain ⟨db, l', opened, fetches, -⟩ := reads ⟨0, 0⟩
  obtain ⟨mem, l'', fetch⟩ := fetches key
  have good : Good db := (opCode_rest opened_none free opened).1 db rfl
  obtain ⟨db', l₁, fetch', -⟩ := chained.yields_fetch (l := l') placed.begins good (free q) key.bytes
  have value := (fetch.unique (fetch'.bind (yields_ret _))).1
  simp only [Prog.Outcome.done.injEq, Prod.mk.injEq] at value
  exact Res.data.inj value.1

/-- A scan of the files tells the live records. -/
theorem ReadsAs.scans (chained : Chained im chain m) (placed : Placed d im)
    (free : ∀ q, d.locks q = noLocks) {k v : List Byte}
    : (k, v) ∈ im.live im.recs ↔ (m' k).map CString.bytes = some v := by
  obtain ⟨db, l', opened, -, pairs, -, bindings, scans⟩ := reads ⟨0, 0⟩
  have good : Good db := (opCode_rest opened_none free opened).1 db rfl
  have same : im.live im.recs = pairs := by
    refine scanned_inj fun n => ?_
    obtain ⟨mem, l'', scan⟩ := scans n
    obtain ⟨db', l₁, scan', -⟩ := chained.yields_rewind_scan (l := l') placed good (free q) n
    have value := (scan'.unique scan).1
    simp only [Prog.Outcome.done.injEq, Prod.mk.injEq] at value
    exact (List.cons.inj value.1).2
  rw [same, bindings]

/-- No key with a separator and no blank key is bound, since a scan does not return it. -/
theorem ReadsAs.plain {k : List Byte} (bound : (m' k).isSome) : SEP ∉ k ∧ ¬ Blank k := by
  obtain ⟨db, l', opened, -, pairs, -, bindings, scans⟩ := reads ⟨0, 0⟩
  obtain ⟨data, holds⟩ := Option.isSome_iff_exists.mp bound
  have member : (k, data.bytes) ∈ pairs := (bindings k data.bytes).mpr (by rw [holds]; rfl)
  obtain ⟨i, lt, at_⟩ := List.getElem_of_mem member
  obtain ⟨mem, l'', scan⟩ := scans pairs.length
  obtain ⟨res, rs, mem₁, l₁, d₁, same, first, later⟩ := session_cons_inv scan
  obtain ⟨-, rfl⟩ := List.cons.inj same
  refine session_nextrec_plain later (v := data.bytes) ?_
  refine List.mem_map.mpr ⟨i, List.mem_range.mpr lt, ?_⟩
  rw [List.getElem?_eq_getElem lt, at_]

/-- An index file whose scans come to no end is not read as any map. -/
theorem ReadsAs.whole (free : ∀ q, d.locks q = noLocks) : ¬ TornTail im d := by
  intro tail
  obtain ⟨db, l', opened, -, pairs, -, -, scans⟩ := reads ⟨0, 0⟩
  have good : Good db := (opCode_rest opened_none free opened).1 db rfl
  obtain ⟨mem, l'', scan⟩ := scans (pairs.length + 1)
  obtain ⟨res, rs, mem₁, l₁, d₁, same, first, later⟩ := session_cons_inv scan
  obtain ⟨-, rfl⟩ := List.cons.inj same
  obtain ⟨value, disk⟩ := first.unique ((yields_rewind good).bind (yields_ret _))
  cases value
  cases disk
  have rewound : Good { db with idxoff := (RECS_OFF : Int) } := ⟨good.nhash, good.hashoff⟩
  refine tail.session_nextrec rewound (ahead_first im l') later ?_
  refine List.mem_map.mpr ⟨pairs.length, List.mem_range.mpr (Nat.lt_succ_self _), ?_⟩
  rw [List.getElem?_eq_none (Nat.le_refl _)]

/-- An index file without contents is not read as any map. -/
theorem ReadsAs.contents (free : ∀ q, d.locks q = noLocks) : d.idx.data ≠ [] := by
  intro file
  obtain ⟨db, l', opened, fetches, -⟩ := reads ⟨0, 0⟩
  have good : Good db := (opCode_rest opened_none free opened).1 db rfl
  obtain ⟨mem, l'', fetch⟩ := fetches keyA
  obtain ⟨r, w, first, -⟩ := fetch.of_bind
  exact fetch_bare file good first

end Afresh

-----------------------------------------------------------------------------------------
-- Failed stores
-----------------------------------------------------------------------------------------

/-- What process `q` reads is the map before a store, or the map with the new binding. -/
def Atomic (q : Pid) (d : Disk) (m : Bindings) (key data : CString) : Prop :=
  ∃ m', (m' = m ∨ m' = m.set key.bytes (some data)) ∧ ReadsAs q d m'

/-- A bound key stays bound. -/
theorem bound_either {k : List Byte} (either : m' = m ∨ m' = m.set key.bytes (some data))
    (bound : (m k).isSome)
    : (m' k).isSome := by
  rcases either with rfl | rfl
  · exact bound
  · unfold Bindings.set
    split
    · rfl
    · exact bound

/-- The store leaves the old bindings as they were: its data is refused at once, or the key is not
bound and nothing of the new record is read, or the data that would have taken the place of old
data of the same size is refused by `writev`.
-/
def Hidden (m : Bindings) (key data : CString) (off : Nat) : Prop :=
  ¬ Passes data
  ∨ (m key.bytes = none ∧ (¬ Storable data ∨ ¬ Fits key data off ∨ Blank key.bytes))
  ∨ (¬ Storable data ∧ ∃ old, m key.bytes = some old
      ∧ sizeT (toInt (data.bytes.length + 1 : Nat)) = old.bytes.length + 1)

/-- An aborted store of this kind has left files that stand for the bindings before. -/
theorem Aborted.sound (aborted : Aborted im chain m key data d) (sound : Sound im chain m)
    (hidden : Hidden m key data im.dat.length)
    : ∃ im', Placed d im' ∧ Sound im' chain m := by
  cases aborted with
  | refused _ placed => exact ⟨im, placed, sound⟩
  | @fresh im' unbound torn placed =>
      refine ⟨im', placed, torn.sound sound ?_⟩
      rcases hidden with wrong | ⟨-, hidden⟩ | ⟨long, -⟩
      · exact .inl fun storable => wrong storable.passes
      · exact hidden
      · exact .inl long
  | separated unbound separated =>
      rcases hidden with wrong | ⟨-, long | unfit | blank⟩ | ⟨long, -⟩
      · exact absurd separated.storable.passes wrong
      · exact absurd separated.storable long
      · exact absurd separated.fits unfit
      · exact absurd (blank _ separated.sep) (by decide)
      · exact absurd separated.storable long
  | @taken im' _ sound' _ placed => exact ⟨im', placed, sound'⟩
  | overwritten _ _ _ placed => exact ⟨im, placed, sound⟩
  | replaced passes bound differs _ _ _ _ =>
      rcases hidden with wrong | ⟨unbound, -⟩ | ⟨-, old, bound', same⟩
      · exact absurd passes wrong
      · rw [unbound] at bound
        cases bound
      · rw [bound] at bound'
        obtain rfl := Option.some.inj bound'
        exact absurd same differs

/-- After any other aborted store the files are not read as one of the two maps: a scan does not
come to its end or returns a record that no fetch finds, or the binding of a replaced key is lost.
-/
theorem Aborted.hidden (aborted : Aborted im chain m key data d) (sound : Sound im chain m)
    (free : ∀ q, d.locks q = noLocks) (atomic : Atomic q d m key data)
    : Hidden m key data im.dat.length := by
  obtain ⟨m', either, reads⟩ := atomic
  cases aborted with
  | refused wrong _ => exact .inl wrong
  | fresh unbound torn placed =>
      refine .inr (.inl ⟨unbound, ?_⟩)
      cases torn with
      | refused long => exact .inl long
      | unfit unfit => exact .inr (.inl unfit)
      | @unlinked r storable fits full sameKey datoff datlen =>
          have torn : Torn im key data ((im.addChunk data).addRec r) :=
            .unlinked storable fits full sameKey datoff datlen
          have chained := torn.chained sound.toChained
          refine .inr (.inr ?_)
          by_contra nonblank
          have live : (key.bytes, data.bytes)
              ∈ ((im.addChunk data).addRec r).live ((im.addChunk data).addRec r).recs := by
            refine mem_live.mpr ⟨r, ?_, sameKey, nonblank, data, ?_, rfl⟩
            · exact List.mem_append_right _ (List.mem_singleton_self r)
            · rw [Image.chunkAt_addRec, Image.chunkAt_addChunk, if_pos datoff]
          have scanned := (reads.scans chained placed free).mp live
          rw [reads.fetches chained placed free key, unbound] at scanned
          cases scanned
  | separated _ separated => exact absurd (separated.tornTail sound.text) (reads.whole free)
  | taken unbound _ misfit _ =>
      exact .inr (.inl ⟨unbound, misfit.imp_right .inl⟩)
  | overwritten long bound same _ => exact .inr (.inr ⟨long, _, bound, same⟩)
  | replaced _ bound _ _ sound₁ torn placed =>
      have fetched := reads.fetches (torn.chained sound₁.toChained) placed free key
      obtain ⟨data', holds⟩ :=
        Option.isSome_iff_exists.mp (bound_either either (by rw [bound]; rfl))
      rw [Bindings.set_self, holds] at fetched
      cases fetched

end Minions.Db
