import Minions.Db.Readback
import Minions.Db.ScanEnd
import Minions.Db.Storing

/-! Scans of an index file that ends with the record of a key with a separator.
Such a record has a separator too many, and no call that reads it goes on: a scan of the file
aborts before it could return `NULL`.
-/

namespace Minions.Db

open Minions.Data Minions.Logic

variable {p : Pid} {l l' : Offsets} {d d' : Disk} {im : Image} {db db' : DB}
  {chain : Nat → List Nat} {m : Bindings} {key data : CString}

-----------------------------------------------------------------------------------------
-- A record with a separator too many
-----------------------------------------------------------------------------------------

/-- The first split of a text with a separator leaves all that is behind that separator. -/
theorem splitSep_suffix (before after : List Byte)
    : ∃ front rest, splitSep (before ++ SEP :: after) = some (front, rest) ∧ after <:+ rest := by
  by_cases sep : SEP ∈ before
  · obtain ⟨front, rest, rfl, first⟩ := List.eq_append_cons_of_mem sep
    refine ⟨front, rest ++ SEP :: after, ?_, ⟨rest ++ [SEP], by simp⟩⟩
    rw [List.append_assoc, List.cons_append]
    exact splitSep_append fun b member same => first (same ▸ member)
  · exact ⟨before, after, splitSep_append fun b member same => sep (same ▸ member), List.suffix_rfl⟩

/-- A text with three separators is refused. -/
theorem textKey_separated {key : List Byte} (sep : SEP ∈ key) (off len : List Byte)
    : textKey (key ++ SEP :: (off ++ SEP :: len)) = none := by
  obtain ⟨front, rest, rfl, first⟩ := List.eq_append_cons_of_mem sep
  have split : splitSep ((front ++ SEP :: rest) ++ SEP :: (off ++ SEP :: len))
      = some (front, rest ++ SEP :: (off ++ SEP :: len)) := by
    rw [List.append_assoc, List.cons_append]
    exact splitSep_append fun b member same => first (same ▸ member)
  obtain ⟨ptr1, ptr2, second, suffix⟩ := splitSep_suffix rest (off ++ SEP :: len)
  have third : SEP ∈ ptr2 := suffix.subset (by simp)
  simp only [textKey, split, second, if_pos (.inl third : SEP ∈ ptr2 ∨ _)]

/-- The front of a record tells the length of its text. -/
theorem asciiptrlen_front (q : Ptr) {n : Nat} (fits : n ≤ IDXLEN_MAX)
    : (asciiptrlen q.val n).length = PTR_SZ + IDXLEN_SZ
      ∧ sizeT (atol (cstr ((asciiptrlen q.val n).drop PTR_SZ))) = n := by
  have field : (padLeft IDXLEN_SZ (decimal n)).length = IDXLEN_SZ := by
    refine padLeft_length (decimal_length_le (by decide) ?_)
    simp only [IDXLEN_MAX, IDXLEN_SZ] at fits ⊢
    omega
  rw [asciiptrlen, q.enc_int]
  refine ⟨by rw [List.length_append, q.enc_length, field], ?_⟩
  simp only [IDXLEN_MAX] at fits
  rw [← q.enc_length, List.drop_left, atol_field (by omega), sizeT_natCast (by omega)]

/-- The record that `_db_writeidx` writes for a key with a separator is not read back. -/
theorem recordAt_separated (file : List Byte) (q : Ptr) (sep : SEP ∈ key.bytes) {off len : Nat}
    (fits : (idxText key.bytes off len).length ≤ IDXLEN_MAX)
    : recordAt (file ++ recordBytes q.val (idxText key.bytes off len)) file.length = none := by
  obtain ⟨front, length⟩ := asciiptrlen_front q fits
  generalize written : idxText key.bytes off len = text at fits front length ⊢
  have line : text = (key.bytes ++ SEP :: (decimal off ++ SEP :: decimal len)) ++ [NEWLINE] := by
    rw [← written]
    simp [idxText, decimalInt]
  have plain : cstr text.dropLast = key.bytes ++ SEP :: (decimal off ++ SEP :: decimal len) := by
    rw [line, List.dropLast_concat]
    refine cstr_eq fun b member => ?_
    simp only [List.mem_append, List.mem_cons] at member
    rcases member with inKey | rfl | inOff | rfl | inLen
    · rintro rfl
      exact key.noNull inKey
    · decide
    · exact (decimal_plain inOff).1
    · decide
    · exact (decimal_plain inLen).1
  have head : pread (file ++ recordBytes q.val text) file.length (PTR_SZ + IDXLEN_SZ)
      = asciiptrlen q.val text.length := by
    rw [recordBytes, ← front, List.take_length, ← List.append_assoc, pread_append]
  have body : pread (file ++ recordBytes q.val text) (file.length + (PTR_SZ + IDXLEN_SZ))
      text.length = text := by
    have bytes : file ++ recordBytes q.val text
        = (file ++ asciiptrlen q.val text.length) ++ text ++ [] := by
      rw [recordBytes, ← front, List.take_length]
      simp
    have offset : file.length + (PTR_SZ + IDXLEN_SZ)
        = (file ++ asciiptrlen q.val text.length).length := by
      rw [List.length_append, front]
    rw [bytes, offset, pread_append]
  simp only [recordAt, head, length, body, plain, textKey_separated sep, Option.map_none, ite_self]

-----------------------------------------------------------------------------------------
-- Scans that come to a record that is not accepted
-----------------------------------------------------------------------------------------

/-- The records of the image, each with its data, and behind them bytes that are no record. -/
structure TornTail (im : Image) (d : Disk) : Prop where
  begins : Begins d im
  text : ∀ {o r}, im.recAt o = some r
    → ∃ data : CString, im.chunkAt r.datoff = some data ∧ data.bytes.length + 1 = r.datlen
  inside : im.idx.length < d.idx.data.length
  torn : recordAt d.idx.data im.idx.length = none

/-- A store of a key with a separator that has been cut off leaves such files. -/
theorem Separated.tornTail (separated : Separated im key data d)
    (text : ∀ {o r}, im.recAt o = some r
      → ∃ data : CString, im.chunkAt r.datoff = some data ∧ data.bytes.length + 1 = r.datlen)
    : TornTail im d := by
  obtain ⟨q, idx⟩ := separated.idx
  have dat := separated.dat
  refine ⟨⟨⟨_, idx.symm⟩, ⟨encChunk data, ?_⟩⟩, text, ?_, ?_⟩
  · rw [dat, ← Image.dat_addChunk, pwrite_end]
  · rw [idx, List.length_append, recordBytes_length]
    simp only [PTR_SZ]
    omega
  · rw [idx]
    exact recordAt_separated im.idx q separated.sep separated.fits.2

/-- The locks do not matter to the files. -/
theorem TornTail.congr (tail : TornTail im d) (idx : d'.idx = d.idx) (dat : d'.dat = d.dat)
    : TornTail im d' := by
  refine ⟨⟨?_, ?_⟩, tail.text, ?_, ?_⟩
  · rw [idx]
    exact tail.begins.idx
  · rw [dat]
    exact tail.begins.dat
  · rw [idx]
    exact tail.inside
  · rw [idx]
    exact tail.torn

/-- The loop stops at a record or aborts, by induction on the records ahead. -/
theorem TornTail.loopEnds (tail : TornTail im d) {rest : List Rec} (good : Good db)
    (ahead : Ahead im l rest)
    : ∃ out l', Prog.LoopEnds (kernel.alone p) scanRound db (l, d) out (l', d)
        ∧ ((∃ e, out = .stopped e)
          ∨ ∃ db₁ o r rest', out = .done (some r.key, db₁.load o r) ∧ Good db₁
            ∧ im.recAt o = some r ∧ Ahead im l' rest') := by
  induction rest generalizing db l with
  | nil =>
      obtain ⟨out, l', read, reads⟩ := scanReads (p := p) (l := l) (d := d) db
      have inside := tail.inside
      have torn := tail.torn
      rw [← ahead.done] at inside torn
      cases reads with
      | atEnd db' beyond noted => omega
      | rejected e _ _ _ =>
          exact ⟨_, l', .leave read.bind_stopped (.inr ⟨e, rfl, rfl⟩), .inl ⟨e, rfl⟩⟩
      | accepted next db' _ found noted stopped =>
          rw [torn] at found
          cases found
  | cons r rest ih =>
      have read : Yields p (dbReadidx db 0) l d _ _ _ :=
        yields_readidx_next tail.begins ahead.first
      have nonneg : ¬ (r.ptr.val : Int) < 0 := by omega
      by_cases blank : (db.load l.idx r).idxbuf.all (· = SPACE)
      · obtain ⟨out, l', loop, stops⟩ := ih (good.load l.idx r) ahead.next
        refine ⟨out, l', .again (read.bind ?_) loop, stops⟩
        dsimp only
        rw [if_neg nonneg, if_pos blank]
        exact yields_ret _
      · refine ⟨_, _, .leave (read.bind ?_) (.inl ⟨_, rfl, rfl⟩),
          .inr ⟨db, l.idx, r, rest, rfl, good, ahead.first, ahead.next⟩⟩
        dsimp only
        rw [if_neg nonneg, if_neg blank]
        exact yields_ret _

/-- A call of `db_nextrec` that returns has returned a record. -/
theorem TornTail.nextrec (tail : TornTail im d) (good : Good db) {rest : List Rec}
    (ahead : Ahead im l rest) {found : Option (List Byte × List Byte)}
    (ends : Yields p (dbNextrec db) l d (.done (found, db')) l' d')
    : found ≠ none ∧ Good db' ∧ (∃ rest', Ahead im l' rest') ∧ TornTail im d' := by
  have locked : TornTail im (d.setLocks p .idx FREE_OFF 1 (some .rd)) := tail.congr rfl rfl
  obtain ⟨out, l₁, loop, stops⟩ := locked.loopEnds (p := p) good ahead
  have whole : ∀ {out l₂ d₂},
      Prog.Ends (kernel.alone p) (Prog.loop db scanRound scanReturn)
        (l, d.setLocks p .idx FREE_OFF 1 (some .rd)) out (l₂, d₂)
      → Yields p (dbNextrec db) l d out l₂ d₂ := by
    intro out l₂ d₂ rest
    rw [dbNextrec_eq]
    refine yields_readwLock ?_
    rw [if_neg (by decide)]
    exact rest
  rcases stops with ⟨e, rfl⟩ | ⟨db₁, o, r, rest', rfl, good₁, record, ahead'⟩
  · cases (ends.unique (whole loop.stopped)).1
  · obtain ⟨data, chunk, size⟩ := tail.text record
    have read := yields_readdat (p := p) (l := l₁) locked.begins chunk
      (rfl : (db₁.load o r).datoff = r.datoff) size.symm
    obtain ⟨value, disk⟩ := ends.unique (whole (loop.next (read.bind (yields_scanUnlock _ _))))
    obtain ⟨rfl, rfl⟩ := Prod.mk.inj (Prog.Outcome.done.inj value)
    obtain ⟨rfl, rfl⟩ := Prod.mk.inj disk
    have handle := good₁.load o r
    exact ⟨nofun, ⟨handle.nhash, handle.hashoff⟩, ⟨rest', ahead'.congr rfl⟩, tail.congr rfl rfl⟩

/-- No scan of the files returns `NULL`, by induction on its calls. -/
theorem TornTail.session_nextrec (tail : TornTail im d) (good : Good db) {rest : List Rec}
    (ahead : Ahead im l rest) {n : Nat} {mem : Option DB} {rs : List Res}
    (ends : Yields p (session (List.replicate n .nextrec) (some db)) l d (.done (rs, mem)) l' d')
    : .record none ∉ rs := by
  induction n generalizing db rs rest l d with
  | zero =>
      cases (ends.unique (yields_ret _)).1
      exact List.not_mem_nil
  | succ n ih =>
      obtain ⟨res, rs₁, mem₁, l₁, d₁, rfl, first, later⟩ := session_cons_inv ends
      obtain ⟨⟨found, db₁⟩, ⟨l₂, d₂⟩, next, last⟩ := first.of_bind
      obtain ⟨value, disk⟩ := last.unique (yields_ret _)
      cases value
      cases disk
      obtain ⟨more, good₁, ⟨rest', ahead'⟩, tail'⟩ := tail.nextrec good ahead next
      rintro (_ | ⟨_, there⟩)
      · exact more rfl
      · exact ih tail' good₁ ahead' later there

end Minions.Db
