import Minions.Db.Writing

/-! An index record that is written and read again, in an index file of any other content.
The numbers of a record go through the file as text, and only the length field and the two
separators say where its key ends.
-/

namespace Minions.Db

open Minions.Data Minions.Logic

variable {p : Pid} {l l' : Offsets} {d d' : Disk} {db : DB}

/-- The index file has the record at the offset. -/
def HasRec (d : Disk) (o : Nat) (r : Rec) : Prop := pread d.idx.data o r.enc.length = r.enc

/-- The bytes around a record of the file. -/
theorem HasRec.split {o : Nat} {r : Rec} (h : HasRec d o r)
    : ∃ before after, d.idx.data = before ++ r.enc ++ after ∧ before.length = o := by
  refine exists_of_pread h fun nil => ?_
  have size := r.enc_length
  rw [nil, List.length_nil] at size
  exact absurd size.symm (Nat.ne_of_gt (Nat.add_pos_left (by decide) _))

/-- Bytes of a record in the file. -/
theorem hasRec_of_split {before after : List Byte} {r : Rec}
    (file : d.idx.data = before ++ r.enc ++ after)
    : HasRec d before.length r := by
  rw [HasRec, file, pread_append]

/-- `_db_readidx` recovers a record from the file. -/
theorem HasRec.yields_readidx {o : Nat} {r : Rec} (h : HasRec d o r) {offset : Int}
    (seeks : seekTarget d l .idx offset (if offset = 0 then .cur else .set) = o)
    : Yields p (dbReadidx db offset) l d (.done ((r.ptr.val : Int), db.load o r))
        (l.move .idx (o + r.enc.length)) d := by
  obtain ⟨before, after, file, rfl⟩ := h.split
  exact yields_readidx_split file seeks

/-- `_db_writeptr` at a record changes its pointer. -/
theorem HasRec.yields_writeptr {o : Nat} {r : Rec} (h : HasRec d o r)
    (room : o + PTR_SZ ≤ OFF_MAX) (q : Ptr)
    : ∃ d', Yields p (dbWriteptr o q.val) l d (.done ()) (l.move .idx (o + PTR_SZ)) d'
        ∧ HasRec d' o (r.setPtr q) := by
  obtain ⟨before, after, file, rfl⟩ := h.split
  have written : pwrite 0 d.idx.data before.length q.enc
      = before ++ (r.setPtr q).enc ++ after := by
    have front : d.idx.data
        = before ++ r.ptr.enc
          ++ (padLeft IDXLEN_SZ (decimal r.text.length) ++ r.text ++ after) := by
      simp [file, Rec.enc]
    rw [front, pwrite_append (by rw [q.enc_length, r.ptr.enc_length])]
    simp [Rec.enc, Rec.setPtr, Rec.text]
  exact ⟨_, Db.yields_writeptr room q, hasRec_of_split written⟩

/-- `_db_writeidx` leaves the record where its `lseek` led. -/
theorem yields_writeidx {r : Rec} (off : db.datoff = r.datoff) (len : db.datlen = r.datlen)
    {offset : Int} {whence : Whence} {o : Nat} (target : seekTarget d l .idx offset whence = o)
    (room : o + r.enc.length ≤ OFF_MAX)
    : ∃ d',
        Yields p (dbWriteidx db r.key offset whence r.ptr.val) l d
          (.done { db with ptrval := r.ptr.val, idxbuf := r.text, idxoff := o })
          (l.move .idx (o + r.enc.length)) d'
        ∧ HasRec d' o r := by
  obtain ⟨range, length, bytes, size⟩ := r.writeidx_checks off len
  have text : idxText r.key db.datoff db.datlen = r.text := by rw [off, len]; rfl
  rw [text] at length bytes
  have enc : recordBytes r.ptr.val r.text = r.enc := bytes
  obtain ⟨d', ends, idx, -⟩ :=
    yields_writeidx_any (p := p) text range length target (by rw [enc]; exact room)
  obtain ⟨before, after, written, rfl⟩ := exists_pwrite 0 d.idx.data o r.enc
  rw [enc] at ends idx
  exact ⟨d', ends, hasRec_of_split (idx.trans written)⟩

/-- A record stays where its bytes stay. -/
theorem HasRec.congr {o : Nat} {r : Rec} (h : HasRec d o r)
    (same : pread d'.idx.data o r.enc.length = pread d.idx.data o r.enc.length)
    : HasRec d' o r :=
  same.trans h

/-- `_db_readidx` that starts at the offset, from wherever and with whatever handle, returns the
pointer, sets these fields and no others, and ends behind the record.
-/
def ReadsBack (d : Disk) (o : Nat) (ptrval : Int) (key : List Byte) (datoff : Int)
    (datlen idxlen : Nat)
    : Prop :=
  ∀ (p : Pid) (l : Offsets) (db : DB) (offset : Int),
    seekTarget d l .idx offset (if offset = 0 then .cur else .set) = o
    → Yields p (dbReadidx db offset) l d
        (.done (ptrval,
          { db with idxoff := o, ptrval, idxlen, idxbuf := key, datoff, datlen }))
        (l.move .idx (o + (PTR_SZ + IDXLEN_SZ + idxlen))) d

/-- A record of the file is read back. -/
theorem HasRec.readsBack {o : Nat} {r : Rec} (h : HasRec d o r)
    : ReadsBack d o r.ptr.val r.key r.datoff r.datlen r.text.length := by
  intro p l db offset seeks
  have read
      : Yields p (dbReadidx db offset) l d (.done ((r.ptr.val : Int), db.load o r))
          (l.move .idx (o + r.enc.length)) d :=
    h.yields_readidx seeks
  rw [r.enc_length] at read
  exact read

/-- A record that `_db_writeidx` has written is read back as it was given, as long as its bytes
are left alone, and `_db_writeptr` at its offset changes its pointer and nothing else.
-/
theorem dbWriteidx_reads_back {key : List Byte} (keyOk : ∀ b ∈ key, b ≠ 0 ∧ b ≠ SEP)
    {ptrval : Int} (ptrMin : 0 ≤ ptrval) (ptrMax : ptrval ≤ PTR_MAX) (offMin : 0 ≤ db.datoff)
    (offMax : db.datoff ≤ OFF_MAX) (lenMin : 1 ≤ db.datlen) (lenMax : db.datlen ≤ DATLEN_MAX)
    (recMin : IDXLEN_MIN ≤ (idxText key db.datoff db.datlen).length)
    (recMax : (idxText key db.datoff db.datlen).length ≤ IDXLEN_MAX)
    {offset : Int} {whence : Whence} {o : Nat} (target : seekTarget d l .idx offset whence = o)
    (room
      : o + (PTR_SZ + IDXLEN_SZ + (idxText key db.datoff db.datlen).length) ≤ OFF_MAX)
    : ∃ l₁ d₁,
        Yields p (dbWriteidx db key offset whence ptrval) l d
          (.done { db with ptrval, idxbuf := idxText key db.datoff db.datlen, idxoff := o }) l₁ d₁
        ∧ ∀ d₂ : Disk,
            pread d₂.idx.data o
                (PTR_SZ + IDXLEN_SZ + (idxText key db.datoff db.datlen).length)
              = pread d₁.idx.data o
                  (PTR_SZ + IDXLEN_SZ + (idxText key db.datoff db.datlen).length)
            → ReadsBack d₂ o ptrval key db.datoff db.datlen
                (idxText key db.datoff db.datlen).length
              ∧ ∀ q : Int, 0 ≤ q → q ≤ PTR_MAX → ∀ l₂, ∃ l₃ d₃,
                  Yields p (dbWriteptr o q) l₂ d₂ (.done ()) l₃ d₃
                  ∧ ReadsBack d₃ o q key db.datoff db.datlen
                      (idxText key db.datoff db.datlen).length := by
  have writable : Writable db key db.datoff.toNat :=
    ⟨keyOk, by omega, by omega, lenMin, lenMax⟩
  obtain ⟨r, rfl, off, len, rfl⟩ := writable.record (v := ptrval) (by omega) (by omega)
  have datoff : db.datoff = r.datoff := by rw [writable.off, off]
  have text : idxText r.key db.datoff db.datlen = r.text := by rw [datoff, ← len]; rfl
  rw [text, ← r.enc_length] at room ⊢
  obtain ⟨d₁, writes, stored⟩ := yields_writeidx (p := p) datoff len.symm target room
  refine ⟨_, d₁, writes, fun d₂ same => ?_⟩
  have kept := stored.congr same
  rw [datoff, ← len]
  refine ⟨kept.readsBack, fun q qMin qMax l₂ => ?_⟩
  obtain ⟨q, rfl⟩ := Ptr.of_int (v := q) (by omega)
  have inside : o + PTR_SZ ≤ OFF_MAX := by
    rw [r.enc_length] at room
    omega
  obtain ⟨d₃, moves, changed⟩ := kept.yields_writeptr (l := l₂) (p := p) inside q
  exact ⟨_, d₃, moves, changed.readsBack⟩

/-- A key that looks like the end of a record, with the largest pointer and a four digit length. -/
theorem dbWriteidx_reads_back_newline
    : ∃ l₁ d₁ db₁,
        Yields 1
          (dbWriteidx { dbAlloc with datoff := 12, datlen := 1024 } [10, 49, 32] 0 .end 9999999)
          ⟨0, 0⟩ ⟨⟨true, [10]⟩, ⟨true, []⟩, fun _ _ _ => none⟩ (.done db₁) l₁ d₁
        ∧ ReadsBack d₁ 1 9999999 [10, 49, 32] 12 1024 12 := by
  let db : DB := { dbAlloc with datoff := 12, datlen := 1024 }
  let d : Disk := ⟨⟨true, [10]⟩, ⟨true, []⟩, fun _ _ _ => none⟩
  have keyOk : ∀ b ∈ ([10, 49, 32] : List Byte), b ≠ 0 ∧ b ≠ SEP := by
    simp [SEP]
  have size : (idxText [10, 49, 32] db.datoff db.datlen).length = 12 := by decide +kernel
  have offMin : 0 ≤ db.datoff := by decide
  have target : seekTarget d ⟨0, 0⟩ .idx 0 .end = (1 : Nat) := rfl
  obtain ⟨l₁, d₁, writes, later⟩ :=
    dbWriteidx_reads_back (p := 1) keyOk (by decide : (0 : Int) ≤ 9999999) (by decide) offMin
      (by decide) (by decide) (by decide) (by rw [size]; decide) (by rw [size]; decide) target
      (by rw [size]; decide)
  have back := (later d₁ rfl).1
  rw [size] at back
  exact ⟨l₁, d₁, _, writes, back⟩

end Minions.Db
