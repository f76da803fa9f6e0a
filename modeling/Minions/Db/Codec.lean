import Minions.Db.Updates

/-! Reading back what was written: the fields of pointers, index records and data regions as
`_db_readptr`, `_db_readidx` and `_db_readdat` find them in the files of an image.
-/

namespace Minions.Db

open Minions.Data Minions.Logic

/-- The C string of a buffer without nulls is the whole buffer. -/
theorem cstr_eq {text : List Byte} (h : ∀ b ∈ text, b ≠ 0) : cstr text = text := by
  have plain : ∀ b ∈ text, decide (b ≠ 0) = true := by
    intro b member
    simpa using h b member
  have whole : (text ++ []).takeWhile (fun b => decide (b ≠ 0)) = text ++ [] :=
    List.takeWhile_append_of_pos plain
  simpa [cstr] using whole

/-- A digit is neither the null character nor the separator. -/
theorem digit_ne {b : Byte} (h : isDigit b = true) : b ≠ 0 ∧ b ≠ SEP := by
  simp only [isDigit, Bool.and_eq_true, decide_eq_true_eq, UInt8.le_iff_toNat_le,
    UInt8.reduceToNat] at h
  constructor <;> rintro rfl <;> simp [SEP] at h

/-- A numeral has neither null characters nor separators. -/
theorem decimal_plain {n : Nat} {b : Byte} (h : b ∈ decimal n) : b ≠ 0 ∧ b ≠ SEP :=
  digit_ne (decimal_isDigit h)

/-- A padded numeral has no null character. -/
theorem padLeft_ne_null {width n : Nat} {b : Byte} (h : b ∈ padLeft width (decimal n))
    : b ≠ 0 := by
  rcases List.mem_append.mp h with pad | digit
  · rw [List.eq_of_mem_replicate pad]
    decide
  · exact (decimal_plain digit).1

/-- A padded numeral is read back. -/
theorem atol_field {width n : Nat} (small : n < 2 ^ 63)
    : atol (cstr (padLeft width (decimal n))) = n := by
  rw [cstr_eq fun b hb => padLeft_ne_null hb]
  simpa using atol_padLeft width [] small (by simp)

/-- A number that `size_t` holds is kept. -/
theorem sizeT_natCast {n : Nat} (small : n < 2 ^ 64) : sizeT (n : Int) = n := by
  simp only [sizeT]
  omega

/-- The first separator ends a text that holds none. -/
theorem splitSep_append {front rest : List Byte} (h : ∀ b ∈ front, b ≠ SEP)
    : splitSep (front ++ SEP :: rest) = some (front, rest) := by
  have plain : ∀ b ∈ front, decide (b ≠ SEP) = true := by
    intro b member
    simpa using h b member
  have tail : (front ++ SEP :: rest).dropWhile (· ≠ SEP) = SEP :: rest := by
    rw [List.dropWhile_append_of_pos plain]
    simp
  have head : (front ++ SEP :: rest).takeWhile (· ≠ SEP) = front := by
    rw [List.takeWhile_append_of_pos plain]
    simp
  simp only [splitSep, tail, head]

/-- A pointer field is read back. -/
theorem Ptr.atol_enc (p : Ptr) : atol (cstr p.enc) = p.val := by
  refine atol_field ?_
  have bound := p.le
  simp only [PTR_MAX] at bound
  omega

/-- What `_db_readptr` reads at a cell. -/
theorem Image.pread_cell {im : Image} {a : Nat} {p : Ptr} (h : im.cell a = some p)
    : pread im.idx a PTR_SZ = p.enc := by
  rcases im.cell_cases h with slot | ⟨r, found, rfl⟩
  · obtain ⟨before, after, split, place, -⟩ :=
      render_split [] slot
    simp only [List.nil_append] at split
    have bytes : im.idx
        = before ++ p.enc ++ (after ++ [NEWLINE] ++ render Rec.enc im.recs) := by
      simp [Image.idx, Image.header, split]
    rw [bytes, ← place, ← p.enc_length, pread_append]
  · have at_ : tileAt Rec.enc im.header.length im.recs a = some r := by
      rw [im.header_length]
      exact found
    obtain ⟨before, after, split, place, -⟩ := render_split im.header at_
    have bytes : im.idx = before ++ r.ptr.enc
        ++ (padLeft IDXLEN_SZ (decimal r.text.length) ++ r.text ++ after) := by
      simp [Image.idx, split, Rec.enc]
    rw [bytes, ← place, ← r.ptr.enc_length, pread_append]

-----------------------------------------------------------------------------------------
-- Records
-----------------------------------------------------------------------------------------

/-- The pointer and length fields at the front of a record. -/
def Rec.head (r : Rec) : List Byte :=
  r.ptr.enc ++ padLeft IDXLEN_SZ (decimal r.text.length)

/-- The front of a record has its two fields. -/
theorem Rec.head_length (r : Rec) : r.head.length = PTR_SZ + IDXLEN_SZ := by
  simp only [Rec.head, List.length_append, Ptr.enc_length, r.len_field_length]

/-- A record is its front and its text. -/
theorem Rec.enc_eq (r : Rec) : r.enc = r.head ++ r.text := rfl

/-- The first field is the chain pointer. -/
theorem Rec.head_take (r : Rec) : r.head.take PTR_SZ = r.ptr.enc := by
  rw [Rec.head, ← r.ptr.enc_length, List.take_left]

/-- The second field is the length of the text. -/
theorem Rec.head_drop (r : Rec)
    : r.head.drop PTR_SZ = padLeft IDXLEN_SZ (decimal r.text.length) := by
  rw [Rec.head, ← r.ptr.enc_length, List.drop_left]

/-- The text of a record passes the upper bound of `_db_readidx`. -/
theorem Rec.text_length_le (r : Rec) : r.text.length ≤ IDXLEN_MAX := r.lenMax

/-- The text of a record passes the lower bound of `_db_readidx`. -/
theorem Rec.text_length_ge (r : Rec) : IDXLEN_MIN ≤ r.text.length := r.lenMin

/-- The record length field is read back. -/
theorem Rec.sizeT_head (r : Rec)
    : sizeT (atol (cstr (r.head.drop PTR_SZ))) = r.text.length := by
  have bound : r.text.length ≤ 1024 := r.text_length_le
  rw [r.head_drop, atol_field (by omega), sizeT_natCast (by omega)]

/-- What `readv` reads where a record stands in the file. -/
theorem Rec.pread_head (r : Rec) (before after : List Byte)
    : pread (before ++ r.enc ++ after) before.length (PTR_SZ + IDXLEN_SZ) = r.head := by
  have bytes : before ++ r.enc ++ after = before ++ r.head ++ (r.text ++ after) := by
    simp [Rec.enc_eq]
  rw [bytes, ← r.head_length, pread_append]

/-- What the second read of `_db_readidx` reads. -/
theorem Rec.pread_text (r : Rec) (before after : List Byte)
    : pread (before ++ r.enc ++ after) (before.length + (PTR_SZ + IDXLEN_SZ)) r.text.length
      = r.text := by
  have bytes : before ++ r.enc ++ after = (before ++ r.head) ++ r.text ++ after := by
    simp [Rec.enc_eq]
  have offset : before.length + (PTR_SZ + IDXLEN_SZ) = (before ++ r.head).length := by
    rw [List.length_append, r.head_length]
  rw [bytes, offset, pread_append]

/-- The bytes around a record of an image. -/
theorem Image.recAt_split {im : Image} {o : Nat} {r : Rec} (h : im.recAt o = some r)
    : ∃ before after, im.idx = before ++ r.enc ++ after ∧ before.length = o := by
  have at_ : tileAt Rec.enc im.header.length im.recs o = some r := by
    rw [im.header_length]
    exact h
  obtain ⟨before, after, split, place, -⟩ := render_split im.header at_
  exact ⟨before, after, split, place⟩

/-- The first read of `_db_readidx` at a record. -/
theorem Image.pread_head {im : Image} {o : Nat} {r : Rec} (h : im.recAt o = some r)
    : pread im.idx o (PTR_SZ + IDXLEN_SZ) = r.head := by
  obtain ⟨before, after, split, rfl⟩ := im.recAt_split h
  rw [split, r.pread_head]

/-- The second read of `_db_readidx` at a record. -/
theorem Image.pread_text {im : Image} {o : Nat} {r : Rec} (h : im.recAt o = some r)
    : pread im.idx (o + (PTR_SZ + IDXLEN_SZ)) r.text.length = r.text := by
  obtain ⟨before, after, split, rfl⟩ := im.recAt_split h
  rw [split, r.pread_text]

/-- The text of a record without its newline. -/
def Rec.line (r : Rec) : List Byte :=
  r.key ++ SEP :: (decimal r.datoff ++ SEP :: decimal r.datlen)

/-- The text of a record is a line. -/
theorem Rec.text_eq (r : Rec) : r.text = r.line ++ [NEWLINE] := by
  simp [Rec.text, idxText, Rec.line, decimalInt]

/-- The text of a record ends in a newline. -/
theorem Rec.text_getLast (r : Rec) : r.text.getLast? = some NEWLINE := by
  simp [r.text_eq]

/-- The newline is taken off the text. -/
theorem Rec.text_dropLast (r : Rec) : r.text.dropLast = r.line := by
  simp [r.text_eq]

/-- The line of a record has no null character. -/
theorem Rec.cstr_line (r : Rec) : cstr r.line = r.line := by
  refine cstr_eq fun b member => ?_
  simp only [Rec.line, List.mem_append, List.mem_cons] at member
  rcases member with key | rfl | off | rfl | len
  · exact (r.keyOk b key).1
  · decide
  · exact (decimal_plain off).1
  · decide
  · exact (decimal_plain len).1

/-- The checks of `_db_readidx` on the text of a record succeed and recover its fields. -/
theorem Rec.parse (r : Rec) (db : DB)
    : parseIdxbuf db (cstr r.text.dropLast)
      = .ret (db.ptrval,
          { db with idxbuf := r.key, datoff := (r.datoff : Int), datlen := r.datlen }) := by
  have offset : atol (decimal r.datoff) = r.datoff := by
    have bound := r.datoffMax
    simp only [OFF_MAX] at bound
    exact atol_decimal (by omega)
  have lenBound := r.datlenMax
  simp only [DATLEN_MAX] at lenBound
  have length : sizeT (atol (decimal r.datlen)) = r.datlen := by
    rw [atol_decimal (by omega), sizeT_natCast (by omega)]
  have first : splitSep r.line = some (r.key, decimal r.datoff ++ SEP :: decimal r.datlen) :=
    splitSep_append fun b hb => (r.keyOk b hb).2
  have second : splitSep (decimal r.datoff ++ SEP :: decimal r.datlen)
      = some (decimal r.datoff, decimal r.datlen) :=
    splitSep_append fun b hb => (decimal_plain hb).2
  have noThird : SEP ∉ decimal r.datlen := fun member => (decimal_plain member).2 rfl
  have positive : ¬ (r.datlen = 0 ∨ r.datlen > DATLEN_MAX) := by
    have pos := r.datlenPos
    simp only [DATLEN_MAX]
    omega
  rw [r.text_dropLast, r.cstr_line]
  simp only [parseIdxbuf, first, second, if_neg noThird, offset, length, if_neg positive]
  rw [if_neg (by omega)]
  rfl

/-- What `_db_readdat` reads. -/
theorem Image.pread_chunk {im : Image} {c : Nat} {d : CString} (h : im.chunkAt c = some d)
    : pread im.dat c (d.bytes.length + 1) = encChunk d := by
  obtain ⟨before, after, split, place, -⟩ :=
    render_split [] h
  simp only [List.nil_append] at split
  rw [Image.dat, split, ← place, ← encChunk_length, pread_append]

/-- Data in the file ends in a newline. -/
theorem encChunk_getLast (d : CString) : (encChunk d).getLast? = some NEWLINE := by
  simp [encChunk]

/-- The newline is taken off the data. -/
theorem encChunk_dropLast (d : CString) : (encChunk d).dropLast = d.bytes := by
  simp [encChunk]

/-- The bytes of a string have no null character. -/
theorem CString.cstr_bytes (d : CString) : cstr d.bytes = d.bytes :=
  cstr_eq fun _ member null => d.noNull (null ▸ member)

end Minions.Db
