import Minions.Data.Tiling
import Minions.Db.Library

/-! The contents of the two files as structured values.
An image is a table of chain pointers, a list of index records and a list of data regions.
Its files are the concatenations that `db_open`, `_db_writeidx` and `_db_writedat` produce.
Records and regions are addressed by file offset, and a pointer cell is addressed uniformly,
whether it lies in the table or at the front of a record.
-/

namespace Minions.Db

open Minions.Data

-----------------------------------------------------------------------------------------
-- Pointers and records
-----------------------------------------------------------------------------------------

/-- A value that fits a pointer field. -/
structure Ptr where
  val : Nat
  le : (val : Int) ≤ PTR_MAX
deriving DecidableEq

/-- A pointer field in the file. -/
def Ptr.enc (p : Ptr) : List Byte := padLeft PTR_SZ (decimal p.val)

/-- An index record. The fields are such that every check of `_db_readidx` and
`_db_writeidx` succeeds on it.
-/
@[ext] structure Rec where
  ptr : Ptr
  key : List Byte
  datoff : Nat
  datlen : Nat
  keyOk : ∀ b ∈ key, b ≠ 0 ∧ b ≠ SEP
  lenMin : IDXLEN_MIN ≤ (idxText key datoff datlen).length
  lenMax : (idxText key datoff datlen).length ≤ IDXLEN_MAX
  datlenPos : 0 < datlen
  datlenMax : datlen ≤ DATLEN_MAX
  datoffMax : datoff ≤ OFF_MAX
deriving DecidableEq

/-- The part of a record after its pointer and length fields. -/
def Rec.text (r : Rec) : List Byte := idxText r.key r.datoff r.datlen

/-- An index record in the file. -/
def Rec.enc (r : Rec) : List Byte :=
  r.ptr.enc ++ padLeft IDXLEN_SZ (decimal r.text.length) ++ r.text

/-- The record with another chain pointer. -/
def Rec.setPtr (r : Rec) (p : Ptr) : Rec := { r with ptr := p }

@[simp] theorem Rec.setPtr_ptr (r : Rec) (p : Ptr) : (r.setPtr p).ptr = p := rfl
@[simp] theorem Rec.setPtr_key (r : Rec) (p : Ptr) : (r.setPtr p).key = r.key := rfl
@[simp] theorem Rec.setPtr_datoff (r : Rec) (p : Ptr) : (r.setPtr p).datoff = r.datoff := rfl
@[simp] theorem Rec.setPtr_datlen (r : Rec) (p : Ptr) : (r.setPtr p).datlen = r.datlen := rfl

@[simp] theorem Ptr.enc_length (p : Ptr) : p.enc.length = PTR_SZ := by
  refine padLeft_length (decimal_length_le (by decide) ?_)
  have bound := p.le
  simp only [PTR_MAX, PTR_SZ] at bound ⊢
  omega

/-- The length field of a record has its width. -/
theorem Rec.len_field_length (r : Rec)
    : (padLeft IDXLEN_SZ (decimal r.text.length)).length = IDXLEN_SZ := by
  refine padLeft_length (decimal_length_le (by decide) ?_)
  have bound : r.text.length ≤ IDXLEN_MAX := r.lenMax
  simp only [IDXLEN_MAX, IDXLEN_SZ] at bound ⊢
  omega

/-- The length of a record in the file. -/
theorem Rec.enc_length (r : Rec)
    : r.enc.length = PTR_SZ + IDXLEN_SZ + r.text.length := by
  simp only [Rec.enc, List.length_append, Ptr.enc_length, r.len_field_length]

/-- Two records of the same shape occupy the same space. -/
def Rec.SameShape (r r' : Rec) : Prop :=
  r'.key.length = r.key.length ∧ r'.datoff = r.datoff ∧ r'.datlen = r.datlen

/-- A record has its own shape. -/
theorem Rec.SameShape.refl (r : Rec) : r.SameShape r := ⟨rfl, rfl, rfl⟩

/-- Shapes are transitive. -/
theorem Rec.SameShape.trans {r r' r'' : Rec} (h : r.SameShape r') (h' : r'.SameShape r'')
    : r.SameShape r'' :=
  ⟨h'.1.trans h.1, h'.2.1.trans h.2.1, h'.2.2.trans h.2.2⟩

/-- Texts of the same shape have the same length. -/
theorem Rec.SameShape.text_length {r r' : Rec} (h : r.SameShape r')
    : r'.text.length = r.text.length := by
  obtain ⟨key, datoff, datlen⟩ := h
  simp [Rec.text, idxText, key, datoff, datlen]

/-- Records of the same shape have the same length. -/
theorem Rec.SameShape.enc_length {r r' : Rec} (h : r.SameShape r')
    : r'.enc.length = r.enc.length := by
  rw [Rec.enc_length, Rec.enc_length, h.text_length]

/-- The chain pointer does not matter to the shape. -/
theorem Rec.sameShape_setPtr (r : Rec) (p : Ptr) : r.SameShape (r.setPtr p) :=
  ⟨rfl, rfl, rfl⟩

/-- A data region in the file. -/
def encChunk (d : CString) : List Byte := d.bytes ++ [NEWLINE]

@[simp] theorem encChunk_length (d : CString)
    : (encChunk d).length = d.bytes.length + 1 := by
  simp [encChunk]

/-- A record takes space. -/
theorem Rec.enc_pos (r : Rec) : 0 < r.enc.length := by
  rw [Rec.enc_length]
  simp only [PTR_SZ]
  omega

/-- Data takes space. -/
theorem encChunk_pos (d : CString) : 0 < (encChunk d).length := by
  simp

-----------------------------------------------------------------------------------------
-- Images
-----------------------------------------------------------------------------------------

/-- The structured contents of both files: the free list pointer followed by the chain
pointers, the index records and the data regions, each in file order.
-/
structure Image where
  ptrs : List Ptr
  recs : List Rec
  chunks : List CString
  slots : ptrs.length = NHASH_DEF + 1

/-- The pointer table and the newline after it. -/
def Image.header (im : Image) : List Byte := render Ptr.enc im.ptrs ++ [NEWLINE]

/-- The index file. -/
def Image.idx (im : Image) : List Byte := im.header ++ render Rec.enc im.recs

/-- The data file. -/
def Image.dat (im : Image) : List Byte := render encChunk im.chunks

/-- Offset of the first index record. -/
def RECS_OFF : Nat := (NHASH_DEF + 1) * PTR_SZ + 1

/-- The record at an offset of the index file. -/
def Image.recAt (im : Image) (o : Nat) : Option Rec := tileAt Rec.enc RECS_OFF im.recs o

/-- The pointer in the table at an offset of the index file. -/
def Image.slotAt (im : Image) (a : Nat) : Option Ptr := tileAt Ptr.enc 0 im.ptrs a

/-- The pointer cell at an offset, in the table or at the front of a record. -/
def Image.cell (im : Image) (a : Nat) : Option Ptr :=
  match im.slotAt a with
  | some p => some p
  | none => (im.recAt a).map Rec.ptr

/-- The data region at an offset of the data file. -/
def Image.chunkAt (im : Image) (c : Nat) : Option CString :=
  tileAt encChunk 0 im.chunks c

/-- The length of a table of pointers. -/
theorem render_ptrs_length (ps : List Ptr)
    : (render Ptr.enc ps).length = ps.length * PTR_SZ := by
  induction ps with
  | nil => simp
  | cons p ps ih =>
      simp only [render_cons, List.length_append, Ptr.enc_length, ih, List.length_cons]
      ring

@[simp] theorem Image.header_length (im : Image) : im.header.length = RECS_OFF := by
  simp [Image.header, render_ptrs_length, im.slots, RECS_OFF]

/-- The pointers of a table stand at multiples of their width. -/
theorem tileAt_ptrs (base : Nat) (ps : List Ptr) (i : Nat)
    : tileAt Ptr.enc base ps (base + i * PTR_SZ) = ps[i]? := by
  induction ps generalizing base i with
  | nil => simp [tileAt]
  | cons p ps ih =>
      cases i with
      | zero => simp [tileAt]
      | succ i =>
          have apart : base + (i + 1) * PTR_SZ ≠ base := by
            simp only [PTR_SZ]
            omega
          have moved : base + (i + 1) * PTR_SZ = base + p.enc.length + i * PTR_SZ := by
            rw [Ptr.enc_length]
            ring
          simp only [tileAt, if_neg apart, List.getElem?_cons_succ]
          rw [moved, ih]

/-- The slots of the table are where `FREE_OFF` and the chain offsets point. -/
theorem Image.slotAt_index (im : Image) (i : Nat) : im.slotAt (i * PTR_SZ) = im.ptrs[i]? := by
  simpa [Image.slotAt] using tileAt_ptrs 0 im.ptrs i

/-- Every slot of the table has a pointer. -/
theorem Image.slotAt_isSome (im : Image) {i : Nat} (h : i < NHASH_DEF + 1)
    : ∃ p, im.slotAt (i * PTR_SZ) = some p := by
  rw [im.slotAt_index, List.getElem?_eq_getElem (by rw [im.slots]; exact h)]
  exact ⟨_, rfl⟩

/-- Slots end before the first record. -/
theorem Image.slotAt_range {im : Image} {a : Nat} {p : Ptr} (h : im.slotAt a = some p)
    : a + PTR_SZ < RECS_OFF := by
  have range := (tileAt_range h).2
  rw [Ptr.enc_length, render_ptrs_length, im.slots] at range
  simp only [RECS_OFF]
  omega

/-- The index file is at least as long as the pointer table. -/
theorem recs_le_idx (im : Image) : RECS_OFF ≤ im.idx.length := by
  simp [Image.idx]

/-- A record lies behind the table and inside the file. -/
theorem Image.recAt_range {im : Image} {o : Nat} {r : Rec} (h : im.recAt o = some r)
    : RECS_OFF ≤ o ∧ o + r.enc.length ≤ im.idx.length := by
  have range := tileAt_range h
  simp only [Image.idx, List.length_append, Image.header_length]
  exact range

/-- No record stands at the start of the file. -/
theorem Image.recAt_pos {im : Image} {o : Nat} {r : Rec} (h : im.recAt o = some r)
    : 0 < o := by
  have range := (im.recAt_range h).1
  simp only [RECS_OFF] at range
  omega

/-- A record's offset is not in the table. -/
theorem Image.slotAt_rec {im : Image} {o : Nat} {r : Rec} (h : im.recAt o = some r)
    : im.slotAt o = none := by
  cases found : im.slotAt o with
  | none => rfl
  | some p =>
      have low := im.slotAt_range found
      have high := (im.recAt_range h).1
      omega

@[simp] theorem Image.cell_rec {im : Image} {o : Nat} {r : Rec} (h : im.recAt o = some r)
    : im.cell o = some r.ptr := by
  simp [Image.cell, im.slotAt_rec h, h]

/-- The pointer of a slot. -/
theorem Image.cell_slot {im : Image} {a : Nat} {p : Ptr} (h : im.slotAt a = some p)
    : im.cell a = some p := by
  simp [Image.cell, h]

/-- A cell is a slot or the pointer of a record. -/
theorem Image.cell_cases {im : Image} {a : Nat} {p : Ptr} (h : im.cell a = some p)
    : im.slotAt a = some p ∨ ∃ r, im.recAt a = some r ∧ r.ptr = p := by
  cases found : im.slotAt a with
  | some q => exact Or.inl (by simpa [Image.cell, found] using h)
  | none =>
      right
      simpa [Image.cell, found] using h

/-- No record stands at the end of the file. -/
theorem Image.recAt_idx_end (im : Image) : im.recAt im.idx.length = none := by
  simpa [Image.recAt, Image.idx] using tileAt_end Rec.enc_pos RECS_OFF im.recs

/-- Data lies inside the data file. -/
theorem Image.chunkAt_range {im : Image} {c : Nat} {d : CString}
    (h : im.chunkAt c = some d)
    : c + d.bytes.length + 1 ≤ im.dat.length := by
  have range := (tileAt_range h).2
  simpa [Image.dat, Nat.add_assoc] using range

/-- No data stands at the end of the file. -/
theorem Image.chunkAt_dat_end (im : Image) : im.chunkAt im.dat.length = none := by
  simpa [Image.chunkAt, Image.dat] using tileAt_end encChunk_pos 0 im.chunks

end Minions.Db
