import Minions.Db.Layout

/-! The writes of the library as updates of an image.
Each update states which address it changes; all other cells, records and regions stay, and
the bytes of the files change exactly as by the corresponding `write`.
-/

namespace Minions.Db

open Minions.Data

/-- A tile that is replaced leaves their number. -/
theorem length_tilePut {α β : Type} {enc : α → List β} (base : Nat) (xs : List α)
    (o : Nat) (y : α)
    : (tilePut enc base xs o y).length = xs.length := by
  induction xs generalizing base with
  | nil => rfl
  | cons x xs ih =>
      simp only [tilePut]
      split
      · simp
      · simp [ih]

/-- A tile of the same length leaves the length of all. -/
theorem length_render_tilePut {α β : Type} {enc : α → List β} {base o : Nat} {xs : List α}
    {x y : α} (h : tileAt enc base xs o = some x) (same : (enc y).length = (enc x).length)
    : (render enc (tilePut enc base xs o y)).length = (render enc xs).length := by
  obtain ⟨before, after, split, -, put⟩ := tileAt_split h
  simp [split ▸ put y, split, same]

/-- Overwrite one pointer of the table. -/
def Image.setSlot (im : Image) (a : Nat) (p : Ptr) : Image :=
  { im with
    ptrs := tilePut Ptr.enc 0 im.ptrs a p
    slots := by rw [length_tilePut, im.slots] }

/-- Overwrite one index record. -/
def Image.setRec (im : Image) (o : Nat) (r : Rec) : Image :=
  { im with recs := tilePut Rec.enc RECS_OFF im.recs o r }

/-- Overwrite one pointer cell, wherever it lies. -/
def Image.setCell (im : Image) (a : Nat) (p : Ptr) : Image :=
  match im.recAt a with
  | some r => im.setRec a (r.setPtr p)
  | none => im.setSlot a p

/-- Append an index record. -/
def Image.addRec (im : Image) (r : Rec) : Image := { im with recs := im.recs ++ [r] }

/-- Overwrite one data region. -/
def Image.setChunk (im : Image) (c : Nat) (d : CString) : Image :=
  { im with chunks := tilePut encChunk 0 im.chunks c d }

/-- Append a data region. -/
def Image.addChunk (im : Image) (d : CString) : Image :=
  { im with chunks := im.chunks ++ [d] }

-----------------------------------------------------------------------------------------
-- Records
-----------------------------------------------------------------------------------------

section SetRec

variable {im : Image} {o : Nat} {r r' : Rec} (h : im.recAt o = some r)
  (shape : r.SameShape r')
include h shape

/-- The records after one has been written. -/
theorem Image.recAt_setRec (x : Nat)
    : (im.setRec o r').recAt x = if x = o then some r' else im.recAt x :=
  tileAt_put h shape.enc_length x

/-- The pointers after a record has been written. -/
theorem Image.cell_setRec (x : Nat)
    : (im.setRec o r').cell x = if x = o then some r'.ptr else im.cell x := by
  have slots : (im.setRec o r').slotAt x = im.slotAt x := rfl
  by_cases same : x = o
  · subst same
    simp [Image.cell, slots, im.slotAt_rec h, Image.recAt_setRec h shape]
  · simp [Image.cell, slots, Image.recAt_setRec h shape, same]

/-- `_db_writeidx` over an existing record of the same shape. -/
theorem Image.idx_setRec : pwrite 0 im.idx o r'.enc = (im.setRec o r').idx := by
  have found : tileAt Rec.enc im.header.length im.recs o = some r := by
    rw [im.header_length]
    exact h
  have put := pwrite_render (z := 0) im.header found shape.enc_length
  rw [im.header_length] at put
  exact put

/-- A record of the same shape leaves the length of the file. -/
theorem Image.idx_length_setRec : (im.setRec o r').idx.length = im.idx.length := by
  simp only [Image.idx, List.length_append, Image.header_length]
  rw [Nat.add_left_cancel_iff]
  exact length_render_tilePut h shape.enc_length

end SetRec

@[simp] theorem Image.dat_setRec (im : Image) (o : Nat) (r : Rec)
    : (im.setRec o r).dat = im.dat := rfl

@[simp] theorem Image.chunkAt_setRec (im : Image) (o : Nat) (r : Rec) (c : Nat)
    : (im.setRec o r).chunkAt c = im.chunkAt c := rfl

/-- The records after one has been appended. -/
theorem Image.recAt_addRec (im : Image) (r : Rec) (x : Nat)
    : (im.addRec r).recAt x = if x = im.idx.length then some r else im.recAt x := by
  have place : RECS_OFF + (render Rec.enc im.recs).length = im.idx.length := by
    simp [Image.idx]
  simp only [Image.recAt, Image.addRec, tileAt_append Rec.enc_pos, place]

/-- The pointers after a record has been appended. -/
theorem Image.cell_addRec (im : Image) (r : Rec) (x : Nat)
    : (im.addRec r).cell x = if x = im.idx.length then some r.ptr else im.cell x := by
  have slots : (im.addRec r).slotAt x = im.slotAt x := rfl
  by_cases same : x = im.idx.length
  · have found := im.recAt_addRec r x
    rw [if_pos same] at found ⊢
    exact Image.cell_rec found
  · simp [Image.cell, slots, im.recAt_addRec, same]

/-- `_db_writeidx` at the end of the index file. -/
theorem Image.idx_addRec (im : Image) (r : Rec)
    : pwrite 0 im.idx im.idx.length r.enc = (im.addRec r).idx :=
  pwrite_render_end

/-- The file grows by the record. -/
theorem Image.idx_length_addRec (im : Image) (r : Rec)
    : (im.addRec r).idx.length = im.idx.length + r.enc.length := by
  simp only [Image.idx, Image.addRec, List.length_append, Image.header_length, render_append,
    render_cons, render_nil, List.length_nil]
  omega

@[simp] theorem Image.dat_addRec (im : Image) (r : Rec) : (im.addRec r).dat = im.dat := rfl

@[simp] theorem Image.chunkAt_addRec (im : Image) (r : Rec) (c : Nat)
    : (im.addRec r).chunkAt c = im.chunkAt c := rfl

-----------------------------------------------------------------------------------------
-- Pointer cells
-----------------------------------------------------------------------------------------

section SetSlot

variable {im : Image} {a : Nat} {old : Ptr} (h : im.slotAt a = some old) (p : Ptr)
include h

/-- No record stands in the table. -/
theorem Image.recAt_slot : im.recAt a = none := by
  cases found : im.recAt a with
  | none => rfl
  | some r => simp [im.slotAt_rec found] at h

/-- The pointers after one of the table has been written. -/
theorem Image.cell_setSlot (b : Nat)
    : (im.setSlot a p).cell b = if b = a then some p else im.cell b := by
  have moved : (im.setSlot a p).slotAt b = if b = a then some p else im.slotAt b :=
    tileAt_put h (by simp) b
  have recs : (im.setSlot a p).recAt b = im.recAt b := rfl
  by_cases same : b = a
  · rw [if_pos same] at moved ⊢
    exact Image.cell_slot moved
  · simp [Image.cell, moved, recs, same]

/-- The write of a pointer of the table. -/
theorem Image.idx_setSlot : pwrite 0 im.idx a p.enc = (im.setSlot a p).idx := by
  obtain ⟨before, after, split, place, put⟩ :=
    render_split [] h
  simp only [List.nil_append, List.length_nil] at split put
  have bytes : im.idx
      = before ++ old.enc ++ (after ++ [NEWLINE] ++ render Rec.enc im.recs) := by
    simp [Image.idx, Image.header, split]
  have bytes' : (im.setSlot a p).idx
      = before ++ p.enc ++ (after ++ [NEWLINE] ++ render Rec.enc im.recs) := by
    simp [Image.setSlot, Image.idx, Image.header, put]
  rw [bytes, bytes', ← place, pwrite_append (by simp)]

end SetSlot

section SetCell

variable {im : Image} {a : Nat} {old : Ptr} (h : im.cell a = some old) (p : Ptr)
include h

/-- Only the cell at `a` changes. Witness: a cell is a slot, whose table holds no record, or
the front of a record, whose length does not depend on its pointer.
-/
theorem Image.cell_setCell (b : Nat)
    : (im.setCell a p).cell b = if b = a then some p else im.cell b := by
  rcases im.cell_cases h with slot | ⟨r, found, -⟩
  · simp only [Image.setCell, Image.recAt_slot slot]
    exact Image.cell_setSlot slot p b
  · simp only [Image.setCell, found]
    exact Image.cell_setRec found (r.sameShape_setPtr p) b

/-- A record whose pointer is overwritten keeps its other fields. -/
theorem Image.recAt_setCell (o : Nat)
    : (im.setCell a p).recAt o
      = if o = a then (im.recAt o).map (fun r => r.setPtr p) else im.recAt o := by
  rcases im.cell_cases h with slot | ⟨r, found, -⟩
  · simp only [Image.setCell, Image.recAt_slot slot]
    have recs : (im.setSlot a p).recAt o = im.recAt o := rfl
    by_cases same : o = a
    · subst same
      simp [recs, Image.recAt_slot slot]
    · simp [recs, same]
  · simp only [Image.setCell, found]
    rw [Image.recAt_setRec found (r.sameShape_setPtr p)]
    by_cases same : o = a
    · subst same
      simp [found]
    · simp [same]

/-- `_db_writeptr` in the index file. Witness: in a record the pointer is the front of the
encoding, so a write of seven bytes is a write of the whole record.
-/
theorem Image.idx_setCell : pwrite 0 im.idx a p.enc = (im.setCell a p).idx := by
  rcases im.cell_cases h with slot | ⟨r, found, -⟩
  · simp only [Image.setCell, Image.recAt_slot slot]
    exact Image.idx_setSlot slot p
  · simp only [Image.setCell, found]
    have place : tileAt Rec.enc im.header.length im.recs a = some r := by
      rw [im.header_length]
      exact found
    obtain ⟨before, after, split, at_, put⟩ := render_split im.header place
    rw [im.header_length] at put
    have bytes : im.idx = before ++ r.ptr.enc
        ++ (padLeft IDXLEN_SZ (decimal r.text.length) ++ r.text ++ after) := by
      simp [Image.idx, split, Rec.enc]
    have bytes' : (im.setRec a (r.setPtr p)).idx = before ++ p.enc
        ++ (padLeft IDXLEN_SZ (decimal r.text.length) ++ r.text ++ after) := by
      have whole : (im.setRec a (r.setPtr p)).idx = before ++ (r.setPtr p).enc ++ after :=
        put (r.setPtr p)
      rw [whole]
      simp [Rec.enc, Rec.setPtr, Rec.text]
    rw [bytes, bytes', ← at_, pwrite_append (by simp)]

/-- A pointer leaves the length of the file. -/
theorem Image.idx_length_setCell : (im.setCell a p).idx.length = im.idx.length := by
  rcases im.cell_cases h with slot | ⟨r, found, -⟩
  · simp only [Image.setCell, Image.recAt_slot slot]
    simp [Image.idx, Image.setSlot]
  · simp only [Image.setCell, found]
    exact Image.idx_length_setRec found (r.sameShape_setPtr p)

omit h in
@[simp] theorem Image.dat_setCell (im : Image) (a : Nat) (p : Ptr)
    : (im.setCell a p).dat = im.dat := by
  simp only [Image.setCell]
  split <;> rfl

omit h in
@[simp] theorem Image.chunkAt_setCell (im : Image) (a : Nat) (p : Ptr) (c : Nat)
    : (im.setCell a p).chunkAt c = im.chunkAt c := by
  simp only [Image.setCell]
  split <;> rfl

end SetCell

section SetChunk

variable {im : Image} {c : Nat} {d d' : CString} (h : im.chunkAt c = some d)
  (same : d'.bytes.length = d.bytes.length)
include h same

/-- The data after some has been written over. -/
theorem Image.chunkAt_setChunk (x : Nat)
    : (im.setChunk c d').chunkAt x = if x = c then some d' else im.chunkAt x :=
  tileAt_put h (by simp [same]) x

/-- `_db_writedat` over an existing region. -/
theorem Image.dat_setChunk : pwrite 0 im.dat c (encChunk d') = (im.setChunk c d').dat := by
  have length : (encChunk d').length = (encChunk d).length := by simp [same]
  have put := pwrite_render (z := 0) [] h length
  simpa [Image.dat, Image.setChunk] using put

/-- Data of the same length leaves the length of the file. -/
theorem Image.dat_length_setChunk : (im.setChunk c d').dat.length = im.dat.length :=
  length_render_tilePut h (by simp [same])

end SetChunk

@[simp] theorem Image.idx_setChunk (im : Image) (c : Nat) (d : CString)
    : (im.setChunk c d).idx = im.idx := rfl

@[simp] theorem Image.recAt_setChunk (im : Image) (c : Nat) (d : CString) (o : Nat)
    : (im.setChunk c d).recAt o = im.recAt o := rfl

@[simp] theorem Image.cell_setChunk (im : Image) (c : Nat) (d : CString) (a : Nat)
    : (im.setChunk c d).cell a = im.cell a := rfl

/-- The data after some has been appended. -/
theorem Image.chunkAt_addChunk (im : Image) (d : CString) (x : Nat)
    : (im.addChunk d).chunkAt x = if x = im.dat.length then some d else im.chunkAt x := by
  have place : 0 + (render encChunk im.chunks).length = im.dat.length := by
    simp [Image.dat]
  simp only [Image.chunkAt, Image.addChunk, tileAt_append encChunk_pos, place]

/-- `_db_writedat` at the end of the data file. -/
theorem Image.dat_addChunk (im : Image) (d : CString)
    : pwrite 0 im.dat im.dat.length (encChunk d) = (im.addChunk d).dat := by
  rw [pwrite_end]
  simp [Image.dat, Image.addChunk]

@[simp] theorem Image.idx_addChunk (im : Image) (d : CString)
    : (im.addChunk d).idx = im.idx := rfl

@[simp] theorem Image.recAt_addChunk (im : Image) (d : CString) (o : Nat)
    : (im.addChunk d).recAt o = im.recAt o := rfl

@[simp] theorem Image.cell_addChunk (im : Image) (d : CString) (a : Nat)
    : (im.addChunk d).cell a = im.cell a := rfl

end Minions.Db
