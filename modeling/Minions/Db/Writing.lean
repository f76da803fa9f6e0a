import Mathlib.Algebra.Order.BigOperators.Group.Finset
import Mathlib.Order.Interval.Finset.Nat
import Minions.Db.Delete
import Minions.Db.Reading

/-! What one process writes to the files of a database.
A rule for each writing function says which image it leaves, and where it aborts. Locks are not
tracked: a process that is alone never waits for one.
-/

namespace Minions.Db

open Minions.Data Minions.Logic

variable {p : Pid} {α β : Type} {l l' : Offsets} {d d' : Disk} {im im' : Image} {db : DB}

-----------------------------------------------------------------------------------------
-- Programs and the images they leave
-----------------------------------------------------------------------------------------

/-- The program ends as stated and leaves the files of the image. -/
def Writes (p : Pid) (prog : M α) (l : Offsets) (d : Disk) (out : Prog.Outcome Fatal α)
    (im : Image)
    : Prop :=
  ∃ l' d', Yields p prog l d out l' d' ∧ Placed d' im

/-- A part that aborts. -/
theorem Writes.bind_stopped {prog : M α} {f : α → M β} {e : Fatal}
    (first : Writes p prog l d (.stopped e) im)
    : Writes p (prog.bind f) l d (.stopped e) im := by
  obtain ⟨l₁, d₁, first, placed⟩ := first
  exact ⟨l₁, d₁, first.bind_stopped, placed⟩

/-- A program that leaves the files of an image writes that image. -/
theorem Yields.writes {prog : M α} {out : Prog.Outcome Fatal α}
    (ends : Yields p prog l d out l' d') (placed : Placed d' im)
    : Writes p prog l d out im :=
  ⟨l', d', ends, placed⟩

/-- The program ends, and how it ends and the image it leaves satisfy `Q`. -/
def Leaves (p : Pid) (prog : M α) (l : Offsets) (d : Disk)
    (Q : Prog.Outcome Fatal α → Image → Prop)
    : Prop :=
  ∃ out im, Writes p prog l d out im ∧ Q out im

section Leaves

variable {Q : Prog.Outcome Fatal β → Image → Prop}

/-- A result that satisfies the condition. -/
theorem Writes.leaves {prog : M β} {out : Prog.Outcome Fatal β}
    (writes : Writes p prog l d out im) (post : Q out im)
    : Leaves p prog l d Q :=
  ⟨out, im, writes, post⟩

/-- A step that ends with a value goes on with the rest. -/
theorem Writes.step {prog : M α} {f : α → M β} {a : α}
    (first : Writes p prog l d (.done a) im)
    (rest : ∀ {l' d'}, Placed d' im → Leaves p (f a) l' d' Q)
    : Leaves p (prog.bind f) l d Q := by
  obtain ⟨l₁, d₁, first, placed⟩ := first
  obtain ⟨out, im', ⟨l', d', rest, placed'⟩, post⟩ := @rest l₁ d₁ placed
  exact ⟨out, im', ⟨l', d', first.bind rest, placed'⟩, post⟩

/-- A part that ends with a value, and the rest. -/
theorem Yields.step {prog : M α} {f : α → M β} {a : α}
    (first : Yields p prog l d (.done a) l' d') (rest : Leaves p (f a) l' d' Q)
    : Leaves p (prog.bind f) l d Q := by
  obtain ⟨out, im, ⟨l'', d'', rest, placed⟩, post⟩ := rest
  exact ⟨out, im, ⟨l'', d'', first.bind rest, placed⟩, post⟩

/-- A part that ends with a value goes on with the rest, and a part that aborts aborts the
whole.
-/
theorem Leaves.bind {prog : M α} {f : α → M β}
    (first : Leaves p prog l d fun out im =>
      (∃ a, out = .done a ∧ ∀ {l' d'}, Placed d' im → Leaves p (f a) l' d' Q)
      ∨ ∃ e, out = .stopped e ∧ Q (.stopped e) im)
    : Leaves p (prog.bind f) l d Q := by
  obtain ⟨out, im, writes, ⟨a, rfl, rest⟩ | ⟨e, rfl, post⟩⟩ := first
  · exact writes.step rest
  · exact ⟨_, im, writes.bind_stopped, post⟩

end Leaves

/-- A pointer lies inside the file. -/
theorem Image.cell_range {a : Nat} {q : Ptr} (cell : im.cell a = some q)
    : a + PTR_SZ ≤ im.idx.length := by
  rcases im.cell_cases cell with slot | ⟨r, found, -⟩
  · have range := im.slotAt_range slot
    simp only [Image.idx, List.length_append, Image.header_length]
    omega
  · have range := (im.recAt_range found).2
    have size := r.ptr_fits
    omega

/-- A pointer passes the check of its value. -/
theorem Ptr.in_range (q : Ptr) : ¬ ((q.val : Int) < 0 ∨ (q.val : Int) > PTR_MAX) := by
  have le := q.le
  omega

/-- A pointer that fits its field is written wherever the `lseek` led. -/
theorem yields_writeptr {a : Nat} (room : a + PTR_SZ ≤ OFF_MAX) (q : Ptr)
    : Yields p (dbWriteptr a q.val) l d (.done ()) (l.move .idx (a + PTR_SZ))
        (d.setFile .idx { d.file .idx with data := pwrite 0 (d.file .idx).data a q.enc }) := by
  have bytes : (padLeft PTR_SZ (decimalInt q.val)).take PTR_SZ = q.enc := by
    rw [q.enc_int, ← q.enc_length, List.take_length]
  simp only [dbWriteptr, Prog.bind_eq, Prog.pure_eq, errDump_bind, errQuit_bind,
    if_neg q.in_range, bytes]
  refine yields_lseek (n := a) rfl ?_
  rw [if_neg (by omega)]
  refine yields_write q.enc_small (by rw [Offsets.move_at, q.enc_length]; exact room) ?_
  rw [q.enc_length, if_neg (by simp), Offsets.move_at, Offsets.move_move]
  exact yields_ret ()

/-- The bytes that `_db_writeidx` writes for a pointer and the text of a record. -/
def recordBytes (v : Int) (text : List Byte) : List Byte :=
  (asciiptrlen v text.length).take (PTR_SZ + IDXLEN_SZ) ++ text

/-- The length of what `_db_writeidx` writes. -/
theorem recordBytes_length (v : Int) (text : List Byte)
    : (recordBytes v text).length = PTR_SZ + IDXLEN_SZ + text.length := by
  simp only [recordBytes, asciiptrlen, padLeft, List.length_append, List.length_take,
    List.length_replicate]
  omega

/-- `_db_writeidx` leaves the record where its `lseek` led, whatever its key holds. -/
theorem yields_writeidx_any {key text : List Byte} {offset : Int} {whence : Whence} {v : Int}
    {o : Nat} (formatted : idxText key db.datoff db.datlen = text)
    (range : ¬ (v < 0 ∨ v > PTR_MAX))
    (length : ¬ (text.length < IDXLEN_MIN ∨ text.length > IDXLEN_MAX))
    (target : seekTarget d l .idx offset whence = o)
    (room : o + (recordBytes v text).length ≤ OFF_MAX)
    : ∃ d',
        Yields p (dbWriteidx db key offset whence v) l d
          (.done { db with ptrval := v, idxbuf := text, idxoff := o })
          (l.move .idx (o + (recordBytes v text).length)) d'
        ∧ d'.idx.data = pwrite 0 d.idx.data o (recordBytes v text) ∧ d'.dat = d.dat := by
  have size := recordBytes_length v text
  have small : (recordBytes v text).length ≤ INT_MAX := by
    simp only [IDXLEN_MAX, PTR_SZ, IDXLEN_SZ, INT_MAX] at length size ⊢
    omega
  have bytes : (asciiptrlen v text.length).take (PTR_SZ + IDXLEN_SZ) ++ text
      = recordBytes v text := rfl
  simp only [dbWriteidx, Prog.bind_eq, Prog.pure_eq, errDump_bind, errQuit_bind, formatted,
    if_neg range, if_neg length, bytes]
  let written (d : Disk) : Disk :=
    d.setFile .idx { d.file .idx with data := pwrite 0 (d.file .idx).data o (recordBytes v text) }
  by_cases appends : whence = .end
  · let locked := d.setLocks p .idx ((db.nhash + 1) * PTR_SZ + 1) 0 (some .wr)
    refine ⟨(written locked).setLocks p .idx ((db.nhash + 1) * PTR_SZ + 1) 0 none, ?_, rfl, rfl⟩
    rw [if_pos appends]
    refine yields_writewLock ?_
    rw [if_neg (by decide)]
    refine yields_lseek (n := o) target ?_
    rw [if_neg (by omega)]
    refine yields_write small (by rwa [Offsets.move_at]) ?_
    rw [if_neg (by rw [size]; simp), if_pos appends, Offsets.move_at, Offsets.move_move]
    refine yields_unLock ?_
    rw [if_neg (by decide)]
    exact yields_ret _
  · refine ⟨written d, ?_, rfl, rfl⟩
    rw [if_neg appends]
    refine yields_lseek (n := o) target ?_
    rw [if_neg (by omega)]
    refine yields_write small (by rwa [Offsets.move_at]) ?_
    rw [if_neg (by rw [size]; simp), if_neg appends, Offsets.move_at, Offsets.move_move]
    exact yields_ret _

/-- The checks of `_db_writeidx` pass for a record. -/
theorem Rec.writeidx_checks (r : Rec) (off : db.datoff = r.datoff) (len : db.datlen = r.datlen)
    : ¬ ((r.ptr.val : Int) < 0 ∨ (r.ptr.val : Int) > PTR_MAX)
      ∧ ¬ ((idxText r.key db.datoff db.datlen).length < IDXLEN_MIN
        ∨ (idxText r.key db.datoff db.datlen).length > IDXLEN_MAX)
      ∧ (asciiptrlen r.ptr.val (idxText r.key db.datoff db.datlen).length).take
          (PTR_SZ + IDXLEN_SZ) ++ idxText r.key db.datoff db.datlen = r.enc
      ∧ r.enc.length = PTR_SZ + IDXLEN_SZ + (idxText r.key db.datoff db.datlen).length := by
  rw [off, len]
  have low := r.lenMin
  have high := r.lenMax
  exact ⟨r.ptr.in_range, by omega, r.enc_asciiptrlen, r.enc_length⟩

/-- The sizes of both files stay the same. -/
structure SameSize (im im' : Image) : Prop where
  idx : im'.idx.length = im.idx.length
  dat : im'.dat.length = im.dat.length

/-- The index record of the key passes the length check of `_db_writeidx`, if its data is at
this offset.
-/
def Fits (key data : CString) (off : Nat) : Prop :=
  IDXLEN_MIN ≤ (idxText key.bytes off (data.bytes.length + 1)).length
  ∧ (idxText key.bytes off (data.bytes.length + 1)).length ≤ IDXLEN_MAX

instance (key data : CString) (off : Nat) : Decidable (Fits key data off) := by
  unfold Fits
  infer_instance

/-- The length of the data is one that `db_store` accepts. -/
def Storable (data : CString) : Prop :=
  DATLEN_MIN ≤ data.bytes.length + 1 ∧ data.bytes.length + 1 ≤ DATLEN_MAX

instance (data : CString) : Decidable (Storable data) := by
  unfold Storable
  infer_instance

/-- The length of the data passes the check of `db_store`, which looks at an `int`. -/
def Passes (data : CString) : Prop :=
  DATLEN_MIN ≤ toInt (data.bytes.length + 1 : Nat)
  ∧ toInt (data.bytes.length + 1 : Nat) ≤ DATLEN_MAX

instance (data : CString) : Decidable (Passes data) := by
  unfold Passes
  infer_instance

/-- On data that an `int` can count, the check looks at the length itself. -/
theorem passes_iff_storable {data : CString} (small : data.bytes.length + 1 ≤ INT_MAX)
    : Passes data ↔ Storable data := by
  rw [Passes, Storable, toInt_natCast small, Nat.cast_le, Nat.cast_le]

/-- Data of an accepted length is one that an `int` counts. -/
theorem Storable.small {data : CString} (storable : Storable data)
    : data.bytes.length + 1 ≤ INT_MAX := by
  have high := storable.2
  simp only [DATLEN_MAX] at high
  simp only [INT_MAX]
  omega

/-- Data of an accepted length passes the check. -/
theorem Storable.passes {data : CString} (storable : Storable data) : Passes data :=
  (passes_iff_storable storable.small).mpr storable

/-- Data that passes although it is too long is too long for an `int`. -/
theorem Passes.long {data : CString} (passes : Passes data) (long : ¬ Storable data)
    : ¬ data.bytes.length + 1 ≤ INT_MAX :=
  fun small => long ((passes_iff_storable small).mp passes)

/-- The index record of a key that an `int` cannot count is too long. -/
theorem Fits.key_small {key data : CString} {off : Nat} (fits : Fits key data off)
    : key.bytes.length ≤ INT_MAX := by
  have high := fits.2
  simp only [idxText, List.length_append, IDXLEN_MAX] at high
  simp only [INT_MAX]
  omega

/-- Every chain has a pointer. -/
theorem chain_cell (im : Image) {h : Nat} (lt : h < NHASH_DEF)
    : ∃ q, im.cell (chainSlot h) = some q := by
  obtain ⟨q, slot⟩ := im.slotAt_isSome (i := h + 1) (by omega)
  rw [← chainSlot_eq] at slot
  exact ⟨q, Image.cell_slot slot⟩

-----------------------------------------------------------------------------------------
-- The sizes of the files
-----------------------------------------------------------------------------------------

section Sizes

variable {chain : Nat → List Nat} {free : List Nat} {idx dat : List Byte}

end Sizes

end Minions.Db
