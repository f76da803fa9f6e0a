import Minions.Db.Rules

/-! Proof rules for the functions of `db.c` that read or write one field or one record.
A rule for a function that reads asks for the field to be there whenever the function may
look; a rule for a function that writes asks for the change to be allowed in whatever state
the write happens.
-/

namespace Minions.Db

open Minions.Data Minions.Logic

variable {p : Pid} {ab : Prop} {l : Offsets} {s : State} {db : DB}

-----------------------------------------------------------------------------------------
-- Reading
-----------------------------------------------------------------------------------------

/-- What is read at a pointer of the index file. -/
theorem Inv.pread_cell {a : Nat} {q : Ptr} (inv : Inv s) (h : s.2.im.cell a = some q)
    : pread (s.1.file .idx).data a PTR_SZ = q.enc := by
  rw [show (s.1.file .idx).data = s.2.im.idx from inv.idx]
  exact Image.pread_cell h

/-- What is read at the front of a record. -/
theorem Inv.pread_head {o : Nat} {r : Rec} (inv : Inv s) (h : s.2.im.recAt o = some r)
    : pread (s.1.file .idx).data o (PTR_SZ + IDXLEN_SZ) = r.head := by
  rw [show (s.1.file .idx).data = s.2.im.idx from inv.idx]
  exact Image.pread_head h

/-- What is read behind the front of a record. -/
theorem Inv.pread_text {o : Nat} {r : Rec} (inv : Inv s) (h : s.2.im.recAt o = some r)
    : pread (s.1.file .idx).data (o + (PTR_SZ + IDXLEN_SZ)) r.text.length = r.text := by
  rw [show (s.1.file .idx).data = s.2.im.idx from inv.idx]
  exact Image.pread_text h

/-- What is read at a region of the data file. -/
theorem Inv.pread_chunk {c : Nat} {d : CString} (inv : Inv s) (h : s.2.im.chunkAt c = some d)
    : pread (s.1.file .dat).data c (d.bytes.length + 1) = encChunk d := by
  rw [show (s.1.file .dat).data = s.2.im.dat from inv.dat]
  exact Image.pread_chunk h

/-- `_db_readptr` returns the content of the cell. -/
theorem wp_readptr {a v : Nat} {Q : Int → Offsets → State → Prop}
    (cell : ∀ s', Rely p s s' → Inv s' → s'.2.im.next a = some v)
    (h : ∀ s', Rely p s s' → Inv s' → Q v (l.move .idx (a + PTR_SZ)) s')
    : Wp p ab (dbReadptr a) Q l s := by
  simp only [dbReadptr, Prog.bind_eq, Prog.pure_eq, errDump_bind]
  refine wp_lseek_set fun s₁ hr₁ hi₁ => ?_
  rw [if_neg (by omega)]
  refine wp_read fun s₂ hr₂ hi₂ => ?_
  have hr := hr₁.trans hr₂
  obtain ⟨q, at_, value⟩ := Image.cell_of_next (cell s₂ hr hi₂)
  rw [Offsets.move_at, hi₂.pread_cell at_, Ptr.enc_length, if_neg (by simp), q.atol_enc,
    value, Offsets.move_move]
  exact fun s₃ hr₃ hi₃ => h s₃ (hr.trans hr₃) hi₃

/-- The handle after `_db_readidx` has read the record `r` at `o`. -/
def DB.load (db : DB) (o : Nat) (r : Rec) : DB :=
  { db with
    idxoff := (o : Int)
    ptrval := (r.ptr.val : Int)
    idxlen := r.text.length
    idxbuf := r.key
    datoff := (r.datoff : Int)
    datlen := r.datlen }

/-- The checks of `_db_readidx` on the length field of a record succeed. -/
theorem Rec.length_ok (r : Rec)
    : ¬ (r.text.length < IDXLEN_MIN ∨ r.text.length > IDXLEN_MAX) := by
  have low := r.text_length_ge
  have high := r.text_length_le
  omega

/-- The second half of `_db_readidx`, on a record of the shape of the one whose front was
read.
-/
theorem wp_readidx_body (db : DB) {o : Nat} {r : Rec} {Q : Int × DB → Offsets → State → Prop}
    (at_ : l.idx = o + (PTR_SZ + IDXLEN_SZ))
    (h : ∀ s', Rely p s s' → Inv s'
      → ∃ r', s'.2.im.recAt o = some r' ∧ r.SameShape r'
        ∧ ∀ s'', Rely p s' s'' → Inv s''
          → Q (db.ptrval,
                { db with
                  idxlen := r'.text.length
                  idxbuf := r'.key
                  datoff := (r'.datoff : Int)
                  datlen := r'.datlen })
              (l.move .idx (o + r'.enc.length)) s'')
    : Wp p ab
        ((read .idx r.text.length).bind fun body =>
          if body.length ≠ r.text.length then
            errDump "_db_readidx: read error of index record"
          else if body.getLast? ≠ some NEWLINE then errDump "_db_readidx: missing newline"
          else parseIdxbuf { db with idxlen := r.text.length } (cstr body.dropLast)) Q l s := by
  refine wp_read fun s₁ hr₁ hi₁ => ?_
  obtain ⟨r', found, shape, rest⟩ := h s₁ hr₁ hi₁
  have here : l.at .idx = o + (PTR_SZ + IDXLEN_SZ) := at_
  have bytes : pread (s₁.1.file .idx).data (l.at .idx) r.text.length = r'.text := by
    rw [here, ← shape.text_length]
    exact hi₁.pread_text found
  have place : l.at .idx + r'.text.length = o + r'.enc.length := by
    rw [here, r'.enc_length]
    omega
  rw [bytes, shape.text_length, if_neg (by simp), r'.text_getLast, if_neg (by simp), r'.parse,
    ← shape.text_length, place]
  exact rest

/-- `_db_readidx` of a record that nobody changes meanwhile. -/
theorem wp_readidx {o : Nat} {r : Rec} {Q : Int × DB → Offsets → State → Prop}
    (found : ∀ s', Rely p s s' → Inv s' → s'.2.im.recAt o = some r)
    (inv : Inv s)
    (h : ∀ s', Rely p s s' → Inv s'
      → Q ((r.ptr.val : Int), db.load o r) (l.move .idx (o + r.enc.length)) s')
    : Wp p ab (dbReadidx db o) Q l s := by
  have nonzero : (o : Int) ≠ 0 := by
    have pos := Image.recAt_pos (found s (Rely.refl p s) inv)
    omega
  simp only [dbReadidx, Prog.bind_eq, Prog.pure_eq, errDump_bind, if_neg nonzero]
  refine wp_lseek_set fun s₁ hr₁ hi₁ => ?_
  rw [if_neg (by omega)]
  refine wp_read fun s₂ hr₂ hi₂ => ?_
  have hr := hr₁.trans hr₂
  simp only [Offsets.move_at, hi₂.pread_head (found s₂ hr hi₂), r.head_length, ne_eq,
    not_true_eq_false, if_false, r.head_take, r.ptr.atol_enc, r.sizeT_head, if_neg r.length_ok,
    Offsets.move_move]
  refine wp_readidx_body { db with idxoff := (o : Int), ptrval := r.ptr.val } (o := o)
    rfl fun s₃ hr₃ hi₃ => ?_
  refine ⟨r, found s₃ (hr.trans hr₃) hi₃, .refl r, fun s₄ hr₄ hi₄ => ?_⟩
  rw [Offsets.move_move]
  exact h s₄ ((hr.trans hr₃).trans hr₄) hi₄

/-- `_db_readdat`, at which the operation of `p` may take effect. -/
theorem wp_readdat {c : Nat} {Q : List Byte × DB → Offsets → State → Prop}
    (off : db.datoff = c)
    (h : ∀ s', Rely p s s' → Inv s'
      → ∃ d stat', s'.2.im.chunkAt c = some d ∧ db.datlen = d.bytes.length + 1
        ∧ (∀ q, q ≠ p → stat' q = s'.2.stat q)
        ∧ Effect p (.read .dat db.datlen) s'.2 { s'.2 with stat := stat' }
        ∧ ∀ s'', Rely p (s'.1, { s'.2 with stat := stat' }) s'' → Inv s''
          → Q (d.bytes, { db with datbuf := d.bytes }) (l.move .dat (c + db.datlen)) s'')
    : Wp p ab (dbReaddat db) Q l s := by
  simp only [dbReaddat, Prog.bind_eq, Prog.pure_eq, errDump_bind, off]
  refine wp_lseek_set fun s₁ hr₁ hi₁ => ?_
  rw [if_neg (by omega)]
  refine wp_read_effect fun s₂ hr₂ hi₂ => ?_
  obtain ⟨d, stat', found, length, stats, effect, rest⟩ := h s₂ (hr₁.trans hr₂) hi₂
  refine ⟨stat', stats, effect, ?_⟩
  have bytes : pread (s₂.1.file .dat).data c db.datlen = encChunk d := by
    rw [length]
    exact hi₂.pread_chunk found
  rw [Offsets.move_at, bytes, encChunk_length, ← length, if_neg (by simp), encChunk_getLast,
    if_neg (by simp), encChunk_dropLast, d.cstr_bytes, Offsets.move_move, ← off]
  exact rest

-----------------------------------------------------------------------------------------
-- Writing
-----------------------------------------------------------------------------------------

/-- A pointer value that passes the check of `_db_writeptr` and `_db_writeidx`. -/
theorem Ptr.of_int {v : Int} (h : ¬ (v < 0 ∨ v > PTR_MAX)) : ∃ q : Ptr, (q.val : Int) = v :=
  ⟨⟨v.toNat, by omega⟩, by simp only; omega⟩

/-- A pointer is formatted as a number with a sign. -/
theorem Ptr.enc_int (q : Ptr) : padLeft PTR_SZ (decimalInt q.val) = q.enc := rfl

/-- A pointer can be written at once. -/
theorem Ptr.enc_small (q : Ptr) : q.enc.length ≤ INT_MAX := by
  rw [q.enc_length]
  decide

/-- `_db_writeptr`. -/
theorem wp_writeptr {a : Nat} {v : Int} {Q : Unit → Offsets → State → Prop}
    (may : ∀ s', Rely p s s' → Inv s' → MayWrite p s' .idx a PTR_SZ)
    (h : ∀ s', Rely p s s' → Inv s' → ∀ q : Ptr, (q.val : Int) = v
      → ∃ g old, s'.2.im.cell a = some old ∧ g.im = s'.2.im.setCell a q
        ∧ Allowed p s' g ∧ g.map = s'.2.map ∧ g.stat = s'.2.stat
        ∧ ∀ s'', Rely p (s'.1.put g.im, g) s'' → Inv s''
          → Q () (l.move .idx (a + PTR_SZ)) s'')
    : Wp p True (dbWriteptr a v) Q l s := by
  simp only [dbWriteptr, Prog.bind_eq, Prog.pure_eq, errDump_bind, errQuit_bind]
  by_cases range : v < 0 ∨ v > PTR_MAX
  · rw [if_pos range]
    exact wp_errQuit trivial
  · obtain ⟨q, rfl⟩ := Ptr.of_int range
    have bytes : (padLeft PTR_SZ (decimalInt q.val)).take PTR_SZ = q.enc := by
      rw [q.enc_int, ← q.enc_length, List.take_length]
    rw [if_neg range, bytes]
    refine wp_lseek_set fun s₁ hr₁ hi₁ => ?_
    rw [if_neg (by omega)]
    refine wp_write q.enc_small (fun s₂ hr₂ hi₂ => ?_) (Or.inr ⟨rfl, q.enc_length⟩)
      (fun s₂ hr₂ hi₂ => ?_) fun s₂ hr₂ hi₂ _ => ?_
    · rw [Offsets.move_at, q.enc_length]
      exact may s₂ (hr₁.trans hr₂) hi₂
    · rw [if_pos (by decide)]
      exact wp_errDump trivial
    · obtain ⟨g, old, cell, im, allowed, map, stat, rest⟩ := h s₂ (hr₁.trans hr₂) hi₂ q rfl
      refine ⟨g, ?_, allowed, Or.inl ⟨map, stat⟩, ?_⟩
      · rw [Offsets.move_at, im]
        exact put_idx hi₂.idx hi₂.dat (Image.dat_setCell _ _ _) (Image.idx_setCell cell q)
      · rw [q.enc_length, if_neg (by simp), Offsets.move_at, Offsets.move_move]
        exact rest

/-- `_db_writedat` over an existing region, at which the operation of `p` may take
effect. Data that is too long for one write changes nothing.
-/
theorem wp_writedat_set {c : Nat} {d' : CString} {Q : DB → Offsets → State → Prop}
    (unsettled : Unsettled (s.2.stat p))
    (may : d'.bytes.length + 1 ≤ INT_MAX → ∀ s', Rely p s s' → Inv s'
      → MayWrite p s' .dat c (d'.bytes.length + 1))
    (h : d'.bytes.length + 1 ≤ INT_MAX → ∀ s', Rely p s s' → Inv s'
      → ∃ g d, s'.2.im.chunkAt c = some d ∧ d'.bytes.length = d.bytes.length
        ∧ g.im = s'.2.im.setChunk c d' ∧ Allowed p s' g
        ∧ Effect p (.write .dat (encChunk d')) s'.2 g
        ∧ ∀ s'', Rely p (s'.1.put g.im, g) s'' → Inv s''
          → Q { db with datoff := (c : Int), datlen := d'.bytes.length + 1 }
              (l.move .dat (c + (d'.bytes.length + 1))) s'')
    : Wp p True (dbWritedat db d'.bytes c .set) Q l s := by
  simp only [dbWritedat, Prog.bind_eq, Prog.pure_eq, errDump_bind, reduceCtorEq, if_false]
  refine wp_lseek_set fun s₁ hr₁ hi₁ => ?_
  rw [if_neg (by omega)]
  have size : (d'.bytes ++ [NEWLINE]).length = d'.bytes.length + 1 := by simp
  by_cases small : (d'.bytes ++ [NEWLINE]).length ≤ INT_MAX
  case neg =>
    rw [write_refused small]
    exact wp_errDump trivial
  rw [size] at small
  have unsettled₁ : Unsettled (s₁.2.stat p) := by rwa [hr₁.stat]
  refine wp_write (size ▸ small) (fun s₂ hr₂ hi₂ => ?_) (Or.inl unsettled₁)
    (fun s₂ hr₂ hi₂ => ?_) fun s₂ hr₂ hi₂ _ => ?_
  · rw [Offsets.move_at]
    exact encChunk_length d' ▸ may small s₂ (hr₁.trans hr₂) hi₂
  · rw [if_pos (by omega)]
    exact wp_errDump trivial
  · obtain ⟨g, d, chunk, same, im, allowed, effect, rest⟩ := h small s₂ (hr₁.trans hr₂) hi₂
    refine ⟨g, ?_, allowed, effect, ?_⟩
    · rw [Offsets.move_at, im]
      exact put_dat hi₂.idx hi₂.dat (Image.idx_setChunk _ _ _) (Image.dat_setChunk chunk same)
    · rw [size, if_neg (by simp), Offsets.move_at, Offsets.move_move]
      exact rest

/-- The bytes that `_db_writeidx` writes for a record. -/
theorem Rec.enc_asciiptrlen (r : Rec)
    : (asciiptrlen r.ptr.val (idxText r.key r.datoff r.datlen).length).take
        (PTR_SZ + IDXLEN_SZ) ++ idxText r.key r.datoff r.datlen = r.enc := by
  have front : asciiptrlen r.ptr.val (idxText r.key r.datoff r.datlen).length = r.head := rfl
  rw [front, ← r.head_length, List.take_length]
  rfl

/-- A record can be written at once. -/
theorem Rec.enc_small (r : Rec) : r.enc.length ≤ INT_MAX := by
  have high := r.text_length_le
  rw [r.enc_length]
  simp only [PTR_SZ, IDXLEN_SZ, IDXLEN_MAX, INT_MAX] at high ⊢
  omega

/-- The key of a record is short. -/
theorem Rec.key_small (r : Rec) : r.key.length ≤ INT_MAX := by
  have high := r.text_length_le
  simp only [Rec.text, idxText, List.length_append, IDXLEN_MAX] at high
  simp only [INT_MAX]
  omega

/-- What `_db_writeidx` requires of its arguments besides the checks it makes itself. -/
structure Writable (db : DB) (key : List Byte) (c : Nat) : Prop where
  keyOk : ∀ b ∈ key, b ≠ 0 ∧ b ≠ SEP
  off : db.datoff = c
  offMax : c ≤ OFF_MAX
  lenPos : 0 < db.datlen
  lenMax : db.datlen ≤ DATLEN_MAX

/-- The record that `_db_writeidx` writes when its checks succeed. -/
theorem Writable.record {key : List Byte} {c : Nat} (w : Writable db key c) {v : Int}
    (range : ¬ (v < 0 ∨ v > PTR_MAX))
    (length : ¬ ((idxText key db.datoff db.datlen).length < IDXLEN_MIN
      ∨ (idxText key db.datoff db.datlen).length > IDXLEN_MAX))
    : ∃ r : Rec, r.key = key ∧ r.datoff = c ∧ r.datlen = db.datlen ∧ (r.ptr.val : Int) = v := by
  obtain ⟨q, value⟩ := Ptr.of_int range
  rw [w.off] at length
  exact ⟨⟨q, key, c, db.datlen, w.keyOk, by omega, by omega, w.lenPos, w.lenMax, w.offMax⟩,
    rfl, rfl, rfl, value⟩

/-- `_db_writeidx` over an existing record, at which the operation of `p` may take effect. -/
theorem wp_writeidx_set {o c : Nat} {key : List Byte} {v : Int}
    {Q : DB → Offsets → State → Prop} (w : Writable db key c)
    (unsettled : Unsettled (s.2.stat p))
    (h : ∀ r' : Rec, r'.key = key → r'.datoff = c → r'.datlen = db.datlen
      → (r'.ptr.val : Int) = v → ∀ s', Rely p s s' → Inv s'
      → MayWrite p s' .idx o r'.enc.length
        ∧ ∃ g r, s'.2.im.recAt o = some r ∧ r.SameShape r'
          ∧ g.im = s'.2.im.setRec o r' ∧ Allowed p s' g
          ∧ Effect p (.write .idx r'.enc) s'.2 g
          ∧ ∀ s'', Rely p (s'.1.put g.im, g) s'' → Inv s''
            → Q { db with ptrval := v, idxbuf := idxText key db.datoff db.datlen
                          idxoff := (o : Int) }
                (l.move .idx (o + r'.enc.length)) s'')
    : Wp p True (dbWriteidx db key o .set v) Q l s := by
  simp only [dbWriteidx, Prog.bind_eq, Prog.pure_eq, errDump_bind, errQuit_bind, reduceCtorEq,
    if_false]
  by_cases range : v < 0 ∨ v > PTR_MAX
  · rw [if_pos range]
    exact wp_errQuit trivial
  by_cases length : (idxText key db.datoff db.datlen).length < IDXLEN_MIN
      ∨ (idxText key db.datoff db.datlen).length > IDXLEN_MAX
  · rw [if_neg range, if_pos length]
    exact wp_errDump trivial
  obtain ⟨r', rfl, rfl, len, rfl⟩ := w.record range length
  specialize h r' rfl rfl len rfl
  rw [if_neg range, if_neg length]
  have bytes := r'.enc_asciiptrlen
  rw [len, ← w.off] at bytes
  rw [bytes]
  refine wp_lseek_set fun s₁ hr₁ hi₁ => ?_
  rw [if_neg (by omega)]
  have unsettled₁ : Unsettled (s₁.2.stat p) := by rwa [hr₁.stat]
  refine wp_write r'.enc_small (fun s₂ hr₂ hi₂ => ?_) (Or.inl unsettled₁) (fun s₂ hr₂ hi₂ => ?_)
    fun s₂ hr₂ hi₂ _ => ?_
  · rw [Offsets.move_at]
    exact (h s₂ (hr₁.trans hr₂) hi₂).1
  · rw [if_pos (by omega)]
    exact wp_errDump trivial
  · obtain ⟨-, g, r, found, shape, im, allowed, effect, rest⟩ := h s₂ (hr₁.trans hr₂) hi₂
    refine ⟨g, ?_, allowed, effect, ?_⟩
    · rw [Offsets.move_at, im]
      exact put_idx hi₂.idx hi₂.dat (Image.dat_setRec _ _ _) (Image.idx_setRec found shape)
    · have size : r'.enc.length
          = PTR_SZ + IDXLEN_SZ + (idxText r'.key db.datoff db.datlen).length := by
        rw [r'.enc_length, w.off, ← len]
        rfl
      rw [if_neg (by rw [size]; simp), Offsets.move_at, Offsets.move_move]
      exact rest

end Minions.Db
