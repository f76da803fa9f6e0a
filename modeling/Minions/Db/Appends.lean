import Minions.Db.Fields

/-! Appending to the two files.
`_db_writedat` and `_db_writeidx` at the end of a file hold a lock of their own from before
the `lseek` until after the `write`. To the caller each looks like one step: the rules relate
the states as they are without that lock.
-/

namespace Minions.Db

open Minions.Data Minions.Logic

variable {p : Pid} {ab : Prop} {l : Offsets} {s : State} {db : DB}

/-- What a process holds after it has given up a lock, it held before. -/
theorem HoldsW.of_release {fd : Fd} {a n b : Nat}
    (h : HoldsW (s.1.setLocks p fd a n none, s.2) p b)
    : HoldsW s p b := by
  simp only [HoldsW, Disk.setLocks] at h ⊢
  split at h
  · cases h
  · exact h

/-- A lock that guards no list may be given up at any time. -/
theorem Inv.release_aside {fd : Fd} {a n : Nat} (inv : Inv s)
    (chains : ∀ h, h < NHASH_DEF → fd = .idx → ¬ inRange a n (chainSlot h))
    (free : fd = .idx → ¬ inRange a n FREE_OFF)
    : Inv (s.1.setLocks p fd a n none, s.2) := by
  have same : ∀ {b}, (fd = .idx → ¬ inRange a n b)
      → (s.1.setLocks p fd a n none).locks p .idx b = s.1.locks p .idx b := by
    intro b out
    simp only [Disk.setLocks]
    exact if_neg fun both => out both.2.1.symm both.2.2
  refine inv_release s.2.stat inv ?_ ?_ ?_
  · exact fun h lt _ file range => absurd range (chains h lt file)
  · exact fun _ file range => absurd range (free file)
  · intro o r found own
    have ok := inv.recOk found
    simp only [RecOk, own, OwnerOk] at ok ⊢
    rwa [same (chains _ (hash_lt r.key)), same free]

/-- The ghost state after `p` has appended the data region `d`. -/
def Ghost.addOrphan (g : Ghost) (p : Pid) (d : CString) : Ghost :=
  { g with
    im := g.im.addChunk d
    orphan := Function.update g.orphan p (some g.im.dat.length) }

/-- The ghost state after `p` has appended the record `r` for its orphan. -/
def Ghost.adopt (g : Ghost) (p : Pid) (r : Rec) (map' : Bindings) (stat' : Pid → Status)
    : Ghost :=
  { g with
    im := g.im.addRec r
    own := Function.update g.own g.im.idx.length (.proc p)
    orphan := Function.update g.orphan p none
    map := map'
    stat := stat' }

/-- `_db_writedat` at the end of the data file. Data that is too long for one write changes
nothing.
-/
theorem wp_writedat_end {d : CString} {Q : DB → Offsets → State → Prop}
    (unsettled : Unsettled (s.2.stat p)) (fresh : ∀ b, s.1.locks p .dat b = none)
    (orphan : s.2.orphan p = none)
    (h : d.bytes.length + 1 ≤ INT_MAX → ∀ u, Rely p s u → Inv u
      → u.2.im.dat.length + d.bytes.length + 1 ≤ OFF_MAX
      → Inv (u.1.put (u.2.im.addChunk d), u.2.addOrphan p d)
      → ∀ l' t, Rely p (u.1.put (u.2.im.addChunk d), u.2.addOrphan p d) t → Inv t
        → Q { db with datoff := (u.2.im.dat.length : Int), datlen := d.bytes.length + 1 } l' t)
    : Wp p True (dbWritedat db d.bytes 0 .end) Q l s := by
  simp only [dbWritedat, Prog.bind_eq, Prog.pure_eq, errDump_bind, if_true]
  refine wp_writewLock (fun b _ => fresh b) fun s₁ hr₁ hi₁ _ => ?_
  refine ⟨s₁.2.stat, fun _ _ => rfl, Effect.none p _ _, ?_⟩
  rw [if_neg (by decide)]
  refine wp_lseek_end fun s₂ hr₂ hi₂ => ?_
  rw [if_neg (by omega)]
  have held : s₂.1.locks p .dat 0 = some .wr := by
    rw [hr₂.locks, setLocks_self]
    simp [relock, inRange]
  -- Nobody else extends the file between the `lseek` and the `write`.
  have steady : ∀ s₃, Rely p s₂ s₃ → Inv s₃
      → (s₂.1.file .dat).data.length = s₃.2.im.dat.length := by
    intro s₃ hr₃ _
    have length := hr₃.datTail (by simp [held])
    rw [length]
    exact congrArg List.length hi₂.dat
  have unsettled₂ : Unsettled (s₂.2.stat p) := by
    rw [hr₂.stat]
    exact hr₁.stat ▸ unsettled
  have size : (d.bytes ++ [NEWLINE]).length = d.bytes.length + 1 := by simp
  by_cases small : (d.bytes ++ [NEWLINE]).length ≤ INT_MAX
  case neg =>
    rw [write_refused small]
    exact wp_errDump trivial
  refine wp_write small (fun s₃ hr₃ hi₃ => ?_) (Or.inl unsettled₂) (fun s₃ hr₃ hi₃ => ?_)
    fun s₃ hr₃ hi₃ room => ?_
  · rw [Offsets.move_at, steady s₃ hr₃ hi₃]
    exact .newChunk (by rw [hr₃.locks, held])
  · rw [if_pos (by omega)]
    exact wp_errDump trivial
  · rw [Offsets.move_at] at room ⊢
    rw [steady s₃ hr₃ hi₃] at room ⊢
    rw [size] at small room ⊢
    have none_ : s₃.2.orphan p = none := by
      rw [hr₃.orphan, hr₂.orphan]
      exact hr₁.orphan.trans orphan
    have allowed := allowed_addChunk (p := p) (d := d) hi₃ (by rw [hr₃.locks, held]) none_
    refine ⟨_, ?_, allowed, Or.inl ⟨rfl, rfl⟩, ?_⟩
    · exact put_dat hi₃.idx hi₃.dat (Image.idx_addChunk _ _) (Image.dat_addChunk _ d)
    rw [if_neg (by simp)]
    refine wp_unlock fun s₄ hr₄ hi₄ => ⟨hi₄.release_aside ?_ ?_, ?_⟩
    · exact fun _ _ file => by cases file
    · exact fun file => by cases file
    rw [if_neg (by decide)]
    intro t hrt hit
    have fresh₁ : ∀ b, inRange 0 0 b → s₁.1.locks p .dat b = none := by
      intro b _
      rw [hr₁.locks]
      exact fresh b
    have aside : ∀ {t : State}, Inv t → Inv (t.1.setLocks p .dat 0 0 none, t.2) :=
      fun inv => inv.release_aside (fun _ _ file => by cases file) fun file => by cases file
    refine h small (s₃.1.setLocks p .dat 0 0 none, s₃.2) ?_ (aside hi₃) (by simp only; omega)
      (aside allowed.1) _ t ?_ hit
    · exact hr₁.trans ((hr₂.trans hr₃).unlocked fresh₁)
    · exact (hr₄.release .dat 0 0).trans hrt

/-- The lock behind the table does not cover the table. -/
theorem inRange_tail {b : Nat} (h : b < RECS_OFF) : ¬ inRange RECS_OFF 0 b := by
  simp only [inRange]
  omega

/-- The pointers of the chains lie before the records. -/
theorem chainSlot_lt {h : Nat} (lt : h < NHASH_DEF) : chainSlot h < RECS_OFF := by
  simp only [chainSlot, HASH_OFF, PTR_SZ, RECS_OFF, NHASH_DEF] at lt ⊢
  omega

/-- What a process owns under fewer locks, it owns under more. -/
theorem OwnerOk.acquire {fd : Fd} {a n : Nat} {map : Bindings} {key : List Byte}
    {chunk : Option CString}
    (h : OwnerOk (s.1.setLocks p fd a n none).locks map key chunk (.proc p))
    : OwnerOk s.1.locks map key chunk (.proc p) := by
  intro nonblank
  obtain ⟨chain, rest⟩ := h nonblank
  exact ⟨HoldsW.of_release chain, rest.imp_right HoldsW.of_release⟩

/-- `_db_writeidx` at the end of the index file, at which the operation of `p` may take
effect.
-/
theorem wp_writeidx_end {c : Nat} {key : List Byte} {v : Int}
    {Q : DB → Offsets → State → Prop} (nhash : db.nhash = NHASH_DEF) (w : Writable db key c)
    (unsettled : Unsettled (s.2.stat p))
    (fresh : ∀ b, RECS_OFF ≤ b → s.1.locks p .idx b = none)
    (h : ∀ r : Rec, r.key = key → r.datoff = c → r.datlen = db.datlen
      → (r.ptr.val : Int) = v → ∀ u, Rely p s u → Inv u
      → ∃ d map' stat', u.2.orphan p = some c ∧ u.2.im.chunkAt c = some d
        ∧ d.bytes.length + 1 = db.datlen
        ∧ (∀ key, map' key = u.2.map key ∨ HoldsW u p (chainSlot (hash key)))
        ∧ (∀ {x y}, u.2.im.recAt x = some y → ¬ Blank y.key → map' y.key = u.2.map y.key)
        ∧ (∀ q, q ≠ p → stat' q = u.2.stat q)
        ∧ OwnerOk u.1.locks map' key (some d) (.proc p)
        ∧ (∀ g, g.map = map' → g.stat = stat' → Effect p (.write .idx r.enc) u.2 g)
        ∧ (Inv (u.1.put (u.2.im.addRec r), u.2.adopt p r map' stat')
          → ∀ l' t, Rely p (u.1.put (u.2.im.addRec r), u.2.adopt p r map' stat') t → Inv t
            → Q { db with ptrval := v, idxbuf := idxText key db.datoff db.datlen
                          idxoff := (u.2.im.idx.length : Int) } l' t))
    : Wp p True (dbWriteidx db key 0 .end v) Q l s := by
  have tail : (db.nhash + 1) * PTR_SZ + 1 = RECS_OFF := by rw [nhash]; rfl
  simp only [dbWriteidx, Prog.bind_eq, Prog.pure_eq, errDump_bind, errQuit_bind, if_true, tail]
  by_cases range : v < 0 ∨ v > PTR_MAX
  · rw [if_pos range]
    exact wp_errQuit trivial
  by_cases length : (idxText key db.datoff db.datlen).length < IDXLEN_MIN
      ∨ (idxText key db.datoff db.datlen).length > IDXLEN_MAX
  · rw [if_neg range, if_pos length]
    exact wp_errDump trivial
  obtain ⟨r, rfl, rfl, len, rfl⟩ := w.record range length
  specialize h r rfl rfl len rfl
  rw [if_neg range, if_neg length]
  have bytes := r.enc_asciiptrlen
  rw [len, ← w.off] at bytes
  rw [bytes]
  have freshTail : ∀ b, inRange RECS_OFF 0 b → s.1.locks p .idx b = none :=
    fun b inside => fresh b inside.1
  refine wp_writewLock freshTail fun s₁ hr₁ hi₁ _ => ?_
  refine ⟨s₁.2.stat, fun _ _ => rfl, Effect.none p _ _, ?_⟩
  rw [if_neg (by decide)]
  refine wp_lseek_end fun s₂ hr₂ hi₂ => ?_
  rw [if_neg (by omega)]
  have held : HoldsW s₂ p RECS_OFF := by
    rw [HoldsW, hr₂.locks, setLocks_self]
    simp [relock, inRange]
  have steady : ∀ s₃, Rely p s₂ s₃ → Inv s₃
      → (s₂.1.file .idx).data.length = s₃.2.im.idx.length := by
    intro s₃ hr₃ _
    rw [hr₃.tail held.holds]
    exact congrArg List.length hi₂.idx
  have unsettled₂ : Unsettled (s₂.2.stat p) := by
    rw [hr₂.stat]
    exact hr₁.stat ▸ unsettled
  refine wp_write r.enc_small (fun s₃ hr₃ hi₃ => ?_) (Or.inl unsettled₂)
    (fun s₃ hr₃ hi₃ => ?_) fun s₃ hr₃ hi₃ room => ?_
  · rw [Offsets.move_at, steady s₃ hr₃ hi₃]
    exact .newRecord (hr₃.holdsW.mpr held)
  · rw [if_pos (by omega)]
    exact wp_errDump trivial
  · rw [Offsets.move_at, steady s₃ hr₃ hi₃] at room ⊢
    have fresh₁ : ∀ b, inRange RECS_OFF 0 b → s₁.1.locks p .idx b = none := by
      intro b inside
      rw [hr₁.locks]
      exact freshTail b inside
    have aside : ∀ {t : State}, Inv t → Inv (t.1.setLocks p .idx RECS_OFF 0 none, t.2) :=
      fun inv => inv.release_aside (fun _ lt _ => inRange_tail (chainSlot_lt lt))
        fun _ => inRange_tail (by decide)
    obtain ⟨d, map', stat', orphan, chunk, size, maps, others, stats, ok, effect, rest⟩ :=
      h (s₃.1.setLocks p .idx RECS_OFF 0 none, s₃.2)
        (hr₁.trans ((hr₂.trans hr₃).unlocked fresh₁)) (aside hi₃)
    have allowed := allowed_addRec map' stat' hi₃ (hr₃.holdsW.mpr held) room orphan chunk
      (size.trans len.symm) (fun key => (maps key).imp_right HoldsW.of_release) others stats
      ok.acquire
    refine ⟨_, ?_, allowed, effect _ rfl rfl, ?_⟩
    · exact put_idx hi₃.idx hi₃.dat (Image.dat_addRec _ _) (Image.idx_addRec _ r)
    have size : r.enc.length
        = PTR_SZ + IDXLEN_SZ + (idxText r.key db.datoff db.datlen).length := by
      rw [r.enc_length, w.off, ← len]
      rfl
    rw [if_neg (by rw [size]; simp)]
    refine wp_unlock fun s₄ hr₄ hi₄ => ⟨aside hi₄, ?_⟩
    rw [if_neg (by decide)]
    intro t hrt hit
    exact rest (aside allowed.1) _ t ((hr₄.release .idx RECS_OFF 0).trans hrt) hit

end Minions.Db
