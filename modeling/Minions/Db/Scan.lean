import Minions.Db.Operations

/-! `db_rewind` and `db_nextrec`.
A scan holds the read lock of the free list and no chain lock. It steps from record to record,
whose shapes never change, and reads front, body and data of a record at different moments.
Its answer is a current binding at the moment the data is read.
-/

namespace Minions.Db

open Minions.Data Minions.Logic

variable {p : Pid} {ab : Prop} {l : Offsets} {s t : State} {db : DB}

/-- An offset at which a record starts, or would be appended. -/
def Boundary (im : Image) (o : Nat) : Prop :=
  o = RECS_OFF ∨ ∃ o' r, im.recAt o' = some r ∧ o = o' + r.enc.length

/-- Boundaries stay boundaries when no record changes its shape. -/
theorem Boundary.grow {im im' : Image} {o : Nat} (h : Boundary im o)
    (grows : ∀ {o r}, im.recAt o = some r → ∃ r', im'.recAt o = some r' ∧ r.SameShape r')
    : Boundary im' o := by
  rcases h with first | ⟨o', r, found, rfl⟩
  · exact Or.inl first
  · obtain ⟨r', found', shape⟩ := grows found
    exact Or.inr ⟨o', r', found', by rw [shape.enc_length]⟩

/-- A boundary between records survives the steps of others. -/
theorem Boundary.stable {o : Nat} (h : Boundary s.2.im o) (hr : Rely p s t)
    : Boundary t.2.im o :=
  h.grow hr.grows

/-- At a boundary there is a record, unless it is the end of the file. Witness: some record
covers the next byte; it starts there because records do not overlap.
-/
theorem Boundary.cases {im : Image} {o : Nat} (h : Boundary im o)
    : (∃ r, im.recAt o = some r) ∨ o = im.idx.length := by
  have size : RECS_OFF + (render Rec.enc im.recs).length = im.idx.length := by
    simp [Image.idx]
  by_cases last : o = im.idx.length
  · exact Or.inr last
  have low : RECS_OFF ≤ o := by
    rcases h with rfl | ⟨o', r, found, rfl⟩
    · exact Nat.le_refl _
    · have range := (im.recAt_range found).1
      omega
  have high : o < im.idx.length := by
    rcases h with rfl | ⟨o', r, found, rfl⟩
    · omega
    · have range := (im.recAt_range found).2
      omega
  have inside : o < RECS_OFF + (render Rec.enc im.recs).length := by omega
  obtain ⟨b, r, found, le, lt⟩ := tileAt_covers Rec.enc_pos low inside
  refine Or.inl ⟨r, ?_⟩
  suffices same : b = o by
    rw [← same]
    exact found
  rcases h with rfl | ⟨o', r', found', rfl⟩
  · have range := (im.recAt_range found).1
    omega
  · rcases Nat.lt_trichotomy o' b with before | rfl | after
    · have apart := tileAt_disjoint found' found before
      omega
    · obtain rfl : r = r' := Option.some.inj (found.symm.trans found')
      omega
    · have apart := tileAt_disjoint found found' after
      omega

/-- Behind a record is a boundary. -/
theorem Boundary.next {im : Image} {o : Nat} {r : Rec} (found : im.recAt o = some r)
    : Boundary im (o + r.enc.length) :=
  Or.inr ⟨o, r, found, rfl⟩

/-- `_db_readidx` at the current offset. At the end of the file the scan may take effect;
otherwise the body that was read is that of a record at the offset.
-/
theorem wp_readidx_next {Q : Int × DB → Offsets → State → Prop}
    (at_ : Boundary s.2.im l.idx)
    (atEnd : ∀ s', Rely p s s' → Inv s'
      → ∃ stat', (∀ q, q ≠ p → stat' q = s'.2.stat q)
        ∧ (∀ c, Effect p c s'.2 { s'.2 with stat := stat' })
        ∧ ∀ s'', Rely p (s'.1, { s'.2 with stat := stat' }) s'' → Inv s''
          → Q (-1, { db with idxoff := (l.idx : Int) }) l s'')
    (atRec : ∀ s' r, Rely p s s' → Inv s' → s'.2.im.recAt l.idx = some r
      → ∀ ptr : Ptr, ∀ s'', Rely p s' s'' → Inv s''
        → Q ((ptr.val : Int), { db.load l.idx r with ptrval := (ptr.val : Int) })
            (l.move .idx (l.idx + r.enc.length)) s'')
    : Wp p ab (dbReadidx db 0) Q l s := by
  simp only [dbReadidx, Prog.bind_eq, Prog.pure_eq, errDump_bind, if_true, and_true]
  refine wp_lseek_cur fun s₁ hr₁ hi₁ => ?_
  rw [if_neg (by omega)]
  have here : l.at .idx = l.idx := rfl
  refine wp_read_effect fun s₂ hr₂ hi₂ => ?_
  have hr := hr₁.trans hr₂
  rcases (at_.stable hr).cases with ⟨r, found⟩ | last
  · refine ⟨s₂.2.stat, fun _ _ => rfl, Effect.none p _ _, ?_⟩
    simp only [here, hi₂.pread_head found, r.head_length, ne_eq, not_true_eq_false, if_false,
      r.head_take, r.ptr.atol_enc, r.sizeT_head, if_neg r.length_ok]
    refine wp_readidx_body { db with idxoff := (l.idx : Int), ptrval := (r.ptr.val : Int) }
      (o := l.idx) rfl fun s₃ hr₃ hi₃ => ?_
    obtain ⟨r', found', shape⟩ := hr₃.grows found
    refine ⟨r', found', shape, fun s₄ hr₄ hi₄ => ?_⟩
    rw [Offsets.move_move]
    exact atRec s₃ r' (hr.trans hr₃) hi₃ found' r.ptr s₄ hr₄ hi₄
  · obtain ⟨stat', stats, effect, rest⟩ := atEnd s₂ hr hi₂
    refine ⟨stat', stats, effect _, ?_⟩
    have none_ : pread (s₂.1.file .idx).data l.idx (PTR_SZ + IDXLEN_SZ) = [] := by
      rw [show (s₂.1.file .idx).data = s₂.2.im.idx from hi₂.idx, last]
      exact pread_end (Nat.le_refl _)
    simp only [here, none_, List.length_nil]
    exact rest

-----------------------------------------------------------------------------------------
-- The scan
-----------------------------------------------------------------------------------------

/-- A process inside `db_nextrec`: it holds the read lock of the free list only. -/
structure Scanning (p : Pid) (s : State) : Prop where
  locks : s.1.locks p = relock noLocks .idx FREE_OFF 1 (some .rd)
  only : ∀ {o r}, s.2.im.recAt o = some r → s.2.own o ≠ .proc p
  orphan : s.2.orphan p = none

/-- A scan survives the steps of others. -/
theorem Scanning.stable (scan : Scanning p s) (hr : Rely p s t) : Scanning p t := by
  refine ⟨hr.locks.trans scan.locks, fun found own => ?_, hr.orphan.trans scan.orphan⟩
  obtain ⟨⟨r', found'⟩, own'⟩ := hr.mine found own
  exact scan.only found' own'

/-- The status of the processes does not matter to a scan. -/
theorem Scanning.setStat {stat' : Pid → Status} (scan : Scanning p s)
    : Scanning p (s.1, { s.2 with stat := stat' }) :=
  ⟨scan.locks, scan.only, scan.orphan⟩

/-- A scan holds the lock of the free list. -/
theorem Scanning.holds (scan : Scanning p s) : Holds s p FREE_OFF := by
  simp [Holds, scan.locks, relock, inRange_one]

/-- The record a scan stands at shows a current binding. Witness: nobody deletes while the
free list is locked, and a record that is being inserted shows its binding already.
-/
theorem Scanning.binding (scan : Scanning p s) (inv : Inv s) {o : Nat} {r : Rec}
    (found : s.2.im.recAt o = some r) (nonblank : ¬ Blank r.key)
    : s.2.map r.key = s.2.im.chunkAt r.datoff := by
  have ok := inv.recOk found
  simp only [RecOk] at ok
  cases owner : s.2.own o with
  | chain h =>
      rw [owner] at ok
      exact ok.2 nonblank
  | free =>
      rw [owner] at ok
      exact absurd ok nonblank
  | proc q =>
      rw [owner] at ok
      rcases (ok nonblank).2 with same | deleting
      · exact same
      · have apart : q ≠ p := fun eq => scan.only found (eq ▸ owner)
        exact absurd scan.holds (inv.apart (Ne.symm apart) deleting)

/-- What the loop of `db_nextrec` leaves: the end of the file, or a record whose key is not
blank.
-/
inductive Scanned (p : Pid) (l : Offsets) (s : State) : Option (List Byte) → DB → Prop
  | none {db : DB} (good : Good db) (done : s.2.stat p = .done .nextrec (.record none))
    : Scanned p l s none db
  | some {o : Nat} {r : Rec} {db : DB} (good : Good db) (todo : s.2.stat p = .todo .nextrec)
    (found : s.2.im.recAt o = some r) (nonblank : ¬ Blank r.key)
    (datoff : db.datoff = r.datoff) (datlen : db.datlen = r.datlen)
    : Scanned p l s (some r.key) db

/-- The test of `db_nextrec` for a blank key. -/
theorem all_blank {key : List Byte} : key.all (· = SPACE) = true ↔ Blank key := by
  simp [Blank, List.all_eq_true]

/-- The loop of `db_nextrec`. The variant is the space left in the index file. -/
theorem wp_scanLoop {Q : Option (List Byte) × DB → Offsets → State → Prop} (good : Good db)
    (scan : Scanning p s) (todo : s.2.stat p = .todo .nextrec) (at_ : Boundary s.2.im l.idx)
    (next : ∀ key db' l' t, Scanning p t → Inv t → Boundary t.2.im l'.idx
      → Scanned p l' t key db' → Q (key, db') l' t)
    : Wp p ab (scanLoop db) Q l s := by
  refine wp_loop
    (fun n x l t => Scanning p t ∧ t.2.stat p = .todo .nextrec ∧ Good x
      ∧ Boundary t.2.im l.idx ∧ n = OFF_MAX - l.idx)
    (fun t hrt _ => ⟨_, scan.stable hrt, hrt.stat.trans todo, good, at_.stable hrt, rfl⟩) ?_
  rintro n db l' t ⟨scan, todo, good, at_, rfl⟩ hit
  simp only [Prog.bind_eq, Prog.pure_eq]
  refine wp_bind hit (wp_readidx_next at_ (fun s₁ hr₁ hi₁ => ?_)
    fun s₁ r hr₁ hi₁ found ptr s₂ hr₂ hi₂ => ?_)
  · refine ⟨Function.update s₁.2.stat p (.done .nextrec (.record none)),
      fun q ne => Function.update_of_ne ne _ _, fun c => ?_, fun s₂ hr₂ hi₂ => ?_⟩
    · exact Or.inr ⟨.nextrec, .record none, hr₁.stat.trans todo,
        ⟨rfl, none, rfl, fun _ _ no => by cases no⟩, rfl, trivial⟩
    · dsimp only
      rw [if_pos (by decide)]
      refine fun u hru _ v hrv hiv => next none _ _ v ?_ hiv ?_ (.none ?_ ?_)
      · exact (((scan.stable hr₁).setStat.stable hr₂).stable hru).stable hrv
      · exact (at_.stable hr₁).grow ((hr₂.trans hru).trans hrv).grows
      · exact ⟨good.nhash, good.hashoff⟩
      · rw [((hr₂.trans hru).trans hrv).stat]
        simp
  · dsimp only
    rw [if_neg (by omega)]
    have bound : l'.idx + r.enc.length ≤ OFF_MAX :=
      Nat.le_trans (Image.recAt_range found).2 hi₁.idxMax
    by_cases blank : Blank r.key
    · rw [show (DB.load db l'.idx r).idxbuf.all (· = SPACE) = true from all_blank.mpr blank,
        if_pos rfl]
      intro u hru hiu
      have pos := r.enc_pos
      refine ⟨OFF_MAX - (l'.idx + r.enc.length), by omega, ?_, ?_, ?_, ?_, rfl⟩
      · exact ((scan.stable hr₁).stable hr₂).stable hru
      · exact (((hr₁.trans hr₂).trans hru).stat).trans todo
      · exact ⟨good.nhash, good.hashoff⟩
      · exact (Boundary.next found).stable (hr₂.trans hru)
    · rw [if_neg (show ¬ (DB.load db l'.idx r).idxbuf.all (· = SPACE) = true from
        fun all => blank (all_blank.mp all))]
      intro u hru hiu v hrv hiv
      have after := (hr₂.trans hru).trans hrv
      obtain ⟨r', found', shape⟩ := after.grows found
      obtain ⟨r'', found'', key⟩ := after.scanned (scan.stable hr₁).holds found blank
      obtain rfl : r' = r'' := Option.some.inj (found'.symm.trans found'')
      refine next (some r.key) _ _ v ?_ hiv ?_ ?_
      · exact (((scan.stable hr₁).stable hr₂).stable hru).stable hrv
      · exact (Boundary.next found).stable after
      · rw [← key]
        refine .some ⟨good.nhash, good.hashoff⟩ ?_ found' (by rw [key]; exact blank) ?_ ?_
        · exact ((hr₁.trans after).stat).trans todo
        · simp only [DB.load, shape.2.1]
        · simp only [DB.load, shape.2.2]

/-- `db_rewind`, which moves the offset and nothing else. -/
theorem wp_rewind {Q : DB → Offsets → State → Prop} (good : Good db)
    (next : ∀ db' t, Good db' → Rely p s t → Inv t → Q db' (l.move .idx RECS_OFF) t)
    : Wp p ab (dbRewind db) Q l s := by
  simp only [dbRewind, Prog.bind_eq, Prog.pure_eq, errDump_bind, good.nhash]
  refine wp_lseek_set (n := RECS_OFF) fun s₁ hr₁ hi₁ => ?_
  rw [if_neg (by decide)]
  exact fun s₂ hr₂ hi₂ => next _ s₂ ⟨rfl, good.hashoff⟩ (hr₁.trans hr₂) hi₂

/-- `db_nextrec`. -/
theorem wp_nextrec {Q : Option (List Byte × List Byte) × DB → Offsets → State → Prop}
    (good : Good db) (idle : Idle p s) (todo : s.2.stat p = .todo .nextrec)
    (at_ : Boundary s.2.im l.idx)
    (next : ∀ found db' l' t, Good db' → Idle p t → Inv t → Boundary t.2.im l'.idx
      → t.2.stat p = .done .nextrec (.record found) → Q (found, db') l' t)
    : Wp p ab (dbNextrec db) Q l s := by
  simp only [dbNextrec, Prog.bind_eq, Prog.pure_eq, errDump_bind]
  have fresh : ∀ b, inRange FREE_OFF 1 b → s.1.locks p .idx b = none := by
    intro b _
    rw [idle.locks]
    rfl
  refine wp_readwLock fresh fun s₁ hr₁ hi₁ granted => ?_
  refine ⟨s₁.2.stat, fun _ _ => rfl, Effect.none p _ _, ?_⟩
  rw [if_neg (by decide)]
  have idle₁ := idle.stable hr₁
  have hi₂ : Inv (s₁.1.setLocks p .idx FREE_OFF 1 (some .rd), s₁.2) :=
    inv_acquire s₁.2.stat hi₁ granted fun b inside => by
      rw [hr₁.locks]
      exact fresh b inside
  have scan : Scanning p (s₁.1.setLocks p .idx FREE_OFF 1 (some .rd), s₁.2) := by
    refine ⟨?_, idle₁.only, idle₁.orphan⟩
    rw [setLocks_self, idle₁.locks]
  -- The lock is given up last, whatever was found.
  have unlock : ∀ found db₂ l₂ t, Scanning p t → Inv t → Boundary t.2.im l₂.idx → Good db₂
      → t.2.stat p = .done .nextrec (.record found)
      → Wp p ab
          ((unLock .idx FREE_OFF 1).bind fun rc =>
            if rc < 0 then errDump "db_nextrec: un_lock error" else .ret (found, db₂)) Q l₂ t := by
    intro found db₂ l₂ t scanT hit atT goodT stat
    refine wp_unlock fun u hru hiu => ?_
    have scanU := scanT.stable hru
    have hi₃ : Inv (u.1.setLocks p .idx FREE_OFF 1 none, u.2) := by
      refine inv_release u.2.stat hiu ?_ ?_ ?_
      · intro h _ _ _ range
        exact absurd (inRange_one.mp range) (chainSlot_ne_free h)
      · intro heldW
        simp [HoldsW, scanU.locks, relock, inRange_one] at heldW
      · exact fun o r at_ own => absurd own (scanU.only at_)
    refine ⟨hi₃, ?_⟩
    rw [if_neg (by decide)]
    have idleU : Idle p (u.1.setLocks p .idx FREE_OFF 1 none, u.2) := by
      refine ⟨?_, scanU.only, scanU.orphan⟩
      simp only [setLocks_self, scanU.locks]
      exact relock_undo fun _ _ => rfl
    have atU : Boundary u.2.im l₂.idx := atT.stable hru
    intro v hrv hiv
    refine next found db₂ l₂ v goodT (idleU.stable hrv) hiv (atU.grow hrv.grows) ?_
    exact (hrv.stat.trans hru.stat).trans stat
  have stat₂ : s₁.2.stat p = .todo .nextrec := hr₁.stat.trans todo
  have at₂ : Boundary s₁.2.im l.idx := at_.stable hr₁
  refine wp_bind hi₂ (wp_scanLoop good scan stat₂ at₂ fun key db' l' t scanT hit atT found => ?_)
  cases found with
  | none goodT done => exact unlock none _ _ t scanT hit atT goodT done
  | @some o r _ goodT todoT found nonblank datoff datlen =>
      refine wp_bind hit (wp_readdat datoff fun u hru hiu => ?_)
      obtain ⟨r', found', key⟩ := hru.scanned scanT.holds found nonblank
      obtain ⟨r'', found'', shape⟩ := hru.grows found
      obtain rfl : r' = r'' := Option.some.inj (found'.symm.trans found'')
      obtain ⟨d, chunk, size⟩ := hiu.regions.exists_ found'
      have bound : u.2.map r.key = some d := by
        rw [← key, (scanT.stable hru).binding hiu found' (by rw [key]; exact nonblank), chunk]
      refine ⟨d, Function.update u.2.stat p (.done .nextrec (.record (some (r.key, d.bytes)))),
        by rw [← shape.2.1]; exact chunk, by rw [datlen, size, shape.2.2],
        fun q ne => Function.update_of_ne ne _ _, ?_, fun v hrv hiv => ?_⟩
      · refine Or.inr ⟨.nextrec, .record (some (r.key, d.bytes)), hru.stat.trans todoT,
          ⟨rfl, _, rfl, fun k e eq => ?_⟩, rfl, trivial⟩
        obtain ⟨rfl, rfl⟩ := Prod.mk.inj (Option.some.inj eq)
        simp [bound]
      · refine unlock (some (r.key, d.bytes)) _ _ v ((scanT.stable hru).setStat.stable hrv) hiv
          ?_ ⟨goodT.nhash, goodT.hashoff⟩ ?_
        · exact (atT.stable hru).grow hrv.grows
        · rw [hrv.stat]
          simp

end Minions.Db
