import Minions.Db.Search

/-! `_db_findfree`: taking a record of the right sizes from the free list.
The record passes to the process under the lock of the free list; afterwards only the process
itself refers to it.
-/

namespace Minions.Db

open Minions.Data Minions.Logic

variable {p : Pid} {ab : Prop} {l : Offsets} {s : State} {db : DB}

/-- The handle after `_db_findfree` has taken the record `r` at `o`. -/
structure AtFree (db : DB) (chainoff : Int) (o : Nat) (r : Rec) : Prop where
  good : Good db
  chainoff : db.chainoff = chainoff
  idxoff : db.idxoff = o
  ptrval : db.ptrval = r.ptr.val
  datoff : db.datoff = r.datoff
  datlen : db.datlen = r.datlen

/-- What the walk along the free list found: the offset it stopped at, the cell that led
there and the handle.
-/
inductive FreeFound (keylen datlen : Nat) (chainoff : Int) (g : Ghost) : Int → Int → DB → Prop
  | none {save : Int} {db : DB} (good : Good db) (same : db.chainoff = chainoff)
    : FreeFound keylen datlen chainoff g 0 save db
  | some {l₁ l₂ : List Nat} {o : Nat} {r : Rec} {db : DB} (split : g.free = l₁ ++ o :: l₂)
    (found : g.im.recAt o = some r) (nonzero : (o : Int) ≠ 0)
    (fits : r.key.length = keylen ∧ r.datlen = datlen) (at_ : AtFree db chainoff o r)
    : FreeFound keylen datlen chainoff g o (lastCell FREE_OFF l₁) db

/-- The walk of `_db_findfree`. `s₁` is the state in which the free list was locked. -/
theorem wp_freeLoop (s₁ : State) {keylen datlen : Nat}
    {Q : Int × Int × DB → Offsets → State → Prop} (good : Good db) (inv : Inv s₁)
    (held : Holds s₁ p FREE_OFF) (linked : Linked s₁.2.im.next FREE_OFF s₁.2.free)
    (hr : Rely p s₁ s)
    (h : ∀ offset save db' l' t, Rely p s₁ t → Inv t
      → FreeFound keylen datlen db.chainoff s₁.2 offset save db'
      → Q (offset, save, db') l' t)
    : Wp p ab (freeLoop keylen datlen ((s₁.2.free.headD 0 : Nat), (FREE_OFF : Int), db)) Q l s := by
  have alive : ∀ o ∈ s₁.2.free, ∃ r, s₁.2.im.recAt o = some r :=
    fun o member => (inv.members.free.mp member).1
  refine wp_loop
    (fun n x _ t => Rely p s₁ t ∧ Good x.2.2 ∧ x.2.2.chainoff = db.chainoff
      ∧ Walk s₁.2.im FREE_OFF s₁.2.free (fun _ => True) x.2.1 x.1 n)
    (fun t hrt _ => ⟨_, hr.trans hrt, good, rfl, .start _ _ _ _⟩) ?_
  rintro n ⟨offset, save, db'⟩ l' t ⟨hrt, good, chainoff, walk⟩ hit
  simp only [Prog.bind_eq, Prog.pure_eq]
  by_cases zero : offset = 0
  · subst zero
    rw [if_pos rfl]
    exact fun t' hrt' _ u hru hiu =>
      h 0 save db' l' u ((hrt.trans hrt').trans hru) hiu (.none good chainoff)
  · rw [if_neg zero]
    obtain ⟨l₁, o, l₂, r, split, prev, rfl, found, onward⟩ := walk.record linked alive zero
    have seen : Sees s₁ p o := inv.sees_free held (by simp [split])
    refine wp_bind hit (wp_readidx (r := r) (fun t' hrt' _ => ?_) hit fun t' hrt' hit' => ?_)
    · exact (hrt.trans hrt').recAt seen found
    · show Wp p ab (if r.key.length = keylen ∧ r.datlen = datlen then _ else _) _ _ t'
      by_cases fits : r.key.length = keylen ∧ r.datlen = datlen
      · rw [if_pos fits]
        refine fun u hru _ v hrv hiv =>
          h o save (db'.load o r) _ v (((hrt.trans hrt').trans hru).trans hrv) hiv ?_
        simp only at prev
        subst prev
        exact .some split found zero fits ⟨good.load o r, chainoff, rfl, rfl, rfl, rfl⟩
      · rw [if_neg fits]
        intro u hru _
        obtain ⟨m, less, walk'⟩ := onward trivial
        exact ⟨m, less, (hrt.trans hrt').trans hru, good.load o r, chainoff, walk'⟩

section FindFree

variable {h : Nat} {list : List Nat} {shown bound : Bindings} {stat : Status}

/-- Taking the record at `o` out of the free list: what `p` knows when the pointer has been
written.
-/
theorem take_free {T : Locks} {l₁ l₂ : List Nat} {o : Nat} {r : Rec} {v old : Ptr}
    (k : Knows p T h list shown bound [] none stat s) (inv : Inv s)
    (held : HoldsW s p FREE_OFF) (split : s.2.free = l₁ ++ o :: l₂)
    (linked : Linked s.2.im.next FREE_OFF s.2.free) (found : s.2.im.recAt o = some r)
    (value : v.val = r.ptr.val) (cell : s.2.im.cell (lastCell FREE_OFF l₁) = some old)
    : Blank r.key ∧ ∃ g d, g.im = s.2.im.setCell (lastCell FREE_OFF l₁) v
        ∧ g.map = s.2.map ∧ g.stat = s.2.stat ∧ Allowed p s g
        ∧ Linked g.im.next FREE_OFF g.free
        ∧ Keeps h s.2 g
        ∧ Knows p T h list shown bound [o] none stat (s.1.put g.im, g)
        ∧ Mine p o r d (s.1.put g.im, g) := by
  have member : o ∈ s.2.free := by simp [split]
  have own : s.2.own o = .free := (inv.members.free.mp member).2
  have nodup := linked.nodup
  rw [split] at nodup
  have once : o ∉ l₁ ∧ o ∉ l₂ ∧ FREE_OFF ∉ l₁ ++ o :: l₂ := by
    simp only [List.nodup_cons, List.nodup_append, List.mem_cons] at nodup
    refine ⟨fun early => ?_, nodup.2.2.1.1, nodup.1⟩
    exact nodup.2.2.2 o early o (Or.inl rfl) rfl
  have freeCell := inv.freeCell held l₁ (fun x early => by simp [split, early])
  have apart : o ≠ lastCell FREE_OFF l₁ := by
    rcases lastCell_mem FREE_OFF l₁ with same | early
    · rw [same]
      exact fun eq => once.2.2 (by simp [← eq])
    · exact fun eq => once.1 (eq ▸ early)
  have blank : Blank r.key := by
    have ok := inv.recOk found
    simpa only [RecOk, own, OwnerOk] using ok
  have outside : ∀ c, o ∉ s.2.chain c := fun c => inv.members.off_chain (by simp [own])
  have allowed := allowed_setCell (p := p) (v := v) (.proc p) s.2.chain (l₁ ++ l₂) inv cell found
    freeCell.owns (by simp only [Owns, own]; exact held)
    (fun c lt => Or.inr ⟨rfl, freeCell.apart c lt⟩) (Or.inl held)
    (fun q eq => (Owner.proc.inj eq).symm)
    (fun c x => mem_iff_ite (outside c) (by simp))
    (fun x => by
      by_cases same : x = o
      · subst same
        simp [once.1, once.2.1]
      · simp [split, same])
    (fun nonblank => absurd blank nonblank)
  have keeps : Keeps h s.2
      { s.2 with
        im := s.2.im.setCell (lastCell FREE_OFF l₁) v
        own := Function.update s.2.own o (.proc p)
        chain := s.2.chain
        free := l₁ ++ l₂ } :=
    .setCell cell rfl rfl (freeCell.apart h k.lt) (freeCell.outside h)
  obtain ⟨d, chunk, -⟩ := inv.regions.exists_ found
  refine ⟨blank, { s.2 with
      im := s.2.im.setCell (lastCell FREE_OFF l₁) v
      own := Function.update s.2.own o (.proc p)
      chain := s.2.chain
      free := l₁ ++ l₂ }, d, rfl, rfl, rfl, allowed, ?_, keeps, ?_, ?_, ?_, ?_⟩
  · rw [split] at linked
    have full : Linked (Function.update s.2.im.next o (some r.ptr.val)) FREE_OFF
        (l₁ ++ o :: l₂) := by
      rw [← Image.next_rec found, Function.update_eq_self]
      exact linked
    refine full.unlink ?_ fun b _ differs => ?_
    · rw [Image.next_setCell cell, if_pos rfl, value]
    · rw [Image.next_setCell cell, if_neg differs]
  · refine k.step inv keeps k.locks k.held k.map ?_ k.orphan_ k.stat_
    intro x y at_ mine
    by_cases same : x = o
    · simp [same]
    · simp only [Function.update_of_ne same] at mine
      obtain ⟨y', before⟩ := (Image.alive_setCell cell v x).mp ⟨y, at_⟩
      exact absurd (k.only before mine) List.not_mem_nil
  · simp only [Image.recAt_setCell cell, if_neg apart, found]
  · simp
  · simp only [Image.chunkAt_setCell, chunk]

/-- Locking and unlocking the free list leaves the lock of the chain. -/
theorem relock_free_undo
    : relock (relock (chainLock h .wr) .idx FREE_OFF 1 (some .wr)) .idx FREE_OFF 1 none
      = chainLock h .wr := by
  refine relock_undo fun b inside => ?_
  rw [inRange_one.mp inside]
  simp

/-- The end of `_db_findfree`: unlock the free list and return, with the chain still locked. -/
theorem wp_unlock_free {α : Type} {x : α} {message : String} {owned : List Nat}
    {Q : α → Offsets → State → Prop}
    (k : Knows p (relock (chainLock h .wr) .idx FREE_OFF 1 (some .wr)) h list shown bound owned
      none stat s)
    (inv : Inv s) (held : HoldsW s p FREE_OFF) (free : Linked s.2.im.next FREE_OFF s.2.free)
    (linked : Linked s.2.im.next (chainSlot h) list)
    (blank : ∀ t, Rely p s t → ∀ {o : Nat} {r : Rec}, t.2.im.recAt o = some r
      → t.2.own o = .proc p → Blank r.key)
    (next : ∀ l' t u, Rely p s t → Rely p (t.1.setLocks p .idx FREE_OFF 1 none, t.2) u
      → Knows p (chainLock h .wr) h list shown bound owned none stat u → Inv u
      → Linked u.2.im.next (chainSlot h) list → Q x l' u)
    : Wp p ab
        ((unLock .idx FREE_OFF 1).bind fun rc => if rc < 0 then errDump message else .ret x)
        Q l s := by
  refine wp_unlock fun t hrt hit => ?_
  have kT := k.stable inv hrt
  have linkT := k.linked_stable inv hrt linked
  obtain ⟨-, freeT⟩ := hrt.linked_free inv held free
  have hi := hit.release_free freeT (blank t hrt)
  refine ⟨hi, ?_⟩
  rw [if_neg (by decide)]
  have kFree := kT.relock .idx FREE_OFF 1 none (by rw [relock_free_slot, relock_free_slot]; simp)
  rw [relock_free_undo] at kFree
  intro u hru hiu
  exact next _ t u hrt hru (kFree.stable hi hru) hiu (kFree.linked_stable hi hru linkT)

/-- `_db_findfree`. -/
theorem wp_findfree {keylen datlen : Int} {Q : Int × DB → Offsets → State → Prop}
    (good : Good db) (k : Knows p (chainLock h .wr) h list shown bound [] none stat s)
    (inv : Inv s) (linked : Linked s.2.im.next (chainSlot h) list)
    (nothing : ∀ db' l' t, Knows p (chainLock h .wr) h list shown bound [] none stat t
      → Inv t → Linked t.2.im.next (chainSlot h) list → Good db'
      → db'.chainoff = db.chainoff → Q (-1, db') l' t)
    (taken : ∀ o r d db' l' t, Knows p (chainLock h .wr) h list shown bound [o] none stat t
      → Inv t → Linked t.2.im.next (chainSlot h) list → Mine p o r d t → Blank r.key
      → r.key.length = sizeT keylen → r.datlen = sizeT datlen → AtFree db' db.chainoff o r
      → Q (0, db') l' t)
    : Wp p True (dbFindfree db keylen datlen) Q l s := by
  simp only [dbFindfree, Prog.bind_eq, Prog.pure_eq, errDump_bind]
  have fresh : ∀ {t : State}, t.1.locks p = chainLock h .wr
      → ∀ b, inRange FREE_OFF 1 b → t.1.locks p .idx b = none := by
    intro t locks b inside
    rw [locks, inRange_one.mp inside]
    simp
  refine wp_writewLock (fresh k.locks) fun s₁ hr₁ hi₁ granted => ?_
  refine ⟨s₁.2.stat, fun _ _ => rfl, Effect.none p _ _, ?_⟩
  rw [if_neg (by decide)]
  have k₁ := k.stable inv hr₁
  have free₁ : Linked s₁.2.im.next FREE_OFF s₁.2.free :=
    hi₁.granted_free (fresh k₁.locks _ (inRange_one.mpr rfl)) granted
  have hi₂ := inv_acquire s₁.2.stat hi₁ granted (fresh k₁.locks)
  have link₁ := k.linked_stable inv hr₁ linked
  have k₂ := k₁.relock .idx FREE_OFF 1 (some .wr) (by rw [relock_free_slot]; simp)
  have held₂ : HoldsW (s₁.1.setLocks p .idx FREE_OFF 1 (some .wr), s₁.2) p FREE_OFF := by
    simp [HoldsW, Disk.setLocks, inRange_one]
  refine wp_bind hi₂ (wp_readptr
    (fun t hrt _ => ((hrt.free held₂.holds).2).trans free₁.next_entry) fun t hrt hit => ?_)
  refine wp_bind hit (wp_freeLoop (s₁.1.setLocks p .idx FREE_OFF 1 (some .wr), s₁.2) good hi₂
    held₂.holds free₁ hrt ?_)
  intro offset save db' l' t' hrt' hit' foundFree
  cases foundFree with
  | none goodDb same =>
      simp only [ne_eq, not_true_eq_false, if_false, if_true]
      have k₃ := k₂.stable hi₂ hrt'
      exact wp_unlock_free k₃ hit' (hrt'.holdsW.mpr held₂) (hrt'.linked_free hi₂ held₂ free₁).2
        (k₂.linked_stable hi₂ hrt' link₁)
        (fun t₁ hr₃ _ _ found own =>
          absurd ((k₃.stable hit' hr₃).only found own) List.not_mem_nil)
        (fun l'' _ u _ _ kU hiu linkU => nothing db' l'' u kU hiu linkU goodDb same)
  | @some l₁ l₂ o r _ split found nonzero fits at_ =>
      simp only [ne_eq, nonzero, not_false_eq_true, if_true, if_false]
      have seen : ∀ x ∈ s₁.2.free, Sees (s₁.1.setLocks p .idx FREE_OFF 1 (some .wr), s₁.2) p x :=
        fun x member => hi₂.sees_free held₂.holds member
      refine wp_bind hit' (wp_writeptr (fun u hru hiu => ?_) fun u hru hiu v value => ?_)
      · have all := hrt'.trans hru
        refine (hiu.freeCell (all.holdsW.mpr held₂) l₁ fun x early => ?_).may
        rw [(all.linked_free hi₂ held₂ free₁).1.trans split]
        simp [early]
      · have all := hrt'.trans hru
        obtain ⟨same, link'⟩ := all.linked_free hi₂ held₂ free₁
        have free' : u.2.free = l₁ ++ o :: l₂ := same.trans split
        have cellSome := link'.isSome (b := lastCell FREE_OFF l₁) (by
          rw [free']
          rcases lastCell_mem FREE_OFF l₁ with same | early
          · simp [same]
          · simp [early])
        obtain ⟨w, hw⟩ := Option.isSome_iff_exists.mp cellSome
        obtain ⟨old, cell, -⟩ := Image.cell_of_next hw
        have value' : v.val = r.ptr.val := by
          rw [at_.ptrval] at value
          omega
        have k₃ := k₂.stable hi₂ all
        have member : o ∈ s₁.2.free := by
          rw [show s₁.2.free = l₁ ++ o :: l₂ from split]
          simp
        obtain ⟨blank, g, d, im, map, stat', allowed, freeLink, keeps, k₄, mine⟩ :=
          take_free k₃ hiu (all.holdsW.mpr held₂) free' link' (all.recAt (seen o member) found)
            value' cell
        refine ⟨g, old, cell, im, allowed, map, stat', fun w hrw hiw => ?_⟩
        have heldFree : HoldsW (u.1.put g.im, g) p FREE_OFF := all.holdsW.mpr held₂
        have chainLink := k₃.linked_keeps hiu keeps (k₂.linked_stable hi₂ all link₁)
        have k₅ := k₄.stable allowed.1 hrw
        have mine₅ := mine.stable hrw
        refine wp_unlock_free k₅ hiw (hrw.holdsW.mpr heldFree)
          (hrw.linked_free allowed.1 heldFree freeLink).2
          (k₄.linked_stable allowed.1 hrw chainLink) (fun w₁ hrw₁ x y at_x own => ?_)
          (fun l'' w₁ x hrw₁ hrx kX hix linkX => ?_)
        · have same : x = o := List.mem_singleton.mp ((k₅.stable hiw hrw₁).only at_x own)
          rw [same, (mine₅.stable hrw₁).found, Option.some.injEq] at at_x
          exact at_x ▸ blank
        · have mine₆ := mine₅.stable hrw₁
          have mine₇ : Mine p o r d (w₁.1.setLocks p .idx FREE_OFF 1 none, w₁.2) :=
            ⟨mine₆.found, mine₆.own, mine₆.chunk⟩
          exact taken o r d db' l'' x kX hix linkX (mine₇.stable hrx) blank fits.1 fits.2 at_

end FindFree

end Minions.Db
