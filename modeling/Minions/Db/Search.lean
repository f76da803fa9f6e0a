import Minions.Db.Knowledge

/-! The searches of `db.c`: `_db_find_and_lock` along a hash chain and `_db_findfree` along
the free list. Both walk a list whose lock the process holds, so the list and its records
are those of the moment the lock was taken.
-/

namespace Minions.Db

open Minions.Data Minions.Logic

variable {p : Pid} {ab : Prop} {l : Offsets} {s : State} {db : DB}

/-- A handle as `db_open` makes it. -/
structure Good (db : DB) : Prop where
  nhash : db.nhash = NHASH_DEF
  hashoff : db.hashoff = HASH_OFF

/-- A record that has been read leaves the handle good. -/
theorem Good.load (good : Good db) (o : Nat) (r : Rec) : Good (db.load o r) :=
  ⟨good.nhash, good.hashoff⟩

/-- A walk from the cell `a` along `list` stands at `offset`, with `n` records to go. `prev` is
the cell that led there, and the records passed so far satisfy `skip`.
-/
structure Walk (im : Image) (a : Nat) (list : List Nat) (skip : Rec → Prop)
    (prev offset : Int) (n : Nat)
    : Prop where
  at_ : ∃ l₁ l₂, list = l₁ ++ l₂ ∧ l₂.length = n ∧ prev = lastCell a l₁
    ∧ offset = (l₂.headD 0 : Nat)
    ∧ ∀ o r, o ∈ l₁ → im.recAt o = some r → skip r

section Walk

variable {im : Image} {a n : Nat} {list : List Nat} {skip : Rec → Prop} {prev offset : Int}

/-- A walk starts at the first record of its list. -/
theorem Walk.start (im : Image) (a : Nat) (list : List Nat) (skip : Rec → Prop)
    : Walk im a list skip a (list.headD 0 : Nat) list.length :=
  ⟨⟨[], list, rfl, rfl, rfl, rfl, fun _ _ member => absurd member List.not_mem_nil⟩⟩

/-- A walk that has reached 0 has passed every record. -/
theorem Walk.passed (w : Walk im a list skip prev 0 n) (linked : Linked im.next a list)
    {o : Nat} {r : Rec} (member : o ∈ list) (found : im.recAt o = some r)
    : skip r := by
  obtain ⟨l₁, l₂, rfl, -, -, at_, passed⟩ := w.at_
  cases l₂ with
  | nil => exact passed o r (by simpa using member) found
  | cons x rest =>
      have nonzero := linked.ne_zero (o := x) (by simp)
      simp only [List.headD_cons] at at_
      omega

/-- A walk that has not reached 0 stands at a record, and may go on to the next. -/
theorem Walk.record (w : Walk im a list skip prev offset n) (linked : Linked im.next a list)
    (alive : ∀ o ∈ list, ∃ r, im.recAt o = some r) (nonzero : offset ≠ 0)
    : ∃ l₁ o l₂ r, list = l₁ ++ o :: l₂ ∧ prev = lastCell a l₁ ∧ offset = (o : Nat)
        ∧ im.recAt o = some r
        ∧ (skip r → ∃ m < n, Walk im a list skip o r.ptr.val m) := by
  obtain ⟨l₁, l₂, rfl, length, before, at_, passed⟩ := w.at_
  cases l₂ with
  | nil => exact absurd (by simpa using at_) nonzero
  | cons o rest =>
      obtain ⟨r, found⟩ := alive o (by simp)
      refine ⟨l₁, o, rest, r, rfl, before, at_, found, fun skipped => ?_⟩
      refine ⟨rest.length, by simp at length; omega, l₁ ++ [o], rest, by simp, rfl, ?_, ?_, ?_⟩
      · simp [lastCell_append, lastCell]
      · have tail : Linked im.next o rest := linked.drop.2.2
        have entry := tail.next_entry
        rw [Image.next_rec found] at entry
        rw [Option.some.inj entry]
      · intro x y member at_x
        rcases List.mem_append.mp member with early | last
        · exact passed x y early at_x
        · obtain rfl : x = o := by simpa using last
          obtain rfl : r = y := Option.some.inj (found.symm.trans at_x)
          exact skipped

end Walk

-----------------------------------------------------------------------------------------
-- Hash chains
-----------------------------------------------------------------------------------------

/-- The handle after `_db_find_and_lock` has found the record `r` at `o`, to which the cell
`prev` of chain `h` points.
-/
structure AtRecord (db : DB) (h prev o : Nat) (r : Rec) : Prop where
  good : Good db
  chainoff : db.chainoff = chainSlot h
  ptroff : db.ptroff = prev
  idxoff : db.idxoff = o
  ptrval : db.ptrval = r.ptr.val
  datoff : db.datoff = r.datoff
  datlen : db.datlen = r.datlen

/-- What `_db_find_and_lock` reports about `key`, and the handle it leaves. -/
inductive Found (key : List Byte) (g : Ghost) : Int → DB → Prop
  | absent {db : DB} (good : Good db) (chainoff : db.chainoff = chainSlot (hash key))
    (other : ∀ {o r}, o ∈ g.chain (hash key) → g.im.recAt o = some r → r.key ≠ key)
    : Found key g (-1) db
  | present {l₁ l₂ : List Nat} {o : Nat} {r : Rec} {db : DB}
    (split : g.chain (hash key) = l₁ ++ o :: l₂) (found : g.im.recAt o = some r)
    (same : r.key = key)
    (at_ : AtRecord db (hash key) (lastCell (chainSlot (hash key)) l₁) o r)
    (buffer : db.idxbuf = key)
    : Found key g 0 db

/-- The status of the processes does not matter to what was found. -/
theorem Found.setStat {key : List Byte} {g : Ghost} {stat' : Pid → Status} {rc : Int}
    (found : Found key { g with stat := stat' } rc db)
    : Found key g rc db := by
  cases found with
  | absent good chainoff other => exact .absent good chainoff other
  | present split found same at_ buffer => exact .present split found same at_ buffer

/-- The walk of `_db_find_and_lock`. `s₁` is the state in which the chain was locked. -/
theorem wp_findLoop (s₁ : State) {key : List Byte} {Q : Int × DB → Offsets → State → Prop}
    (good : Good db) (chainoff : db.chainoff = chainSlot (hash key))
    (ptroff : db.ptroff = chainSlot (hash key))
    (inv : Inv s₁) (held : Holds s₁ p (chainSlot (hash key)))
    (ok : ChainOk s₁.2 (hash key)) (hr : Rely p s₁ s)
    (h : ∀ offset db' l' t, Rely p s₁ t → Inv t
      → Found key s₁.2 (if offset = 0 then -1 else 0) db'
      → Q (offset, db') l' t)
    : Wp p ab (findLoop key (((s₁.2.chain (hash key)).headD 0 : Nat), db)) Q l s := by
  have alive : ∀ o ∈ s₁.2.chain (hash key), ∃ r, s₁.2.im.recAt o = some r :=
    fun o member => (inv.members.chain.mp member).1
  refine wp_loop
    (fun n x _ t => Rely p s₁ t ∧ Good x.2 ∧ x.2.chainoff = chainSlot (hash key)
      ∧ Walk s₁.2.im (chainSlot (hash key)) (s₁.2.chain (hash key)) (·.key ≠ key)
          x.2.ptroff x.1 n)
    (fun t hrt _ => ⟨_, hr.trans hrt, good, chainoff, by rw [ptroff]; exact .start _ _ _ _⟩) ?_
  rintro n ⟨offset, db⟩ l' t ⟨hrt, good, chainoff, walk⟩ hit
  simp only [Prog.bind_eq, Prog.pure_eq]
  by_cases zero : offset = 0
  · subst zero
    rw [if_pos rfl]
    refine fun t' hrt' _ u hru hiu => h 0 db l' u ((hrt.trans hrt').trans hru) hiu ?_
    exact .absent good chainoff fun member found => walk.passed ok.linked member found
  · rw [if_neg zero]
    obtain ⟨l₁, o, l₂, r, split, prev, rfl, found, onward⟩ :=
      walk.record ok.linked alive zero
    have seen : Sees s₁ p o := inv.sees_chain held (by simp [split])
    refine wp_bind hit (wp_readidx (r := r) (fun t' hrt' _ => ?_) hit fun t' hrt' hit' => ?_)
    · exact (hrt.trans hrt').recAt seen found
    · show Wp p ab (if r.key = key then _ else _) _ _ t'
      by_cases same : r.key = key
      · rw [if_pos same]
        refine fun u hru _ v hrv hiv => h o (db.load o r) _ v
          (((hrt.trans hrt').trans hru).trans hrv) hiv ?_
        rw [if_neg zero]
        exact .present split found same
          ⟨good.load o r, chainoff, prev, rfl, rfl, rfl, rfl⟩ same
      · rw [if_neg same]
        intro u hru _
        obtain ⟨m, less, walk'⟩ := onward same
        exact ⟨m, less, (hrt.trans hrt').trans hru, ⟨good.nhash, good.hashoff⟩, chainoff, walk'⟩

/-- The lock that `_db_find_and_lock` takes. -/
def findKind (writelock : Bool) : LockKind := if writelock then .wr else .rd

/-- The state after `p` has locked chain `h`, with the progress `stat'`. -/
def lockChain (p : Pid) (h : Nat) (kind : LockKind) (stat' : Pid → Status) (s : State)
    : State :=
  (s.1.setLocks p .idx (chainSlot h) 1 (some kind), { s.2 with stat := stat' })

/-- `_db_find_and_lock`, at whose lock request the operation of `p` may take effect. -/
theorem wp_findAndLock {key : List Byte} {writelock : Bool}
    {Q : Int × DB → Offsets → State → Prop} (good : Good db) (none_ : s.1.locks p = noLocks)
    (h : ∀ s', Rely p s s' → Inv s' → ChainOk s'.2 (hash key)
      → ∃ stat', (∀ q, q ≠ p → stat' q = s'.2.stat q)
        ∧ (∀ c, Effect p c s'.2 { s'.2 with stat := stat' })
        ∧ (Inv (lockChain p (hash key) (findKind writelock) stat' s')
          → ∀ rc db' l' t,
            Rely p (lockChain p (hash key) (findKind writelock) stat' s') t
            → Inv t → Found key s'.2 rc db' → Q (rc, db') l' t))
    : Wp p ab (dbFindAndLock db key writelock) Q l s := by
  have slot : dbHash db.nhash key * PTR_SZ + db.hashoff = chainSlot (hash key) := by
    rw [good.nhash, good.hashoff]
    rfl
  have fresh : ∀ b, inRange (chainSlot (hash key)) 1 b → s.1.locks p .idx b = none := by
    intro b _
    rw [none_]
    rfl
  simp only [dbFindAndLock, Prog.bind_eq, Prog.pure_eq, errDump_bind, slot]
  -- Both kinds of lock lead to the same search.
  have search : ∀ s₁, Rely p s s₁ → Inv s₁
      → s₁.1.grants p .idx (findKind writelock) (chainSlot (hash key)) 1
      → ∃ stat', (∀ q, q ≠ p → stat' q = s₁.2.stat q)
        ∧ Effect p (.lock .idx (findKind writelock) (chainSlot (hash key)) 1) s₁.2
            { s₁.2 with stat := stat' }
        ∧ Wp p ab
            ((dbReadptr (chainSlot (hash key))).bind fun offset =>
              (findLoop key
                (offset,
                  { db with
                    chainoff := (chainSlot (hash key) : Int)
                    ptroff := (chainSlot (hash key) : Int) })).bind fun x =>
                .ret (if x.1 = 0 then -1 else 0, x.2)) Q l
            (lockChain p (hash key) (findKind writelock) stat' s₁) := by
    intro s₁ hr₁ hi₁ granted
    have ok : ChainOk s₁.2 (hash key) := by
      refine hi₁.chainOk (hash_lt key) fun q heldq => ?_
      by_cases same : q = p
      · subst same
        have free := fresh (chainSlot (hash key)) (inRange_one.mpr rfl)
        rw [← hr₁.locks] at free
        simp [HoldsW, free] at heldq
      · exact (granted q _ same (inRange_one.mpr rfl)).1 heldq
    obtain ⟨stat', stats, effect, rest⟩ := h s₁ hr₁ hi₁ ok
    refine ⟨stat', stats, effect _, ?_⟩
    have fresh₁ : ∀ b, inRange (chainSlot (hash key)) 1 b → s₁.1.locks p .idx b = none := by
      intro b inside
      rw [hr₁.locks]
      exact fresh b inside
    have hi : Inv (lockChain p (hash key) (findKind writelock) stat' s₁) :=
      inv_acquire stat' hi₁ granted fresh₁
    have held : Holds (lockChain p (hash key) (findKind writelock) stat' s₁) p
        (chainSlot (hash key)) := by
      simp [lockChain, Holds, Disk.setLocks, inRange_one]
    have entry : ∀ t, Rely p (lockChain p (hash key) (findKind writelock) stat' s₁) t
        → t.2.im.next (chainSlot (hash key)) = some ((s₁.2.chain (hash key)).headD 0) := by
      intro t hrt
      exact (hrt.chain (hash_lt key) held).2.1.trans ok.linked.next_entry
    refine wp_bind hi (wp_readptr (fun t hrt _ => entry t hrt) fun t hrt hit => ?_)
    refine wp_bind hit (wp_findLoop (lockChain p (hash key) (findKind writelock) stat' s₁)
      ⟨good.nhash, good.hashoff⟩ rfl rfl hi held (ok.setStat stat') hrt ?_)
    intro offset db' l' u hru hiu found v hrv hiv
    exact rest hi _ db' l' v (hru.trans hrv) hiv found.setStat
  cases writelock with
  | true =>
      simp only [if_true]
      exact wp_writewLock fresh search
  | false =>
      simp only [Bool.false_eq_true, if_false]
      exact wp_readwLock fresh search

end Minions.Db
