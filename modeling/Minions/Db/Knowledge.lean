import Minions.Db.Appends

/-! What a process knows while it holds the lock of a hash chain.
`Knows` collects the facts that survive whatever the other processes do, and `Keeps` says
that a step of the process itself leaves its chain alone.
-/

namespace Minions.Db

open Minions.Data Minions.Logic

variable {p : Pid} {s t : State}

/-- The locks of one process. -/
abbrev Locks := Fd → Nat → Option LockKind

def noLocks : Locks := fun _ _ => none

/-- The locks of a process that holds the lock of chain `h` and no other. -/
def chainLock (h : Nat) (kind : LockKind) : Locks :=
  relock noLocks .idx (chainSlot h) 1 (some kind)

/-- The locks of a process that deletes a record of chain `h`. -/
def deleteLocks (h : Nat) : Locks := relock (chainLock h .wr) .idx FREE_OFF 1 (some .wr)

/-- A range of one byte. -/
theorem inRange_one {a b : Nat} : inRange a 1 b ↔ b = a := by
  simp only [inRange]
  omega

@[simp] theorem chainLock_self (h : Nat) (kind : LockKind)
    : chainLock h kind .idx (chainSlot h) = some kind := by
  simp [chainLock, relock, inRange_one]

@[simp] theorem chainLock_free (h : Nat) (kind : LockKind)
    : chainLock h kind .idx FREE_OFF = none := by
  simp [chainLock, relock, inRange_one, (chainSlot_ne_free h).symm, noLocks]

@[simp] theorem chainLock_dat (h : Nat) (kind : LockKind) (b : Nat)
    : chainLock h kind .dat b = none := by
  simp [chainLock, relock, noLocks]

/-- The lock of a chain does not cover the records. -/
theorem chainLock_tail {h : Nat} (lt : h < NHASH_DEF) (kind : LockKind) {b : Nat}
    (high : RECS_OFF ≤ b)
    : chainLock h kind .idx b = none := by
  have low := chainSlot_lt lt
  have apart : b ≠ chainSlot h := by omega
  simp [chainLock, relock, inRange_one, apart, noLocks]

@[simp] theorem deleteLocks_self (h : Nat)
    : deleteLocks h .idx (chainSlot h) = some .wr := by
  simp [deleteLocks, relock, inRange_one, chainSlot_ne_free]

@[simp] theorem deleteLocks_free (h : Nat) : deleteLocks h .idx FREE_OFF = some .wr := by
  simp [deleteLocks, relock, inRange_one]

/-- The records of a locked chain are seen. -/
theorem Inv.sees_chain (inv : Inv s) {h o : Nat} (held : Holds s p (chainSlot h))
    (member : o ∈ s.2.chain h)
    : Sees s p o := by
  obtain ⟨alive, own⟩ := inv.members.chain.mp member
  exact ⟨alive, by rw [own]; exact held⟩

/-- A process that holds the free list sees its records. -/
theorem Inv.sees_free (inv : Inv s) {o : Nat} (held : Holds s p FREE_OFF)
    (member : o ∈ s.2.free)
    : Sees s p o := by
  obtain ⟨alive, own⟩ := inv.members.free.mp member
  exact ⟨alive, by rw [own]; exact held⟩

/-- A record that is seen does not change. -/
theorem Rely.recAt {o : Nat} {r : Rec} (h : Rely p s t) (seen : Sees s p o)
    (found : s.2.im.recAt o = some r)
    : t.2.im.recAt o = some r :=
  (h.recs seen).1.trans found

/-- A pointer that is seen does not change. -/
theorem Rely.next {o : Nat} (h : Rely p s t) (seen : Sees s p o)
    : t.2.im.next o = s.2.im.next o := by
  obtain ⟨r, found⟩ := seen.1
  rw [Image.next_rec found, Image.next_rec (h.recAt seen found)]

/-- A list stays linked while its entry and its records are seen. -/
theorem Rely.linked {a : Nat} {list : List Nat} (h : Rely p s t)
    (entry : t.2.im.next a = s.2.im.next a) (seen : ∀ o ∈ list, Sees s p o)
    (linked : Linked s.2.im.next a list)
    : Linked t.2.im.next a list := by
  refine linked.congr fun b member => ?_
  rcases List.mem_cons.mp member with rfl | later
  · exact entry
  · exact h.next (seen b later)

/-- The free list stays as it is while it is locked. -/
theorem Rely.linked_free (h : Rely p s t) (inv : Inv s) (held : HoldsW s p FREE_OFF)
    (linked : Linked s.2.im.next FREE_OFF s.2.free)
    : t.2.free = s.2.free ∧ Linked t.2.im.next FREE_OFF t.2.free := by
  obtain ⟨same, entry⟩ := h.free held.holds
  refine ⟨same, ?_⟩
  rw [same]
  exact h.linked entry (fun _ member => inv.sees_free held.holds member) linked

/-- The record at `o` belongs to `p`. -/
structure Mine (p : Pid) (o : Nat) (r : Rec) (d : CString) (s : State) : Prop where
  found : s.2.im.recAt o = some r
  own : s.2.own o = .proc p
  chunk : s.2.im.chunkAt r.datoff = some d

/-- A process sees its own record. -/
theorem Mine.sees {o : Nat} {r : Rec} {d : CString} (h : Mine p o r d s) : Sees s p o :=
  ⟨⟨r, h.found⟩, by rw [h.own]⟩

/-- A process owns its own record. -/
theorem Mine.owns {o : Nat} {r : Rec} {d : CString} (h : Mine p o r d s) : Owns s p o := by
  simp [Owns, h.own]

/-- A process's own record is on no chain. -/
theorem Mine.off_chain {o : Nat} {r : Rec} {d : CString} (h : Mine p o r d s)
    (members : Members s.2) (c : Nat)
    : o ∉ s.2.chain c :=
  members.off_chain (by simp [h.own])

/-- A process's own record is not on the free list. -/
theorem Mine.off_free {o : Nat} {r : Rec} {d : CString} (h : Mine p o r d s)
    (members : Members s.2)
    : o ∉ s.2.free :=
  members.off_free (by simp [h.own])

/-- A process's own record survives the steps of others. -/
theorem Mine.stable {o : Nat} {r : Rec} {d : CString} (h : Mine p o r d s) (hr : Rely p s t)
    : Mine p o r d t := by
  obtain ⟨found, own, chunk⟩ := hr.recs h.sees
  exact ⟨found.trans h.found, own.trans h.own, (chunk h.found).trans h.chunk⟩

-----------------------------------------------------------------------------------------
-- A locked chain
-----------------------------------------------------------------------------------------

/-- Process `p` holds the locks `T`, among them the write lock of chain `h`. The chain has the
records `list`, which show the bindings `shown`; the map has the bindings `bound` for its
keys. The records of `p` itself are among `mine`.
-/
structure Knows (p : Pid) (T : Locks) (h : Nat) (list : List Nat) (shown bound : Bindings)
    (mine : List Nat) (orphan : Option Nat) (stat : Status) (s : State)
    : Prop where
  lt : h < NHASH_DEF
  held : T .idx (chainSlot h) = some .wr
  locks : s.1.locks p = T
  list_ : s.2.chain h = list
  content : Shows s.2.im h list shown
  map : ∀ {key}, hash key = h → s.2.map key = bound key
  only : ∀ {o r}, s.2.im.recAt o = some r → s.2.own o = .proc p → o ∈ mine
  orphan_ : s.2.orphan p = orphan
  stat_ : s.2.stat p = stat

section Knows

variable {T : Locks} {h : Nat} {list mine : List Nat} {shown bound : Bindings}
  {orphan : Option Nat} {stat : Status}

/-- The process holds the lock of its chain. -/
theorem Knows.holdsW (k : Knows p T h list shown bound mine orphan stat s)
    : HoldsW s p (chainSlot h) := by
  simp [HoldsW, k.locks, k.held]

/-- The process sees the records of its chain. -/
theorem Knows.sees (k : Knows p T h list shown bound mine orphan stat s) (inv : Inv s)
    {o : Nat} (member : o ∈ list)
    : Sees s p o :=
  inv.sees_chain k.holdsW.holds (by rw [k.list_]; exact member)

/-- The process owns the records of its chain. -/
theorem Knows.owns (k : Knows p T h list shown bound mine orphan stat s) (inv : Inv s)
    {o : Nat} (member : o ∈ list)
    : Owns s p o := by
  rw [← k.list_] at member
  simp only [Owns, (inv.members.chain.mp member).2]
  exact k.holdsW

/-- The records of the chain are in the file. -/
theorem Knows.alive (k : Knows p T h list shown bound mine orphan stat s) (inv : Inv s)
    {o : Nat} (member : o ∈ list)
    : ∃ r, s.2.im.recAt o = some r :=
  (k.sees inv member).1

/-- What `p` knows survives the steps of the others. -/
theorem Knows.stable (k : Knows p T h list shown bound mine orphan stat s) (inv : Inv s)
    (hr : Rely p s t)
    : Knows p T h list shown bound mine orphan stat t := by
  obtain ⟨same, -, map⟩ := hr.chain k.lt k.holdsW.holds
  refine ⟨k.lt, k.held, hr.locks.trans k.locks, same.trans k.list_, ?_, ?_, ?_,
    hr.orphan.trans k.orphan_, hr.stat.trans k.stat_⟩
  · refine k.content.congr (fun o member => k.alive inv member) (fun _ => rfl) ?_
    intro o r member found
    have seen := k.sees inv member
    exact ⟨hr.recAt seen found, (hr.recs seen).2.2 found⟩
  · exact fun hashed => (map hashed).trans (k.map hashed)
  · intro o r found own
    obtain ⟨⟨r', found'⟩, own'⟩ := hr.mine found own
    exact k.only found' own'

/-- The pointer of the chain survives the steps of others. -/
theorem Knows.slot_stable (k : Knows p T h list shown bound mine orphan stat s)
    (hr : Rely p s t)
    : t.2.im.next (chainSlot h) = s.2.im.next (chainSlot h) :=
  (hr.chain k.lt k.holdsW.holds).2.1

/-- The pointers of the chain survive too. -/
theorem Knows.linked_stable (k : Knows p T h list shown bound mine orphan stat s)
    (inv : Inv s) (hr : Rely p s t) (linked : Linked s.2.im.next (chainSlot h) list)
    : Linked t.2.im.next (chainSlot h) list :=
  hr.linked (k.slot_stable hr) (fun _ member => k.sees inv member) linked

/-- Any record that shows a key of the locked chain is on the chain or belongs to `p`.
Witness: a record that moves belongs to a process that holds the lock of its chain.
-/
theorem Knows.sole (k : Knows p T h list shown bound mine orphan stat s) (inv : Inv s)
    {x : Nat} {y : Rec} (hashed : hash y.key = h) (found : s.2.im.recAt x = some y)
    (nonblank : ¬ Blank y.key)
    : x ∈ list ∨ x ∈ mine := by
  have ok := inv.recOk found
  simp only [RecOk] at ok
  cases owner : s.2.own x with
  | chain c =>
      rw [owner] at ok
      obtain rfl : h = c := hashed.symm.trans ok.1
      exact Or.inl (k.list_ ▸ inv.members.chain.mpr ⟨⟨y, found⟩, owner⟩)
  | free =>
      rw [owner] at ok
      exact absurd ok nonblank
  | proc q =>
      rw [owner] at ok
      have heldq : HoldsW s q (chainSlot h) := hashed ▸ (ok nonblank).1
      by_cases same : q = p
      · subst same
        exact Or.inr (k.only found owner)
      · exact absurd k.holdsW.holds (inv.apart (Ne.symm same) heldq)

/-- A key that the chain does not show is in no record of the chain. -/
theorem Knows.absent (k : Knows p T h list shown bound mine orphan stat s) (inv : Inv s)
    {x : Nat} {y : Rec} (hashed : hash y.key = h) (unbound : shown y.key = none)
    (found : s.2.im.recAt x = some y)
    : x ∉ list := by
  intro member
  obtain ⟨d, chunk, -⟩ := inv.regions.exists_ found
  have present := (k.content.bound hashed d).mpr ⟨x, y, member, found, rfl, chunk⟩
  simp [unbound] at present

end Knows

-----------------------------------------------------------------------------------------
-- Own steps that leave the chain alone
-----------------------------------------------------------------------------------------

/-- A change of the ghost state leaves the list, the pointers and the data of chain `h`. -/
structure Keeps (h : Nat) (g g' : Ghost) : Prop where
  list : g'.chain h = g.chain h
  slot : g'.im.next (chainSlot h) = g.im.next (chainSlot h)
  recs : ∀ {o r}, o ∈ g.chain h → g.im.recAt o = some r
    → g'.im.recAt o = some r ∧ g'.im.chunkAt r.datoff = g.im.chunkAt r.datoff

section Keeps

variable {h : Nat} {g g' : Ghost}

/-- A pointer elsewhere does not matter to a chain. -/
theorem Keeps.setCell {a : Nat} {old v : Ptr} (cell : g.im.cell a = some old)
    (im : g'.im = g.im.setCell a v) (chain : g'.chain h = g.chain h)
    (entry : chainSlot h ≠ a) (outside : a ∉ g.chain h)
    : Keeps h g g' := by
  refine ⟨chain, ?_, fun {o r} member found => ?_⟩
  · rw [im, Image.next_setCell cell, if_neg entry]
  · have apart : o ≠ a := fun same => outside (same ▸ member)
    rw [im, Image.recAt_setCell cell, if_neg apart, Image.chunkAt_setCell]
    exact ⟨found, rfl⟩

/-- A record elsewhere does not matter to a chain. -/
theorem Keeps.setRec {o : Nat} {r r' : Rec} (found : g.im.recAt o = some r)
    (shape : r.SameShape r') (im : g'.im = g.im.setRec o r')
    (chain : g'.chain h = g.chain h) (lt : h < NHASH_DEF) (outside : o ∉ g.chain h)
    : Keeps h g g' := by
  refine ⟨chain, ?_, fun {x y} member at_ => ?_⟩
  · have apart : chainSlot h ≠ o := by
      intro same
      have absent := g.im.recAt_chainSlot lt
      rw [same, found] at absent
      cases absent
    rw [im, Image.next_setRec found shape, if_neg apart]
  · have apart : x ≠ o := fun same => outside (same ▸ member)
    rw [im, Image.recAt_setRec found shape, if_neg apart, Image.chunkAt_setRec]
    exact ⟨at_, rfl⟩

/-- Data of a record elsewhere does not matter to a chain. -/
theorem Keeps.setChunk {o : Nat} {r : Rec} {d d' : CString} (regions : Regions g)
    (found : g.im.recAt o = some r) (chunk : g.im.chunkAt r.datoff = some d)
    (same : d'.bytes.length = d.bytes.length) (im : g'.im = g.im.setChunk r.datoff d')
    (chain : g'.chain h = g.chain h) (outside : o ∉ g.chain h)
    : Keeps h g g' := by
  refine ⟨chain, by rw [im]; rfl, fun {x y} member at_ => ?_⟩
  have apart : y.datoff ≠ r.datoff := fun eq => outside (regions.unique at_ found eq ▸ member)
  rw [im, Image.chunkAt_setChunk chunk same, if_neg apart]
  exact ⟨at_, rfl⟩

/-- New data does not matter to a chain. -/
theorem Keeps.addChunk {d : CString} (regions : Regions g) (im : g'.im = g.im.addChunk d)
    (chain : g'.chain h = g.chain h)
    : Keeps h g g' := by
  refine ⟨chain, by rw [im]; rfl, fun {x y} member at_ => ?_⟩
  obtain ⟨d', chunk, -⟩ := regions.exists_ at_
  have apart : y.datoff ≠ g.im.dat.length := by
    intro eq
    simp [eq, g.im.chunkAt_dat_end] at chunk
  rw [im, Image.chunkAt_addChunk, if_neg apart]
  exact ⟨at_, rfl⟩

/-- A new record does not matter to a chain. -/
theorem Keeps.addRec {r : Rec} (im : g'.im = g.im.addRec r)
    (chain : g'.chain h = g.chain h) (lt : h < NHASH_DEF)
    : Keeps h g g' := by
  refine ⟨chain, ?_, fun {x y} member at_ => ?_⟩
  · have apart : chainSlot h ≠ g.im.idx.length := by
      have low := chainSlot_lt lt
      simp only [Image.idx, List.length_append, Image.header_length]
      omega
    rw [im, Image.next_addRec, if_neg apart]
  · have apart : x ≠ g.im.idx.length := by
      rintro rfl
      simp [g.im.recAt_idx_end] at at_
    rw [im, Image.recAt_addRec, if_neg apart, Image.chunkAt_addRec]
    exact ⟨at_, rfl⟩

variable {T T' : Locks} {list mine mine' : List Nat} {shown bound bound' : Bindings}
  {orphan orphan' : Option Nat} {stat stat' : Status}

/-- The pointers of the chain after a step that leaves it alone. -/
theorem Keeps.linked (keeps : Keeps h g g') (members : Members g)
    (linked : Linked g.im.next (chainSlot h) (g.chain h))
    : Linked g'.im.next (chainSlot h) (g.chain h) := by
  refine linked.congr fun b member => ?_
  rcases List.mem_cons.mp member with rfl | later
  · exact keeps.slot
  · obtain ⟨r, found⟩ := (members.chain.mp later).1
    rw [Image.next_rec found, Image.next_rec (keeps.recs later found).1]

/-- The same for the chain that `p` knows. -/
theorem Knows.linked_keeps (k : Knows p T h list shown bound mine orphan stat s) (inv : Inv s)
    (keeps : Keeps h s.2 g') (linked : Linked s.2.im.next (chainSlot h) list)
    : Linked g'.im.next (chainSlot h) list := by
  have same := k.list_
  subst same
  exact keeps.linked inv.members linked

/-- What `p` knows after a step of its own that leaves the chain alone. -/
theorem Knows.step {d' : Disk} (k : Knows p T h list shown bound mine orphan stat s)
    (inv : Inv s) (keeps : Keeps h s.2 g') (locks : d'.locks p = T')
    (held : T' .idx (chainSlot h) = some .wr)
    (map : ∀ {key}, hash key = h → g'.map key = bound' key)
    (only : ∀ {o r}, g'.im.recAt o = some r → g'.own o = .proc p → o ∈ mine')
    (orphan_ : g'.orphan p = orphan') (stat_ : g'.stat p = stat')
    : Knows p T' h list shown bound' mine' orphan' stat' (d', g') := by
  refine ⟨k.lt, held, locks, keeps.list.trans k.list_, ?_, map, only, orphan_, stat_⟩
  refine k.content.congr (fun o member => k.alive inv member) (fun _ => rfl) ?_
  intro o r member found
  exact keeps.recs (k.list_ ▸ member) found

/-- What `p` knows after it took or gave up another lock. -/
theorem Knows.relock (k : Knows p T h list shown bound mine orphan stat s) (fd : Fd)
    (a n : Nat) (kind : Option LockKind)
    (held : Minions.Db.relock T fd a n kind .idx (chainSlot h) = some .wr)
    : Knows p (Minions.Db.relock T fd a n kind) h list shown bound mine orphan stat
        (s.1.setLocks p fd a n kind, s.2) := by
  refine ⟨k.lt, held, ?_, k.list_, k.content, k.map, k.only, k.orphan_, k.stat_⟩
  rw [setLocks_self, k.locks]

end Keeps

/-- The lock of the free list does not touch that of a chain. -/
theorem relock_free_slot (T : Locks) (h : Nat) (kind : Option LockKind)
    : relock T .idx FREE_OFF 1 kind .idx (chainSlot h) = T .idx (chainSlot h) := by
  simp [relock, inRange_one, chainSlot_ne_free]

/-- The free list is well formed for whoever is granted its lock. -/
theorem Inv.granted_free {kind : LockKind} (inv : Inv s)
    (none_ : s.1.locks p .idx FREE_OFF = none) (granted : s.1.grants p .idx kind FREE_OFF 1)
    : Linked s.2.im.next FREE_OFF s.2.free := by
  refine inv.freeOk fun q heldq => ?_
  by_cases same : q = p
  · subst same
    simp [HoldsW, none_] at heldq
  · exact (granted q _ same (inRange_one.mpr rfl)).1 heldq

/-- The lock of a well formed free list may be given up by a process whose own records are
blank.
-/
theorem Inv.release_free (inv : Inv s) (linked : Linked s.2.im.next FREE_OFF s.2.free)
    (blank : ∀ {o r}, s.2.im.recAt o = some r → s.2.own o = .proc p → Blank r.key)
    : Inv (s.1.setLocks p .idx FREE_OFF 1 none, s.2) := by
  refine inv_release s.2.stat inv ?_ (fun _ _ _ => linked) ?_
  · intro h _ _ _ range
    exact absurd (inRange_one.mp range) (chainSlot_ne_free h)
  · exact fun o r found own nonblank => absurd (blank found own) nonblank

/-- A cell on the way through the free list may be written by the holder of its lock. -/
structure FreeCell (p : Pid) (s : State) (a : Nat) : Prop where
  may : MayWrite p s .idx a PTR_SZ
  owns : ∀ r, s.2.im.recAt a = some r → Owns s p a
  apart : ∀ h, h < NHASH_DEF → chainSlot h ≠ a
  outside : ∀ h, a ∉ s.2.chain h

/-- A record is at least as long as its pointer. -/
theorem Rec.ptr_fits (r : Rec) : PTR_SZ ≤ r.enc.length := by
  rw [r.enc_length]
  omega

/-- A pointer on the free list is that of the process that holds it. -/
theorem Inv.freeCell (inv : Inv s) (held : HoldsW s p FREE_OFF) (l₁ : List Nat)
    (sub : ∀ o ∈ l₁, o ∈ s.2.free)
    : FreeCell p s (lastCell FREE_OFF l₁) := by
  rcases lastCell_mem FREE_OFF l₁ with same | member
  · rw [same]
    refine ⟨.free held, ?_, fun h _ => chainSlot_ne_free h, fun h member => ?_⟩
    · intro r found
      simp [s.2.im.recAt_free] at found
    · obtain ⟨⟨r, found⟩, -⟩ := inv.members.chain.mp member
      simp [s.2.im.recAt_free] at found
  · obtain ⟨⟨r, found⟩, own⟩ := inv.members.free.mp (sub _ member)
    have owns : Owns s p (lastCell FREE_OFF l₁) := by
      simp only [Owns, own]
      exact held
    refine ⟨.record found owns r.ptr_fits, fun _ _ => owns, ?_, ?_⟩
    · intro h lt same
      have absent := s.2.im.recAt_chainSlot lt
      rw [same, found] at absent
      cases absent
    · intro h onChain
      have other := (inv.members.chain.mp onChain).2
      rw [own] at other
      cases other

end Minions.Db
