import Minions.Db.FreeList

/-! `_db_dodelete`: taking a record out of its hash chain and putting it on the free list.
The record is first blanked, then linked into the free list, and only then bypassed in its
chain. Meanwhile the chain is described as if the record still held its old pointer.
-/

namespace Minions.Db

open Minions.Data Minions.Logic

variable {p : Pid} {l : Offsets} {s t : State} {db : DB} {h o v : Nat} {l₁ l₂ : List Nat}

/-- `n` blanks. -/
def blanks (n : Nat) : CString where
  bytes := List.replicate n SPACE
  noNull := by
    intro member
    have := List.eq_of_mem_replicate member
    simp [SPACE] at this

/-- A key of spaces is blank. -/
theorem blank_replicate (n : Nat) : Blank (List.replicate n SPACE) :=
  fun _ member => List.eq_of_mem_replicate member

/-- What the chain shows without one of its records. -/
theorem Shows.remove {im : Image} {shown : Bindings} {r : Rec}
    (content : Shows im h (l₁ ++ o :: l₂) shown) (found : im.recAt o = some r)
    (outside : o ∉ l₁ ++ l₂)
    : Shows im h (l₁ ++ l₂) (shown.set r.key none) := by
  have sub : ∀ {x}, x ∈ l₁ ++ l₂ → x ∈ l₁ ++ o :: l₂ := by
    intro x member
    simp only [List.mem_append, List.mem_cons] at member ⊢
    tauto
  refine ⟨fun mem mem' => content.distinct (sub mem) (sub mem'), fun {key} hashed d => ?_⟩
  by_cases same : key = r.key
  · subst same
    simp only [Bindings.set_self, reduceCtorEq, false_iff]
    rintro ⟨x, y, member, at_, eq, -⟩
    have again := content.distinct (sub member) (by simp) at_ found eq
    exact outside (again ▸ member)
  · rw [Bindings.set_other _ _ same, content.bound hashed]
    constructor
    · rintro ⟨x, y, member, at_, eq, chunk⟩
      refine ⟨x, y, ?_, at_, eq, chunk⟩
      have apart : x ≠ o := by
        rintro rfl
        obtain rfl : r = y := Option.some.inj (found.symm.trans at_)
        exact same eq.symm
      simp only [List.mem_append, List.mem_cons] at member ⊢
      tauto
    · rintro ⟨x, y, member, rest⟩
      exact ⟨x, y, sub member, rest⟩

-----------------------------------------------------------------------------------------
-- In the middle of a deletion
-----------------------------------------------------------------------------------------

/-- Process `p` is taking the record at `o`, whose pointer was `v`, out of chain `h`. -/
structure Deleting (p : Pid) (h : Nat) (l₁ l₂ : List Nat) (o v : Nat)
    (shown bound : Bindings) (mine : List Nat) (stat : Status) (s : State)
    : Prop where
  knows : Knows p (deleteLocks h) h (l₁ ++ l₂) shown bound mine none stat s
  link : Linked (Function.update s.2.im.next o (some v)) (chainSlot h) (l₁ ++ o :: l₂)
  free : Linked s.2.im.next FREE_OFF s.2.free

section Deleting

variable {shown bound : Bindings} {mine : List Nat} {stat : Status}

/-- A deletion holds the free list. -/
theorem Deleting.holdsFree (w : Deleting p h l₁ l₂ o v shown bound mine stat s)
    : HoldsW s p FREE_OFF := by
  simp [HoldsW, w.knows.locks]

/-- The record that is deleted is on its chain no more. -/
theorem Deleting.outside (w : Deleting p h l₁ l₂ o v shown bound mine stat s)
    : o ∉ l₁ ++ l₂ ∧ chainSlot h ≠ o := by
  have nodup := w.link.nodup
  simp only [List.nodup_cons, List.nodup_append, List.mem_append, List.mem_cons, not_or]
    at nodup
  refine ⟨?_, nodup.1.2.1⟩
  simp only [List.mem_append, not_or]
  exact ⟨fun early => nodup.2.2.2 o early o (Or.inl rfl) rfl, nodup.2.2.1.1⟩

/-- The pointers of the chain after a step that changes at most the cell of `o`. -/
theorem Deleting.relink (w : Deleting p h l₁ l₂ o v shown bound mine stat s)
    {next' : Nat → Option Nat}
    (same : ∀ b ∈ chainSlot h :: (l₁ ++ l₂), next' b = s.2.im.next b)
    : Linked (Function.update next' o (some v)) (chainSlot h) (l₁ ++ o :: l₂) := by
  refine w.link.congr fun b member => ?_
  by_cases here : b = o
  · simp [here]
  · rw [Function.update_of_ne here, Function.update_of_ne here]
    refine same b ?_
    simp only [List.mem_cons, List.mem_append] at member ⊢
    tauto

/-- What a deletion knows survives the steps of other processes. -/
theorem Deleting.stable (w : Deleting p h l₁ l₂ o v shown bound mine stat s) (inv : Inv s)
    (hr : Rely p s t)
    : Deleting p h l₁ l₂ o v shown bound mine stat t := by
  refine ⟨w.knows.stable inv hr, w.relink fun b member => ?_, ?_⟩
  · rcases List.mem_cons.mp member with rfl | later
    · exact w.knows.slot_stable hr
    · exact hr.next (w.knows.sees inv later)
  · exact (hr.linked_free inv w.holdsFree w.free).2

/-- The free list is untouched by writes to records that are not on it. -/
theorem Deleting.free_kept {g' : Ghost} (w : Deleting p h l₁ l₂ o v shown bound mine stat s)
    (same : g'.free = s.2.free)
    (kept : ∀ b ∈ FREE_OFF :: s.2.free, g'.im.next b = s.2.im.next b)
    : Linked g'.im.next FREE_OFF g'.free := by
  rw [same]
  exact w.free.congr kept

end Deleting

/-- A cell on the way through a chain may be written by the holder of its lock. -/
structure ChainCell (p : Pid) (h : Nat) (s : State) (a : Nat) : Prop where
  may : MayWrite p s .idx a PTR_SZ
  owns : ∀ r, s.2.im.recAt a = some r → Owns s p a
  apart : ∀ c, c < NHASH_DEF → c ≠ h → chainSlot c ≠ a
  offFree : a ∉ FREE_OFF :: s.2.free

/-- The pointer to the record is the deletion's to change. -/
theorem Deleting.chainCell {shown bound : Bindings} {mine : List Nat} {stat : Status}
    (w : Deleting p h l₁ l₂ o v shown bound mine stat s) (inv : Inv s)
    : ChainCell p h s (lastCell (chainSlot h) l₁) := by
  rcases lastCell_mem (chainSlot h) l₁ with same | member
  · rw [same]
    refine ⟨.slot w.knows.lt w.knows.holdsW, ?_, ?_, ?_⟩
    · intro r found
      simp [s.2.im.recAt_chainSlot w.knows.lt] at found
    · exact fun c _ differs eq => differs (chainSlot_inj eq)
    · simp only [List.mem_cons, not_or]
      refine ⟨chainSlot_ne_free h, fun onFree => ?_⟩
      obtain ⟨⟨r, found⟩, -⟩ := inv.members.free.mp onFree
      simp [s.2.im.recAt_chainSlot w.knows.lt] at found
  · have onChain : lastCell (chainSlot h) l₁ ∈ l₁ ++ l₂ := by simp [member]
    obtain ⟨r, found⟩ := w.knows.alive inv onChain
    have owns := w.knows.owns inv onChain
    refine ⟨.record found owns r.ptr_fits, fun _ _ => owns, ?_, ?_⟩
    · intro c lt _ eq
      have absent := s.2.im.recAt_chainSlot lt
      rw [eq, found] at absent
      cases absent
    · simp only [List.mem_cons, not_or]
      refine ⟨fun eq => ?_, fun onFree => ?_⟩
      · have absent := s.2.im.recAt_free
        rw [← eq, found] at absent
        cases absent
      · have free := (inv.members.free.mp onFree).2
        rw [← w.knows.list_] at onChain
        rw [(inv.members.chain.mp onChain).2] at free
        cases free

/-- Pointers do not matter to what a list shows. -/
theorem Shows.setCell {im : Image} {list : List Nat} {m : Bindings} {a : Nat} {old q : Ptr}
    (ok : Shows im h list m) (alive : ∀ o ∈ list, ∃ r, im.recAt o = some r)
    (cell : im.cell a = some old)
    : Shows (im.setCell a q) h list m := by
  refine ok.transfer alive (fun _ => rfl) fun {x y} _ found => ?_
  rw [Image.recAt_setCell cell]
  by_cases same : x = a
  · exact ⟨y.setPtr q, by simp only [if_pos same, found, Option.map_some], rfl,
      Image.chunkAt_setCell _ _ _ _⟩
  · exact ⟨y, by simp only [if_neg same, found], rfl, Image.chunkAt_setCell _ _ _ _⟩

-----------------------------------------------------------------------------------------
-- The four writes
-----------------------------------------------------------------------------------------

section Steps

variable {m bound : Bindings} {stat stat₁ : Status} {r : Rec} {d : CString}

/-- How a write takes effect: the map changes at `key` only, and the process's status. -/
structure Outcome (p : Pid) (key : List Byte) (bound : Bindings) (stat : Status)
    (s : State) (map' : Bindings) (stat' : Pid → Status)
    : Prop where
  elsewhere : ∀ k, k ≠ key → map' k = s.2.map k
  bound_ : ∀ {k}, hash k = hash key → map' k = bound k
  mine : stat' p = stat
  others : ∀ q, q ≠ p → stat' q = s.2.stat q

/-- Blanking the data: the record leaves its chain and belongs to the process. -/
theorem blank_data {map' : Bindings} {stat' : Pid → Status}
    (k : Knows p (deleteLocks h) h (l₁ ++ o :: l₂) m m [] none stat s) (inv : Inv s)
    (linked : Linked s.2.im.next (chainSlot h) (l₁ ++ o :: l₂))
    (free : Linked s.2.im.next FREE_OFF s.2.free) (found : s.2.im.recAt o = some r)
    (hashed : hash r.key = h) (chunk : s.2.im.chunkAt r.datoff = some d)
    (eff : Outcome p r.key bound stat₁ s map' stat')
    : ∃ g, g.im = s.2.im.setChunk r.datoff (blanks d.bytes.length)
        ∧ g.map = map' ∧ g.stat = stat' ∧ Allowed p s g
        ∧ Deleting p h l₁ l₂ o r.ptr.val (m.set r.key none) bound [o] stat₁ (s.1.put g.im, g)
        ∧ Mine p o r (blanks d.bytes.length) (s.1.put g.im, g) := by
  have member : o ∈ s.2.chain h := by simp [k.list_]
  have own : s.2.own o = .chain h := (inv.members.chain.mp member).2
  have nodup := linked.nodup
  simp only [List.nodup_cons, List.nodup_append, List.mem_append, List.mem_cons, not_or]
    at nodup
  have outside : o ∉ l₁ ++ l₂ := by
    simp only [List.mem_append, not_or]
    exact ⟨fun early => nodup.2.2.2 o early o (Or.inl rfl) rfl, nodup.2.2.1.1⟩
  have heldFree : HoldsW s p FREE_OFF := by simp [HoldsW, k.locks]
  have same : (blanks d.bytes.length).bytes.length = d.bytes.length := by simp [blanks]
  have allowed := allowed_setChunk (.proc p) (Function.update s.2.chain h (l₁ ++ l₂)) map' stat' inv
    found chunk same (by simp only [Owns, own]; exact k.holdsW)
    (fun q eq => (Owner.proc.inj eq).symm)
    (fun c => by
      by_cases here : c = h
      · exact Or.inl (here ▸ k.holdsW)
      · exact Or.inr (Function.update_of_ne here _ _))
    (fun c x => by
      by_cases here : c = h
      · subst here
        rw [Function.update_self, k.list_]
        by_cases eq : x = o
        · subst eq
          simpa using outside
        · simp [eq]
      · rw [Function.update_of_ne here]
        exact mem_iff_ite (inv.members.off_chain (by simp [own, Ne.symm here])) (by simp))
    (fun x => mem_iff_ite (inv.members.off_free (by simp [own])) (by simp))
    (fun key => by
      by_cases eq : key = r.key
      · exact Or.inr (by rw [eq, hashed]; exact k.holdsW)
      · exact Or.inl (eff.elsewhere key eq))
    (fun {x y} apart at_ nonblank => by
      refine eff.elsewhere _ fun eq => apart ?_
      rcases k.sole inv (by rw [eq, hashed]) at_ nonblank with onChain | mine
      · exact k.content.distinct onChain (by simp) at_ found eq
      · exact absurd mine List.not_mem_nil)
    eff.others
    (fun _ => ⟨by rw [hashed]; exact k.holdsW, Or.inr heldFree⟩)
  refine ⟨_, rfl, rfl, rfl, allowed, ⟨?_, ?_, free⟩, ?_⟩
  · refine ⟨k.lt, by simp, k.locks, Function.update_self _ _ _, ?_, ?_, ?_, k.orphan_, eff.mine⟩
    · refine (k.content.remove found outside).congr ?_ (fun _ => rfl) ?_
      · intro x here
        refine k.alive inv ?_
        simp only [List.mem_append, List.mem_cons] at here ⊢
        tauto
      · intro x y here at_
        have apart : y.datoff ≠ r.datoff := by
          intro eq
          exact outside (inv.regions.unique at_ found eq ▸ here)
        exact ⟨at_, by rw [Image.chunkAt_setChunk chunk same, if_neg apart]⟩
    · intro key hashedKey
      exact eff.bound_ (by rw [hashedKey, hashed])
    · intro x y at_ mine
      by_cases eq : x = o
      · simp [eq]
      · simp only [Function.update_of_ne eq] at mine
        exact absurd (k.only at_ mine) List.not_mem_nil
  · have unchanged : Function.update s.2.im.next o (some r.ptr.val) = s.2.im.next := by
      rw [← Image.next_rec found, Function.update_eq_self]
    show Linked (Function.update s.2.im.next o (some r.ptr.val)) _ _
    rw [unchanged]
    exact linked
  · refine ⟨found, by simp, ?_⟩
    simp only [Image.chunkAt_setChunk chunk same, if_true]

variable {shown : Bindings}

/-- Blanking the key. -/
theorem blank_key {r' : Rec} (w : Deleting p h l₁ l₂ o v shown bound [o] stat s)
    (inv : Inv s) (mine : Mine p o r d s) (shape : r.SameShape r') (blank : Blank r'.key)
    : ∃ g, g.im = s.2.im.setRec o r' ∧ g.map = s.2.map ∧ g.stat = s.2.stat
        ∧ g.free = s.2.free ∧ Allowed p s g
        ∧ Deleting p h l₁ l₂ o v shown bound [o] stat (s.1.put g.im, g)
        ∧ Mine p o r' d (s.1.put g.im, g) := by
  have allowed := allowed_setRec s.2.map s.2.stat inv mine.found shape
    mine.own (fun _ => Or.inr w.holdsFree) (fun _ => Or.inl rfl) (fun _ _ _ => rfl)
    (fun _ _ => rfl) (fun nonblank => absurd blank nonblank)
  have apart : o ∉ s.2.chain h := by
    rw [w.knows.list_]
    exact w.outside.1
  have keeps : Keeps h s.2 { s.2 with im := s.2.im.setRec o r' } :=
    .setRec mine.found shape rfl rfl w.knows.lt apart
  refine ⟨{ s.2 with im := s.2.im.setRec o r' }, rfl, rfl, rfl, rfl, allowed, ⟨?_, ?_, ?_⟩, ?_⟩
  · refine w.knows.step inv keeps w.knows.locks w.knows.held w.knows.map ?_ w.knows.orphan_
      w.knows.stat_
    intro x y at_ own
    obtain ⟨y', before⟩ := (Image.alive_setRec mine.found shape x).mp ⟨y, at_⟩
    exact w.knows.only before own
  · refine w.relink fun b member => ?_
    have differs : b ≠ o := by
      rcases List.mem_cons.mp member with rfl | later
      · exact w.outside.2
      · exact fun eq => w.outside.1 (eq ▸ later)
    rw [Image.next_setRec mine.found shape, if_neg differs]
  · refine w.free_kept rfl fun b member => ?_
    have differs : b ≠ o := by
      rintro rfl
      rcases List.mem_cons.mp member with rfl | later
      · have absent := s.2.im.recAt_free
        rw [mine.found] at absent
        cases absent
      · exact mine.off_free inv.members later
    rw [Image.next_setRec mine.found shape, if_neg differs]
  · refine ⟨?_, mine.own, ?_⟩
    · simp only [Image.recAt_setRec mine.found shape, if_true]
    · simp only [Image.chunkAt_setRec, shape.2.1, mine.chunk]

/-- Linking the record into the free list. -/
theorem push_free {q old : Ptr} (w : Deleting p h l₁ l₂ o v shown bound [o] stat s)
    (inv : Inv s) (mine : Mine p o r d s) (blank : Blank r.key) (value : q.val = o)
    (cell : s.2.im.cell FREE_OFF = some old) (first : r.ptr.val = old.val)
    : ∃ g, g.im = s.2.im.setCell FREE_OFF q ∧ g.map = s.2.map ∧ g.stat = s.2.stat
        ∧ Allowed p s g
        ∧ Deleting p h l₁ l₂ o v shown bound [] stat (s.1.put g.im, g)
        ∧ g.im.recAt o = some r ∧ g.own o = .free := by
  have differs : o ≠ FREE_OFF := by
    intro eq
    have absent := s.2.im.recAt_free
    rw [← eq, mine.found] at absent
    cases absent
  have offFree := mine.off_free inv.members
  have offChain := mine.off_chain inv.members
  have noFree : ∀ {x y}, s.2.im.recAt x = some y → x ≠ FREE_OFF := by
    rintro x y found rfl
    simp [s.2.im.recAt_free] at found
  have allowed := allowed_setCell (p := p) (v := q) .free s.2.chain (o :: s.2.free) inv cell
    mine.found (fun y found => absurd rfl (noFree found)) mine.owns
    (fun c _ => Or.inr ⟨rfl, chainSlot_ne_free c⟩) (Or.inl w.holdsFree)
    (fun _ eq => by cases eq)
    (fun c x => mem_iff_ite (offChain c) (by simp))
    (fun x => by
      by_cases same : x = o
      · simp [same]
      · simp [same])
    blank
  have keeps : Keeps h s.2
      { s.2 with
        im := s.2.im.setCell FREE_OFF q
        own := Function.update s.2.own o .free
        chain := s.2.chain
        free := o :: s.2.free } :=
    .setCell cell rfl rfl (chainSlot_ne_free h) fun member => by
      obtain ⟨⟨y, found⟩, -⟩ := inv.members.chain.mp member
      exact noFree found rfl
  refine ⟨{ s.2 with
      im := s.2.im.setCell FREE_OFF q
      own := Function.update s.2.own o .free
      chain := s.2.chain
      free := o :: s.2.free }, rfl, rfl, rfl, allowed, ⟨?_, ?_, ?_⟩, ?_, by simp⟩
  · refine w.knows.step inv keeps w.knows.locks w.knows.held w.knows.map ?_ w.knows.orphan_
      w.knows.stat_
    intro x y at_ own
    by_cases same : x = o
    · simp [same] at own
    · simp only [Function.update_of_ne same] at own
      obtain ⟨y', before⟩ := (Image.alive_setCell cell q x).mp ⟨y, at_⟩
      exact absurd (List.mem_singleton.mp (w.knows.only before own)) same
  · refine w.relink fun b member => ?_
    have apart : b ≠ FREE_OFF := by
      rcases List.mem_cons.mp member with rfl | later
      · exact chainSlot_ne_free h
      · obtain ⟨y, found⟩ := w.knows.alive inv later
        exact noFree found
    rw [Image.next_setCell cell, if_neg apart]
  · refine w.free.push ?_ ?_ ?_ ?_ ?_
    · simp [differs, offFree]
    · exact differs
    · rw [Image.next_setCell cell, if_pos rfl, value]
    · rw [Image.next_setCell cell, if_neg differs, Image.next_rec mine.found, first]
      simp [Image.next, cell]
    · intro b member
      obtain ⟨⟨y, found⟩, -⟩ := inv.members.free.mp member
      rw [Image.next_setCell cell, if_neg (noFree found)]
  · simp only [Image.recAt_setCell cell, if_neg differs, mine.found]

/-- Bypassing the record in its chain. -/
theorem unlink_record {q old : Ptr} (w : Deleting p h l₁ l₂ o v shown bound [] stat s)
    (inv : Inv s) (found : s.2.im.recAt o = some r) (own : s.2.own o = .free)
    (value : q.val = v) (cell : s.2.im.cell (lastCell (chainSlot h) l₁) = some old)
    : ∃ g, g.im = s.2.im.setCell (lastCell (chainSlot h) l₁) q ∧ g.map = s.2.map
        ∧ g.stat = s.2.stat ∧ Allowed p s g
        ∧ Knows p (deleteLocks h) h (l₁ ++ l₂) shown bound [] none stat (s.1.put g.im, g)
        ∧ Linked g.im.next (chainSlot h) (l₁ ++ l₂)
        ∧ Linked g.im.next FREE_OFF g.free := by
  have onFree : o ∈ s.2.free := inv.members.free.mpr ⟨⟨r, found⟩, own⟩
  have chainCell := w.chainCell inv
  have blank : Blank r.key := by
    have ok := inv.recOk found
    simpa only [RecOk, own, OwnerOk] using ok
  have offChain : ∀ c, o ∉ s.2.chain c := fun c => inv.members.off_chain (by simp [own])
  have allowed := allowed_setCell (p := p) (v := q) .free s.2.chain s.2.free inv cell found
    chainCell.owns (by simp only [Owns, own]; exact w.holdsFree)
    (fun c lt => by
      by_cases same : c = h
      · exact Or.inl (same ▸ w.knows.holdsW)
      · exact Or.inr ⟨rfl, chainCell.apart c lt same⟩)
    (Or.inl w.holdsFree) (fun _ eq => by cases eq)
    (fun c x => mem_iff_ite (offChain c) (by simp))
    (fun x => by
      by_cases same : x = o
      · simp [same, onFree]
      · simp [same])
    blank
  refine ⟨{ s.2 with
      im := s.2.im.setCell (lastCell (chainSlot h) l₁) q
      own := Function.update s.2.own o .free
      chain := s.2.chain
      free := s.2.free }, rfl, rfl, rfl, allowed, ?_, ?_, ?_⟩
  · refine ⟨w.knows.lt, w.knows.held, w.knows.locks, w.knows.list_, ?_, w.knows.map, ?_,
      w.knows.orphan_, w.knows.stat_⟩
    · exact w.knows.content.setCell (fun x member => w.knows.alive inv member) cell
    · intro x y at_ mine
      by_cases same : x = o
      · simp [same] at mine
      · simp only [Function.update_of_ne same] at mine
        obtain ⟨y', before⟩ := (Image.alive_setCell cell q x).mp ⟨y, at_⟩
        exact w.knows.only before mine
  · refine w.link.unlink ?_ fun b _ differs => ?_
    · rw [Image.next_setCell cell, if_pos rfl, value]
    · rw [Image.next_setCell cell, if_neg differs]
  · refine w.free_kept rfl fun b member => ?_
    have differs : b ≠ lastCell (chainSlot h) l₁ := by
      rintro rfl
      exact chainCell.offFree member
    rw [Image.next_setCell cell, if_neg differs]

end Steps

-----------------------------------------------------------------------------------------
-- The function
-----------------------------------------------------------------------------------------

section DoDelete

variable {m bound : Bindings} {stat stat₁ : Status} {r : Rec}

/-- Unlocking the free list leaves the lock of the chain. -/
theorem deleteLocks_undo (h : Nat)
    : relock (deleteLocks h) .idx FREE_OFF 1 none = chainLock h .wr := by
  refine relock_undo fun b inside => ?_
  rw [inRange_one.mp inside]
  simp

variable {shown : Bindings}

/-- The end of `_db_dodelete`: bypass the record and unlock the free list. -/
theorem wp_dodelete_unlink {prev v : Int} {Q : DB → Offsets → State → Prop}
    (w : Deleting p h l₁ l₂ o r.ptr.val shown bound [] stat s) (inv : Inv s)
    {r' : Rec} (found : s.2.im.recAt o = some r') (own : s.2.own o = .free)
    (at_ : prev = lastCell (chainSlot h) l₁) (value : v = r.ptr.val)
    (next : ∀ l' t, Knows p (chainLock h .wr) h (l₁ ++ l₂) shown bound [] none stat t
      → Inv t → Linked t.2.im.next (chainSlot h) (l₁ ++ l₂) → Q db l' t)
    : Wp p True
        ((dbWriteptr prev v).bind fun _ =>
          (unLock .idx FREE_OFF 1).bind fun rc =>
            if rc < 0 then errDump "_db_dodelete: un_lock error" else .ret db) Q l s := by
  subst at_ value
  have seen : Sees s p o :=
    inv.sees_free w.holdsFree.holds (inv.members.free.mpr ⟨⟨r', found⟩, own⟩)
  refine wp_bind inv (wp_writeptr (fun u hru hiu => ?_) fun u hru hiu q value => ?_)
  · exact ((w.stable inv hru).chainCell hiu).may
  · have w₁ := w.stable inv hru
    have cellSome := w₁.link.isSome (b := lastCell (chainSlot h) l₁) (by
      rcases lastCell_mem (chainSlot h) l₁ with same | early
      · simp [same]
      · simp [early])
    obtain ⟨x, hx⟩ := Option.isSome_iff_exists.mp cellSome
    have notO : lastCell (chainSlot h) l₁ ≠ o := by
      rcases lastCell_mem (chainSlot h) l₁ with same | early
      · rw [same]
        exact w₁.outside.2
      · intro eq
        exact w₁.outside.1 (by simp [← eq, early])
    rw [Function.update_of_ne notO] at hx
    obtain ⟨old, cell, -⟩ := Image.cell_of_next hx
    have foundU := hru.recAt seen found
    have ownU : u.2.own o = .free := (hru.recs seen).2.1.trans own
    obtain ⟨g, im, map, stats, allowed, k₂, link₂, free₂⟩ :=
      unlink_record (q := q) w₁ hiu foundU ownU (by omega) cell
    refine ⟨g, old, cell, im, allowed, map, stats, fun t hrt hit => ?_⟩
    refine wp_unlock fun t₁ hrt₁ hit₁ => ?_
    have after := hrt.trans hrt₁
    have heldFree : HoldsW (u.1.put g.im, g) p FREE_OFF := w₁.holdsFree
    have k₃ := k₂.stable allowed.1 after
    obtain ⟨-, free₃⟩ := after.linked_free allowed.1 heldFree free₂
    have hi₃ := hit₁.release_free free₃ (p := p)
      fun found own => absurd (k₃.only found own) List.not_mem_nil
    refine ⟨hi₃, ?_⟩
    rw [if_neg (by decide)]
    have k₄ := k₃.relock .idx FREE_OFF 1 none (by rw [relock_free_slot]; simp)
    rw [deleteLocks_undo] at k₄
    have link₄ := k₂.linked_stable allowed.1 after link₂
    intro x hrx hix
    exact next _ x (k₄.stable hi₃ hrx) hix (k₄.linked_stable hi₃ hrx link₄)

/-- The middle of `_db_dodelete`: blank the key and put the record on the free list. -/
theorem wp_dodelete_free {d : CString} {Q : DB → Offsets → State → Prop}
    (w : Deleting p h l₁ l₂ o r.ptr.val shown bound [o] stat s) (inv : Inv s)
    (unsettled : Unsettled stat) (mine : Mine p o r d s)
    (at_ : AtRecord db h (lastCell (chainSlot h) l₁) o r)
    (buffer : db.idxbuf = List.replicate r.key.length SPACE)
    (next : ∀ db' l' t, Knows p (chainLock h .wr) h (l₁ ++ l₂) shown bound [] none stat t
      → Inv t → Linked t.2.im.next (chainSlot h) (l₁ ++ l₂) → Good db'
      → db'.chainoff = chainSlot h → Q db' l' t)
    : Wp p True
        ((dbReadptr FREE_OFF).bind fun freeptr =>
          (dbWriteidx db db.idxbuf db.idxoff .set freeptr).bind fun db' =>
            (dbWriteptr FREE_OFF db'.idxoff).bind fun _ =>
              (dbWriteptr db'.ptroff db.ptrval).bind fun _ =>
                (unLock .idx FREE_OFF 1).bind fun rc =>
                  if rc < 0 then errDump "_db_dodelete: un_lock error" else .ret db') Q l s := by
  rw [buffer, at_.idxoff]
  have entry := fun {t : State} (hrt : Rely p s t) =>
    ((hrt.free w.holdsFree.holds).2).trans w.free.next_entry
  refine wp_bind inv (wp_readptr (fun t hrt _ => entry hrt) fun s₁ hr₁ hi₁ => ?_)
  have writable : Writable db (List.replicate r.key.length SPACE) r.datoff := by
    refine ⟨fun b member => ?_, at_.datoff, r.datoffMax, ?_, ?_⟩
    · rw [List.eq_of_mem_replicate member]
      decide
    · rw [at_.datlen]
      exact r.datlenPos
    · rw [at_.datlen]
      exact r.datlenMax
  have w₁ := w.stable inv hr₁
  have mine₁ := mine.stable hr₁
  refine wp_bind hi₁ (wp_writeidx_set writable (by rw [w₁.knows.stat_]; exact unsettled)
    fun r' key off len value u hru hiu => ?_)
  have shape : r.SameShape r' := ⟨by simp [key], off, len.trans at_.datlen⟩
  have blank : Blank r'.key := by
    rw [key]
    exact blank_replicate _
  have mine₂ := mine₁.stable hru
  refine ⟨.record mine₂.found mine₂.owns (by rw [shape.enc_length]), ?_⟩
  obtain ⟨g, im, map, stats, freeList, allowed, w₂, mine₃⟩ :=
    blank_key (w₁.stable hi₁ hru) hiu mine₂ shape blank
  refine ⟨g, r, mine₂.found, shape, im, allowed, Or.inl ⟨map, stats⟩, fun s₂ hr₂ hi₂ => ?_⟩
  refine wp_bind hi₂ (wp_writeptr (fun u hru hiu => ?_) fun x hrx hix q value' => ?_)
  · exact .free ((w₂.stable allowed.1 (hr₂.trans hru)).holdsFree)
  · have w₃ := w₂.stable allowed.1 (hr₂.trans hrx)
    have mine₄ := mine₃.stable (hr₂.trans hrx)
    obtain ⟨old, cell, oldVal⟩ := Image.cell_of_next w₃.free.next_entry
    have first : r'.ptr.val = old.val := by
      have kept : x.2.free = s.2.free := calc
        x.2.free = g.free := ((hr₂.trans hrx).free w₂.holdsFree.holds).1
        _ = u.2.free := freeList
        _ = s.2.free := ((hr₁.trans hru).free w.holdsFree.holds).1
      rw [oldVal, kept]
      exact_mod_cast value
    have here : q.val = o := by exact_mod_cast (show (q.val : Int) = o from value')
    obtain ⟨g', im', map', stats', allowed', w₄, found', own'⟩ :=
      push_free w₃ hix mine₄ blank here cell first
    refine ⟨g', old, cell, im', allowed', map', stats', fun s₃ hr₃ hi₃ => ?_⟩
    have seen : Sees (x.1.put g'.im, g') p o :=
      allowed'.1.sees_free w₄.holdsFree.holds
        (allowed'.1.members.free.mpr ⟨⟨r', found'⟩, own'⟩)
    refine wp_dodelete_unlink (w₄.stable allowed'.1 hr₃) hi₃ (hr₃.recAt seen found')
      ((hr₃.recs seen).2.1.trans own') at_.ptroff at_.ptrval fun l' t kt hit linkt => ?_
    exact next _ l' t kt hit linkt ⟨at_.good.nhash, at_.good.hashoff⟩ at_.chainoff

/-- `_db_dodelete` of the record that `_db_find_and_lock` found. The deletion may take effect
when the data is blanked.
-/
theorem wp_dodelete (bound : Bindings) (stat₁ : Status) {Q : DB → Offsets → State → Prop}
    (at_ : AtRecord db h (lastCell (chainSlot h) l₁) o r) (buffer : db.idxbuf = r.key)
    (hashed : hash r.key = h)
    (k : Knows p (chainLock h .wr) h (l₁ ++ o :: l₂) m m [] none stat s) (inv : Inv s)
    (unsettled : Unsettled stat) (unsettled₁ : Unsettled stat₁)
    (linked : Linked s.2.im.next (chainSlot h) (l₁ ++ o :: l₂))
    (found : s.2.im.recAt o = some r)
    (eff : ∀ u, Knows p (deleteLocks h) h (l₁ ++ o :: l₂) m m [] none stat u → Inv u
      → ∃ map' stat', Outcome p r.key bound stat₁ u map' stat'
          ∧ ∀ c g, g.map = map' → g.stat = stat' → Effect p c u.2 g)
    (next : ∀ db' l' t,
      Knows p (chainLock h .wr) h (l₁ ++ l₂) (m.set r.key none) bound [] none stat₁ t
      → Inv t → Linked t.2.im.next (chainSlot h) (l₁ ++ l₂) → Good db'
      → db'.chainoff = chainSlot h → Q db' l' t)
    : Wp p True (dbDodelete db) Q l s := by
  simp only [dbDodelete, Prog.bind_eq, Prog.pure_eq, errDump_bind]
  have fresh : ∀ {t : State}, t.1.locks p = chainLock h .wr
      → ∀ b, inRange FREE_OFF 1 b → t.1.locks p .idx b = none := by
    intro t locks b inside
    rw [locks, inRange_one.mp inside]
    simp
  refine wp_writewLock (fresh k.locks) fun s₁ hr₁ hi₁ granted => ?_
  refine ⟨s₁.2.stat, fun _ _ => rfl, Effect.none p _ _, ?_⟩
  rw [if_neg (by decide)]
  have k₁ := k.stable inv hr₁
  have free₁ := hi₁.granted_free (fresh k₁.locks _ (inRange_one.mpr rfl)) granted
  have hi₂ := inv_acquire s₁.2.stat hi₁ granted (fresh k₁.locks)
  have link₁ := k.linked_stable inv hr₁ linked
  have k₂ : Knows p (deleteLocks h) h (l₁ ++ o :: l₂) m m [] none stat
      (s₁.1.setLocks p .idx FREE_OFF 1 (some .wr), s₁.2) :=
    k₁.relock .idx FREE_OFF 1 (some .wr) (by rw [relock_free_slot]; simp)
  have held₂ : HoldsW (s₁.1.setLocks p .idx FREE_OFF 1 (some .wr), s₁.2) p FREE_OFF := by
    simp [HoldsW, Disk.setLocks, inRange_one]
  have found₁ := hr₁.recAt (k.sees inv (by simp)) found
  have size : List.replicate (db.datlen - 1) SPACE = (blanks (r.datlen - 1)).bytes := by
    rw [at_.datlen]
    rfl
  have length : (blanks (r.datlen - 1)).bytes.length + 1 = r.datlen := by
    have pos := r.datlenPos
    simp only [blanks, List.length_replicate]
    omega
  rw [size, at_.datoff]
  refine wp_bind hi₂ (wp_writedat_set (by rw [k₂.stat_]; exact unsettled)
    (fun _ u hru hiu => ?_) fun _ u hru hiu => ?_)
  · rw [length]
    exact .chunk (hru.recAt (k₂.sees hi₂ (by simp)) found₁)
      ((k₂.stable hi₂ hru).owns hiu (by simp))
  · have foundU := hru.recAt (k₂.sees hi₂ (by simp)) found₁
    have kU := k₂.stable hi₂ hru
    obtain ⟨d, chunk, dlen⟩ := hiu.regions.exists_ foundU
    obtain ⟨map', stat', outcome, effect⟩ := eff u kU hiu
    obtain ⟨-, freeU⟩ := hru.linked_free hi₂ held₂ free₁
    obtain ⟨g, im, map, stats, allowed, w, mine⟩ :=
      blank_data kU hiu (k₂.linked_stable hi₂ hru link₁) freeU foundU hashed chunk outcome
    have same : d.bytes.length = r.datlen - 1 := by omega
    rw [same] at im mine
    refine ⟨g, d, chunk, by simp [blanks, same], im, allowed, effect _ g map stats,
      fun t hrt hit => ?_⟩
    refine wp_dodelete_free (w.stable allowed.1 hrt) hit unsettled₁ (mine.stable hrt) ?_ ?_ next
    · exact ⟨⟨at_.good.nhash, at_.good.hashoff⟩, at_.chainoff, at_.ptroff, at_.idxoff,
        at_.ptrval, rfl, length⟩
    · show List.replicate db.idxbuf.length SPACE = _
      rw [buffer]

end DoDelete

end Minions.Db
