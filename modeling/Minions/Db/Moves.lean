import Minions.Db.Confinement

/-! The changes that the library makes, one system call at a time.
Each theorem describes one write of `db.c`, the records that change hands with it, and
shows that it keeps the invariant and disturbs no other process.
-/

namespace Minions.Db

open Minions.Data Minions.Logic

/-- A change of files and ghost state that keeps the invariant and what the others rely
on.
-/
def Allowed (p : Pid) (s : State) (g' : Ghost) : Prop :=
  Inv (s.1.put g'.im, g') ∧ ∀ q, q ≠ p → Rely q s (s.1.put g'.im, g')

/-- The pointers after one has been written. -/
theorem Image.next_setCell {im : Image} {a : Nat} {old : Ptr} (h : im.cell a = some old)
    (p : Ptr) (b : Nat)
    : (im.setCell a p).next b = if b = a then some p.val else im.next b := by
  by_cases same : b = a <;> simp [Image.next, Image.cell_setCell h, same]

/-- The pointers after a record has been written. -/
theorem Image.next_setRec {im : Image} {o : Nat} {r r' : Rec} (h : im.recAt o = some r)
    (shape : r.SameShape r') (x : Nat)
    : (im.setRec o r').next x = if x = o then some r'.ptr.val else im.next x := by
  by_cases same : x = o <;> simp [Image.next, Image.cell_setRec h shape, same]

/-- The pointers after a record has been appended. -/
theorem Image.next_addRec (im : Image) (r : Rec) (x : Nat)
    : (im.addRec r).next x = if x = im.idx.length then some r.ptr.val else im.next x := by
  by_cases same : x = im.idx.length <;> simp [Image.next, Image.cell_addRec, same]

/-- The pointer of a record. -/
theorem Image.next_rec {im : Image} {o : Nat} {r : Rec} (h : im.recAt o = some r)
    : im.next o = some r.ptr.val := by
  simp [Image.next, Image.cell_rec h]

/-- A chain pointer does not lie in a record. -/
theorem Image.recAt_chainSlot (im : Image) {h : Nat} (lt : h < NHASH_DEF)
    : im.recAt (chainSlot h) = none := by
  obtain ⟨p, slot⟩ := im.slotAt_isSome (i := h + 1) (by omega)
  rw [chainSlot_eq]
  exact Image.recAt_slot slot

/-- No record stands at the free list's pointer. -/
theorem Image.recAt_free (im : Image) : im.recAt FREE_OFF = none := by
  obtain ⟨p, slot⟩ := im.slotAt_isSome (i := 0) (by decide)
  exact Image.recAt_slot (by simpa [FREE_OFF] using slot)

/-- A pointer that is read stands in the file. -/
theorem Image.cell_of_next {im : Image} {a v : Nat} (h : im.next a = some v)
    : ∃ q : Ptr, im.cell a = some q ∧ q.val = v := by
  simpa [Image.next] using h

/-- The records stand where they stood before a pointer was written. -/
theorem Image.alive_setCell {im : Image} {a : Nat} {old : Ptr} (h : im.cell a = some old)
    (p : Ptr) (x : Nat)
    : (∃ r, (im.setCell a p).recAt x = some r) ↔ ∃ r, im.recAt x = some r := by
  rw [Image.recAt_setCell h]
  split <;> cases im.recAt x <;> simp

/-- The records stand where they stood before one was written. -/
theorem Image.alive_setRec {im : Image} {o : Nat} {r r' : Rec} (h : im.recAt o = some r)
    (shape : r.SameShape r') (x : Nat)
    : (∃ r, (im.setRec o r').recAt x = some r) ↔ ∃ r, im.recAt x = some r := by
  rw [Image.recAt_setRec h shape]
  by_cases same : x = o
  · subst same
    simp [h]
  · simp [same]

/-- A new pointer leaves the regions of the data file alone. -/
theorem Regions.setCell {g g' : Ghost} (ok : Regions g) {a : Nat} {old q : Ptr}
    (h : g.im.cell a = some old) (im : g'.im = g.im.setCell a q)
    (orphans : g'.orphan = g.orphan)
    : Regions g' := by
  refine ok.congr ?_ ?_ (fun c => by rw [im, Image.chunkAt_setCell]) orphans
  · intro o r' found
    rw [im, Image.recAt_setCell h] at found
    by_cases same : o = a
    · rw [if_pos same] at found
      obtain ⟨r, old, rfl⟩ := Option.map_eq_some_iff.mp found
      exact ⟨r, old, r.sameShape_setPtr q⟩
    · rw [if_neg same] at found
      exact ⟨r', found, .refl r'⟩
  · intro o r found
    rw [im, Image.recAt_setCell h]
    by_cases same : o = a
    · subst same
      exact ⟨r.setPtr q, by simp [found], r.sameShape_setPtr q⟩
    · exact ⟨r, by simp [same, found], .refl r⟩

/-- A record of the same shape leaves the regions of the data file alone. -/
theorem Regions.setRec {g g' : Ghost} (ok : Regions g) {o : Nat} {r r' : Rec}
    (h : g.im.recAt o = some r) (shape : r.SameShape r') (im : g'.im = g.im.setRec o r')
    (orphans : g'.orphan = g.orphan)
    : Regions g' := by
  refine ok.congr ?_ ?_ (fun c => by rw [im, Image.chunkAt_setRec]) orphans
  · intro x y found
    rw [im, Image.recAt_setRec h shape] at found
    by_cases same : x = o
    · rw [if_pos same, Option.some.injEq] at found
      exact ⟨r, by rw [same]; exact h, found ▸ shape⟩
    · rw [if_neg same] at found
      exact ⟨y, found, .refl y⟩
  · intro x y found
    rw [im, Image.recAt_setRec h shape]
    by_cases same : x = o
    · subst same
      obtain rfl : r = y := Option.some.inj (h.symm.trans found)
      exact ⟨r', by simp, shape⟩
    · exact ⟨y, by simp [same, found], .refl y⟩

/-- New data of the same length leaves the regions of the data file alone. -/
theorem Regions.setChunk {g g' : Ghost} (ok : Regions g) {c : Nat} {d d' : CString}
    (h : g.im.chunkAt c = some d) (same : d'.bytes.length = d.bytes.length)
    (im : g'.im = g.im.setChunk c d') (orphans : g'.orphan = g.orphan)
    : Regions g' := by
  refine ok.congr ?_ ?_ ?_ orphans
  · intro o r found
    rw [im, Image.recAt_setChunk] at found
    exact ⟨r, found, .refl r⟩
  · intro o r found
    exact ⟨r, by rw [im, Image.recAt_setChunk]; exact found, .refl r⟩
  · intro x
    rw [im, Image.chunkAt_setChunk h same]
    by_cases here : x = c
    · subst here
      simp [h, same]
    · simp [here]

/-- A record does not stand at the end of the file. -/
theorem Image.recAt_ne_end {im : Image} {x : Nat} {y : Rec} (h : im.recAt x = some y)
    : x ≠ im.idx.length := by
  rintro rfl
  simp [im.recAt_idx_end] at h

/-- The records stay when one is appended. -/
theorem Image.recAt_addRec_old {im : Image} {r : Rec} {x : Nat} {y : Rec}
    (h : im.recAt x = some y)
    : (im.addRec r).recAt x = some y := by
  rw [Image.recAt_addRec, if_neg (Image.recAt_ne_end h), h]

/-- After an append a record is the new one or an old one. -/
theorem Image.recAt_addRec_cases {im : Image} {r : Rec} {x : Nat} {y : Rec}
    (h : (im.addRec r).recAt x = some y)
    : x = im.idx.length ∧ y = r ∨ im.recAt x = some y := by
  rw [Image.recAt_addRec] at h
  by_cases here : x = im.idx.length
  · rw [if_pos here, Option.some.injEq] at h
    exact .inl ⟨here, h.symm⟩
  · rw [if_neg here] at h
    exact .inr h

/-- The data stays when some is appended. -/
theorem Image.chunkAt_addChunk_old {im : Image} {d d' : CString} {c : Nat}
    (h : im.chunkAt c = some d')
    : (im.addChunk d).chunkAt c = some d' := by
  have apart : c ≠ im.dat.length := by
    rintro rfl
    simp [im.chunkAt_dat_end] at h
  rw [Image.chunkAt_addChunk, if_neg apart, h]

/-- Appended data belongs to the process that has appended it. -/
theorem Regions.addChunk {g g' : Ghost} (ok : Regions g) {p : Pid} {d : CString}
    (im : g'.im = g.im.addChunk d) (none_ : g.orphan p = none)
    (orphans : g'.orphan = Function.update g.orphan p (some g.im.dat.length))
    : Regions g' := by
  refine ⟨?_, ?_, ?_, ?_⟩
  · intro x y at_
    rw [im, Image.recAt_addChunk] at at_
    obtain ⟨d', chunk, length⟩ := ok.exists_ at_
    exact ⟨d', im ▸ Image.chunkAt_addChunk_old chunk, length⟩
  · intro x x' y y' at_ at'
    simp only [im, Image.recAt_addChunk] at at_ at'
    exact ok.unique at_ at'
  · intro c d' at_
    simp only [im, Image.chunkAt_addChunk] at at_
    by_cases new : c = g.im.dat.length
    · exact Or.inr ⟨p, by simp [orphans, new]⟩
    · rw [if_neg new] at at_
      simp only [im, Image.recAt_addChunk]
      refine (ok.named at_).imp_right fun ⟨q, orphan⟩ => ⟨q, ?_⟩
      have ne : q ≠ p := by
        rintro rfl
        simp [none_] at orphan
      simpa [orphans, ne] using orphan
  · intro q c orphan
    simp only [im, Image.recAt_addChunk]
    rw [orphans] at orphan
    by_cases mine : q = p
    · subst mine
      obtain rfl : g.im.dat.length = c := by simpa using orphan
      refine ⟨⟨d, by simp [Image.chunkAt_addChunk]⟩, ?_, fun {q'} orphan' => ?_⟩
      · intro x y at_ eq
        obtain ⟨d', chunk, -⟩ := ok.exists_ at_
        simp [eq, g.im.chunkAt_dat_end] at chunk
      · by_contra ne
        simp only [orphans, Function.update_of_ne ne] at orphan'
        obtain ⟨⟨d', chunk⟩, -⟩ := ok.orphan orphan'
        simp [g.im.chunkAt_dat_end] at chunk
    · simp only [Function.update_of_ne mine] at orphan
      obtain ⟨⟨d', chunk⟩, apart, only⟩ := ok.orphan orphan
      refine ⟨⟨d', Image.chunkAt_addChunk_old chunk⟩, apart, fun {q'} orphan' => ?_⟩
      by_cases mine' : q' = p
      · subst mine'
        obtain rfl : g.im.dat.length = c := by simpa [orphans] using orphan'
        simp [g.im.chunkAt_dat_end] at chunk
      · simp only [orphans, Function.update_of_ne mine'] at orphan'
        exact only orphan'

/-- The new record takes the region that was an orphan. -/
theorem Regions.addRec {g g' : Ghost} (ok : Regions g) {p : Pid} {r : Rec} {d : CString}
    (im : g'.im = g.im.addRec r) (orphan : g.orphan p = some r.datoff)
    (chunk : g.im.chunkAt r.datoff = some d) (length : d.bytes.length + 1 = r.datlen)
    (orphans : g'.orphan = Function.update g.orphan p none)
    : Regions g' := by
  obtain ⟨-, unnamed, only⟩ := ok.orphan orphan
  refine ⟨?_, ?_, ?_, ?_⟩
  · intro x y at_
    rw [im] at at_ ⊢
    rcases Image.recAt_addRec_cases at_ with ⟨rfl, rfl⟩ | present
    · exact ⟨d, chunk, length⟩
    · exact ok.exists_ present
  · intro x x' y y' at_ at' same
    rw [im] at at_ at'
    rcases Image.recAt_addRec_cases at_ with ⟨rfl, rfl⟩ | present <;>
      rcases Image.recAt_addRec_cases at' with ⟨rfl, rfl⟩ | present'
    · rfl
    · exact absurd same.symm (unnamed present')
    · exact absurd same (unnamed present)
    · exact ok.unique present present' same
  · intro c d' at_
    rw [im] at at_ ⊢
    rcases ok.named at_ with ⟨x, y, present, off⟩ | ⟨q, mine⟩
    · exact Or.inl ⟨x, y, Image.recAt_addRec_old present, off⟩
    · by_cases same : q = p
      · subst same
        obtain rfl : r.datoff = c := Option.some.inj (orphan.symm.trans mine)
        exact Or.inl ⟨g.im.idx.length, r, by simp [Image.recAt_addRec], rfl⟩
      · exact Or.inr ⟨q, by simpa [orphans, same] using mine⟩
  · intro q c mine
    rw [im]
    have others : ∀ {q' c'}, g'.orphan q' = some c' → q' ≠ p ∧ g.orphan q' = some c' := by
      intro q' c' mine'
      have ne : q' ≠ p := by
        rintro rfl
        simp [orphans] at mine'
      exact ⟨ne, by simpa [orphans, ne] using mine'⟩
    obtain ⟨ne, mine⟩ := others mine
    obtain ⟨exists_, apart, only'⟩ := ok.orphan mine
    refine ⟨exists_, ?_, fun {q'} mine' => only' (others mine').2⟩
    intro x y at_
    rcases Image.recAt_addRec_cases at_ with ⟨rfl, rfl⟩ | present
    · intro same
      exact ne (only (same ▸ mine))
    · exact apart present

-----------------------------------------------------------------------------------------
-- Pointer writes
-----------------------------------------------------------------------------------------

section Moves

variable {p : Pid} {s : State}

/-- A process that owns a record is the only process it can belong to. -/
theorem Owns.proc {o : Nat} {q : Pid} (h : Owns s p o) (own : s.2.own o = .proc q)
    : q = p := by
  simpa [Owns, own] using h

/-- `_db_writeptr`: overwrite the cell at `a`, while the record at `o` passes to `dest`. The
cell and the record belong to `p`, and only lists that `p` has locked change.
-/
theorem allowed_setCell {a o : Nat} {old v : Ptr} {r : Rec} (dest : Owner)
    (chain' : Nat → List Nat) (free' : List Nat) (inv : Inv s)
    (cell : s.2.im.cell a = some old) (found : s.2.im.recAt o = some r)
    (mineCell : ∀ r, s.2.im.recAt a = some r → Owns s p a) (mine : Owns s p o)
    (chains : ∀ h, h < NHASH_DEF → HoldsW s p (chainSlot h)
      ∨ chain' h = s.2.chain h ∧ chainSlot h ≠ a)
    (frees : HoldsW s p FREE_OFF ∨ free' = s.2.free ∧ FREE_OFF ≠ a)
    (destMine : ∀ q, dest = .proc q → q = p)
    (chainMem : ∀ h x, x ∈ chain' h ↔ if x = o then dest = .chain h else x ∈ s.2.chain h)
    (freeMem : ∀ x, x ∈ free' ↔ if x = o then dest = .free else x ∈ s.2.free)
    (destOk : OwnerOk s.1.locks s.2.map r.key (s.2.im.chunkAt r.datoff) dest)
    : Allowed p s
        { s.2 with
          im := s.2.im.setCell a v
          own := Function.update s.2.own o dest
          chain := chain'
          free := free' } := by
  -- Keys, regions and shapes of all records are those of before.
  have after : ∀ {x y}, s.2.im.recAt x = some y
      → ∃ y', (s.2.im.setCell a v).recAt x = some y' ∧ y.SameShape y' ∧ y'.key = y.key := by
    intro x y at_
    rw [Image.recAt_setCell cell]
    by_cases same : x = a
    · exact ⟨y.setPtr v, by simp only [if_pos same, at_, Option.map_some], y.sameShape_setPtr v, rfl⟩
    · exact ⟨y, by simp only [if_neg same, at_], .refl y, rfl⟩
  have before : ∀ {x y'}, (s.2.im.setCell a v).recAt x = some y'
      → ∃ y, s.2.im.recAt x = some y ∧ y.SameShape y' ∧ y'.key = y.key := by
    intro x y' at_
    obtain ⟨y, old⟩ := (Image.alive_setCell cell v x).mp ⟨y', at_⟩
    obtain ⟨y'', at'', shape, key⟩ := after old
    obtain rfl : y' = y'' := Option.some.inj (at_.symm.trans at'')
    exact ⟨y, old, shape, key⟩
  have confined : Confined p s
      { s.2 with
        im := s.2.im.setCell a v
        own := Function.update s.2.own o dest
        chain := chain'
        free := free' } (fun x => x = o ∨ x = a) := by
    refine ⟨?_, ?_, ?_, ?_, ?_, ?_, ?_, ?_, ?_, ?_⟩
    · rintro x y (rfl | rfl) at_
      · exact mine
      · exact mineCell y at_
    · intro x y outside at_
      simp only [not_or] at outside
      refine ⟨?_, Function.update_of_ne outside.1 _ _, Image.chunkAt_setCell _ _ _ _⟩
      simp only [Image.recAt_setCell cell, if_neg outside.2, at_]
    · intro x y inside at_
      obtain ⟨y', at', shape, key⟩ := after at_
      refine ⟨y', at', shape, fun _ => Or.inl key, fun q own => ?_⟩
      by_cases same : x = o
      · exact destMine q (by simpa [same] using own)
      · simp only [Function.update_of_ne same] at own
        obtain rfl : x = a := inside.resolve_left same
        exact (mineCell y at_).proc own
    · intro x y absent at_
      obtain ⟨y', present⟩ := (Image.alive_setCell cell v x).mp ⟨y, at_⟩
      simp [absent] at present
    · exact Or.inl (Image.idx_length_setCell cell v)
    · exact Or.inl (by simp only [Image.dat_setCell])
    · intro h lt
      refine (chains h lt).imp_right fun ⟨list, apart⟩ => ⟨list, ?_, fun _ => rfl⟩
      simp only [Image.next_setCell cell, if_neg apart]
    · refine frees.imp_right fun ⟨list, apart⟩ => ⟨list, ?_⟩
      simp only [Image.next_setCell cell, if_neg apart]
    · exact fun q _ => ⟨rfl, fun _ => Image.chunkAt_setCell _ _ _ _⟩
    · exact fun q _ => rfl
  refine ⟨confined.inv inv ?_ (fun _ _ _ => rfl) ?_ ?_ ?_, fun q ne => confined.rely inv ne⟩
  · simp only [Image.idx_length_setCell cell]
    exact inv.idxMax
  · intro x y' inside at_
    obtain ⟨y, old, ⟨-, off, -⟩, key⟩ := before at_
    by_cases same : x = o
    · subst same
      obtain rfl : r = y := Option.some.inj (found.symm.trans old)
      simpa only [RecOk, Disk.put_locks, Function.update_self, key, off,
        Image.chunkAt_setCell] using destOk
    · simpa only [RecOk, Disk.put_locks, Function.update_of_ne same, key, off,
        Image.chunkAt_setCell] using inv.recOk old
  · refine inv.members.move ?_ (fun x _ => Image.alive_setCell cell v x) rfl chainMem freeMem
    obtain ⟨y', at', -⟩ := after found
    exact ⟨y', at'⟩
  · exact inv.regions.setCell cell rfl rfl

-----------------------------------------------------------------------------------------
-- Record and data writes
-----------------------------------------------------------------------------------------

/-- `_db_writeidx` over the record at `o`, which belongs to `p`. The map may change at keys
whose chain `p` has locked, if no other record shows such a key.
-/
theorem allowed_setRec {o : Nat} {r r' : Rec} (map' : Bindings) (stat' : Pid → Status)
    (inv : Inv s) (found : s.2.im.recAt o = some r) (shape : r.SameShape r')
    (mine : s.2.own o = .proc p)
    (scan : ¬ Blank r.key → r'.key = r.key ∨ HoldsW s p FREE_OFF)
    (maps : ∀ key, map' key = s.2.map key ∨ HoldsW s p (chainSlot (hash key)))
    (others : ∀ {x y}, x ≠ o → s.2.im.recAt x = some y → ¬ Blank y.key
      → map' y.key = s.2.map y.key)
    (stats : ∀ q, q ≠ p → stat' q = s.2.stat q)
    (ok : OwnerOk s.1.locks map' r'.key (s.2.im.chunkAt r'.datoff) (.proc p))
    : Allowed p s
        { s.2 with im := s.2.im.setRec o r', map := map', stat := stat' } := by
  have apart : ∀ {x}, s.2.im.recAt x = none → x ≠ o := by
    rintro x absent rfl
    simp [found] at absent
  have confined : Confined p s
      { s.2 with im := s.2.im.setRec o r', map := map', stat := stat' } (fun x => x = o) := by
    refine ⟨?_, ?_, ?_, ?_, ?_, ?_, ?_, ?_, ?_, stats⟩
    · rintro x y rfl -
      simp [Owns, mine]
    · intro x y outside at_
      exact ⟨by simp only [Image.recAt_setRec found shape, if_neg outside, at_], rfl, rfl⟩
    · rintro x y rfl at_
      obtain rfl : r = y := Option.some.inj (found.symm.trans at_)
      refine ⟨r', by simp only [Image.recAt_setRec found shape, if_true], shape, scan, ?_⟩
      intro q own
      exact (Owner.proc.inj (mine.symm.trans own)).symm
    · intro x y absent at_
      simp only [Image.recAt_setRec found shape, if_neg (apart absent), absent] at at_
      cases at_
    · exact Or.inl (Image.idx_length_setRec found shape)
    · exact Or.inl rfl
    · intro h lt
      by_cases locked : HoldsW s p (chainSlot h)
      · exact Or.inl locked
      · refine Or.inr ⟨rfl, ?_, fun {key} eq => ?_⟩
        · simp only [Image.next_setRec found shape, if_neg (apart (s.2.im.recAt_chainSlot lt))]
        · exact (maps key).resolve_right (eq ▸ locked)
    · refine Or.inr ⟨rfl, ?_⟩
      simp only [Image.next_setRec found shape, if_neg (apart s.2.im.recAt_free)]
    · exact fun q _ => ⟨rfl, fun _ => rfl⟩
  refine ⟨confined.inv inv ?_ others ?_ ?_ ?_, fun q ne => confined.rely inv ne⟩
  · simp only [Image.idx_length_setRec found shape]
    exact inv.idxMax
  · intro x y inside at_
    obtain rfl : x = o := by
      rcases inside with same | absent
      · exact same
      · simp only [Image.recAt_setRec found shape, if_neg (apart absent), absent] at at_
        cases at_
    simp only [Image.recAt_setRec found shape, if_true, Option.some.injEq] at at_
    subst at_
    simpa only [RecOk, Disk.put_locks, Image.chunkAt_setRec, mine] using ok
  · exact inv.members.congr (Image.alive_setRec found shape) rfl rfl rfl
  · exact inv.regions.setRec found shape rfl rfl

/-- `_db_writedat` over the region of the record at `o`, which belongs to `p` and passes to
`dest`. The map may change at keys whose chain `p` has locked, if no other record shows such
a key.
-/
theorem allowed_setChunk {o : Nat} {r : Rec} {d d' : CString} (dest : Owner)
    (chain' : Nat → List Nat) (map' : Bindings) (stat' : Pid → Status)
    (inv : Inv s) (found : s.2.im.recAt o = some r)
    (chunk : s.2.im.chunkAt r.datoff = some d) (same : d'.bytes.length = d.bytes.length)
    (mine : Owns s p o) (destMine : ∀ q, dest = .proc q → q = p)
    (chains : ∀ h, HoldsW s p (chainSlot h) ∨ chain' h = s.2.chain h)
    (chainMem : ∀ h x, x ∈ chain' h ↔ if x = o then dest = .chain h else x ∈ s.2.chain h)
    (freeMem : ∀ x, x ∈ s.2.free ↔ if x = o then dest = .free else x ∈ s.2.free)
    (maps : ∀ key, map' key = s.2.map key ∨ HoldsW s p (chainSlot (hash key)))
    (others : ∀ {x y}, x ≠ o → s.2.im.recAt x = some y → ¬ Blank y.key
      → map' y.key = s.2.map y.key)
    (stats : ∀ q, q ≠ p → stat' q = s.2.stat q)
    (ok : OwnerOk s.1.locks map' r.key (some d') dest)
    : Allowed p s
        { s.2 with
          im := s.2.im.setChunk r.datoff d'
          own := Function.update s.2.own o dest
          chain := chain'
          map := map'
          stat := stat' } := by
  have confined : Confined p s
      { s.2 with
        im := s.2.im.setChunk r.datoff d'
        own := Function.update s.2.own o dest
        chain := chain'
        map := map'
        stat := stat' } (fun x => x = o) := by
    refine ⟨?_, ?_, ?_, ?_, ?_, ?_, ?_, ?_, ?_, stats⟩
    · rintro x y rfl -
      exact mine
    · intro x y outside at_
      refine ⟨at_, Function.update_of_ne outside _ _, ?_⟩
      have apart : y.datoff ≠ r.datoff := fun eq => outside (inv.regions.unique at_ found eq)
      simp only [Image.chunkAt_setChunk chunk same, if_neg apart]
    · rintro x y rfl at_
      refine ⟨y, at_, .refl y, fun _ => Or.inl rfl, fun q own => destMine q ?_⟩
      simpa using own
    · intro x y absent at_
      simp only [Image.recAt_setChunk, absent] at at_
      cases at_
    · exact Or.inl rfl
    · exact Or.inl (Image.dat_length_setChunk chunk same)
    · intro h lt
      by_cases locked : HoldsW s p (chainSlot h)
      · exact Or.inl locked
      · exact Or.inr ⟨(chains h).resolve_left locked, rfl, fun {key} eq =>
          (maps key).resolve_right (eq ▸ locked)⟩
    · exact Or.inr ⟨rfl, rfl⟩
    · intro q _
      refine ⟨rfl, fun {c} orphan => ?_⟩
      have apart : c ≠ r.datoff := fun eq => (inv.regions.orphan orphan).2.1 found eq.symm
      simp only [Image.chunkAt_setChunk chunk same, if_neg apart]
  refine ⟨confined.inv inv ?_ others ?_ ?_ ?_, fun q ne => confined.rely inv ne⟩
  · exact inv.idxMax
  · intro x y inside at_
    obtain rfl : x = o := by
      rcases inside with same | absent
      · exact same
      · simp only [Image.recAt_setChunk, absent] at at_
        cases at_
    obtain rfl : r = y := Option.some.inj (found.symm.trans at_)
    simpa only [RecOk, Disk.put_locks, Function.update_self,
      Image.chunkAt_setChunk chunk same, if_true] using ok
  · exact inv.members.move ⟨r, found⟩ (fun _ _ => Iff.rfl) rfl chainMem freeMem
  · exact inv.regions.setChunk chunk same rfl rfl

-----------------------------------------------------------------------------------------
-- Appends
-----------------------------------------------------------------------------------------

/-- `_db_writedat` at the end of the data file: the new region is an orphan of `p`. -/
theorem allowed_addChunk {d : CString} (inv : Inv s)
    (held : s.1.locks p .dat 0 = some .wr) (none_ : s.2.orphan p = none)
    : Allowed p s
        { s.2 with
          im := s.2.im.addChunk d
          orphan := Function.update s.2.orphan p (some s.2.im.dat.length) } := by
  have confined : Confined p s
      { s.2 with
        im := s.2.im.addChunk d
        orphan := Function.update s.2.orphan p (some s.2.im.dat.length) }
      (fun _ => False) := by
    refine ⟨fun no => no.elim, ?_, fun no => no.elim, ?_, Or.inl rfl, Or.inr held,
      fun h _ => Or.inr ⟨rfl, rfl, fun _ => rfl⟩, Or.inr ⟨rfl, rfl⟩, ?_, fun q _ => rfl⟩
    · intro x y _ at_
      obtain ⟨d', chunk, -⟩ := inv.regions.exists_ at_
      exact ⟨at_, rfl, (Image.chunkAt_addChunk_old chunk).trans chunk.symm⟩
    · intro x y absent at_
      simp only [Image.recAt_addChunk, absent] at at_
      cases at_
    · intro q ne
      refine ⟨Function.update_of_ne ne _ _, fun {c} orphan => ?_⟩
      obtain ⟨⟨d', chunk⟩, -⟩ := inv.regions.orphan orphan
      exact (Image.chunkAt_addChunk_old chunk).trans chunk.symm
  refine ⟨confined.inv inv ?_ (fun _ _ _ => rfl) ?_ ?_ ?_, fun q ne => confined.rely inv ne⟩
  · exact inv.idxMax
  · rintro x y (no | absent) at_
    · exact no.elim
    · simp only [Image.recAt_addChunk, absent] at at_
      cases at_
  · exact inv.members.congr (fun _ => Iff.rfl) rfl rfl rfl
  · exact inv.regions.addChunk rfl none_ rfl

/-- `_db_writeidx` at the end of the index file: the new record names the orphan of `p` and
belongs to `p`.
-/
theorem allowed_addRec {r : Rec} {d : CString} (map' : Bindings) (stat' : Pid → Status)
    (inv : Inv s) (held : HoldsW s p RECS_OFF)
    (room : s.2.im.idx.length + r.enc.length ≤ OFF_MAX) (orphan : s.2.orphan p = some r.datoff)
    (chunk : s.2.im.chunkAt r.datoff = some d) (length : d.bytes.length + 1 = r.datlen)
    (maps : ∀ key, map' key = s.2.map key ∨ HoldsW s p (chainSlot (hash key)))
    (others : ∀ {x y}, s.2.im.recAt x = some y → ¬ Blank y.key
      → map' y.key = s.2.map y.key)
    (stats : ∀ q, q ≠ p → stat' q = s.2.stat q)
    (ok : OwnerOk s.1.locks map' r.key (some d) (.proc p))
    : Allowed p s
        { s.2 with
          im := s.2.im.addRec r
          own := Function.update s.2.own s.2.im.idx.length (.proc p)
          orphan := Function.update s.2.orphan p none
          map := map'
          stat := stat' } := by
  have cells : ∀ {a}, a < RECS_OFF → (s.2.im.addRec r).next a = s.2.im.next a := by
    intro a low
    have high : RECS_OFF ≤ s.2.im.idx.length := by
      simp only [Image.idx, List.length_append, Image.header_length]
      omega
    rw [Image.next_addRec, if_neg (by omega)]
  have confined : Confined p s
      { s.2 with
        im := s.2.im.addRec r
        own := Function.update s.2.own s.2.im.idx.length (.proc p)
        orphan := Function.update s.2.orphan p none
        map := map'
        stat := stat' } (fun _ => False) := by
    refine ⟨fun no => no.elim, ?_, fun no => no.elim, ?_, Or.inr held, Or.inl rfl, ?_, ?_, ?_,
      stats⟩
    · exact fun _ at_ => ⟨Image.recAt_addRec_old at_,
        Function.update_of_ne (Image.recAt_ne_end at_) _ _, rfl⟩
    · intro x y absent at_
      rcases Image.recAt_addRec_cases at_ with ⟨rfl, -⟩ | present
      · simp
      · simp [absent] at present
    · intro h lt
      by_cases locked : HoldsW s p (chainSlot h)
      · exact Or.inl locked
      · refine Or.inr ⟨rfl, cells ?_, fun {key} eq => (maps key).resolve_right (eq ▸ locked)⟩
        simp only [chainSlot, RECS_OFF, HASH_OFF, PTR_SZ, NHASH_DEF] at lt ⊢
        omega
    · exact Or.inr ⟨rfl, cells (by decide)⟩
    · exact fun q ne => ⟨Function.update_of_ne ne _ _, fun _ => rfl⟩
  refine ⟨confined.inv inv ?_ (fun _ => others) ?_ ?_ ?_,
    fun q ne => confined.rely inv ne⟩
  · rw [Image.idx_length_addRec]
    exact room
  · rintro x y (no | absent) at_
    · exact no.elim
    · rcases Image.recAt_addRec_cases at_ with ⟨rfl, rfl⟩ | present
      · simpa only [RecOk, Disk.put_locks, Function.update_self, Image.chunkAt_addRec, chunk]
          using ok
      · simp [absent] at present
  · refine inv.members.move ⟨r, by simp [Image.recAt_addRec]⟩ ?_ rfl ?_ ?_
    · intro x ne
      constructor
      · rintro ⟨y, at_⟩
        exact ⟨y, (Image.recAt_addRec_cases at_).resolve_left fun both => ne both.1⟩
      · rintro ⟨y, at_⟩
        exact ⟨y, Image.recAt_addRec_old at_⟩
    · intro h x
      by_cases same : x = s.2.im.idx.length
      · have absent : x ∉ s.2.chain h := by
          intro member
          obtain ⟨⟨y, at_⟩, -⟩ := inv.members.chain.mp member
          exact Image.recAt_ne_end at_ same
        simp only [if_pos same, reduceCtorEq, iff_false]
        exact absent
      · simp only [if_neg same]
    · intro x
      by_cases same : x = s.2.im.idx.length
      · have absent : x ∉ s.2.free := by
          intro member
          obtain ⟨⟨y, at_⟩, -⟩ := inv.members.free.mp member
          exact Image.recAt_ne_end at_ same
        simp only [if_pos same, reduceCtorEq, iff_false]
        exact absent
      · simp only [if_neg same]
  · exact inv.regions.addRec rfl orphan chunk length rfl

end Moves

end Minions.Db
