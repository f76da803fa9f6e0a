import Minions.Db.Sessions
import Minions.Db.Writing

/-! How `db_store` ends, and what it has left in the files where it aborts.
The data is written before the index record is checked, and the index record before the chain
pointer is checked; a replacement by data of another length has deleted the old record first.
Data that is too long for one write passes the check of its length where an `int` holds only the
low bits of it.
-/

namespace Minions.Db

open Minions.Data Minions.Logic

variable {p : Pid} {α β : Type} {l l' : Offsets} {d d' : Disk} {im im' : Image} {db : DB}
  {chain : Nat → List Nat} {free : List Nat} {m : Bindings} {key data : CString}

-----------------------------------------------------------------------------------------
-- Programs and the files they leave where they abort
-----------------------------------------------------------------------------------------

/-- The program ends, and where it aborts the files satisfy `Q`. -/
def Stops (p : Pid) (prog : M α) (l : Offsets) (d : Disk) (Q : Disk → Prop) : Prop :=
  ∃ out l' d', Yields p prog l d out l' d'
    ∧ ((∃ a, out = .done a) ∨ ∃ e, out = .stopped e ∧ Q d')

section Stops

variable {Q : Disk → Prop}

/-- A program that aborts. -/
theorem Yields.stops {prog : M α} {e : Fatal} (ends : Yields p prog l d (.stopped e) l' d')
    (post : Q d')
    : Stops p prog l d Q :=
  ⟨_, _, _, ends, .inr ⟨e, rfl, post⟩⟩

/-- A program that aborts and leaves the files of an image. -/
theorem Writes.stops {prog : M α} {e : Fatal} (writes : Writes p prog l d (.stopped e) im)
    (post : ∀ {d'}, Placed d' im → Q d')
    : Stops p prog l d Q := by
  obtain ⟨l', d', ends, placed⟩ := writes
  exact ends.stops (post placed)

/-- A part that ends with a value goes on with the rest. -/
theorem Yields.then_stops {prog : M α} {f : α → M β} {a : α}
    (first : Yields p prog l d (.done a) l' d') (rest : Stops p (f a) l' d' Q)
    : Stops p (prog.bind f) l d Q := by
  obtain ⟨out, l'', d'', rest, post⟩ := rest
  exact ⟨out, l'', d'', first.bind rest, post⟩

/-- A part that leaves the files of an image, and a rest that may abort. -/
theorem Leaves.then_stops {prog : M α} {f : α → M β}
    (first : Leaves p prog l d fun out im =>
      ∃ a, out = .done a ∧ ∀ {l' d'}, Placed d' im → Stops p (f a) l' d' Q)
    : Stops p (prog.bind f) l d Q := by
  obtain ⟨out, im, ⟨l', d', ends, placed⟩, a, rfl, rest⟩ := first
  exact ends.then_stops (rest placed)

/-- A part that may abort, and a rest that may abort from wherever the part ends. -/
theorem Stops.bind {prog : M α} {f : α → M β} (first : Stops p prog l d Q)
    (rest : ∀ a l' d', Stops p (f a) l' d' Q)
    : Stops p (prog.bind f) l d Q := by
  obtain ⟨out, l', d', ends, ⟨a, rfl⟩ | ⟨e, rfl, post⟩⟩ := first
  · exact ends.then_stops (rest a l' d')
  · exact Yields.stops ends.bind_stopped post

end Stops

-----------------------------------------------------------------------------------------
-- Aborted stores
-----------------------------------------------------------------------------------------

/-- What an append that aborts leaves: nothing new, data that no record names, or a record that is
on no list.
-/
inductive Torn (im : Image) (key data : CString) : Image → Prop
  | refused (long : ¬ Storable data) : Torn im key data im
  | unfit (unfit : ¬ Fits key data im.dat.length) : Torn im key data (im.addChunk data)
  | unlinked {r : Rec} (storable : Storable data) (fits : Fits key data im.dat.length)
    (full : (im.idx.length : Int) > PTR_MAX) (sameKey : r.key = key.bytes)
    (datoff : r.datoff = im.dat.length) (datlen : r.datlen = data.bytes.length + 1)
    : Torn im key data ((im.addChunk data).addRec r)

/-- The files after the record of a key with a separator has been appended and not linked. -/
structure Separated (im : Image) (key data : CString) (d : Disk) : Prop where
  sep : SEP ∈ key.bytes
  storable : Storable data
  fits : Fits key data im.dat.length
  full : (im.idx.length : Int) > PTR_MAX
  idx : ∃ q : Ptr, d.idx.data
    = im.idx ++ recordBytes q.val (idxText key.bytes im.dat.length (data.bytes.length + 1))
  dat : d.dat.data = (im.addChunk data).dat

/-- What a store that aborts leaves of files that stand for the map `m`. -/
inductive Aborted (im : Image) (chain : Nat → List Nat) (m : Bindings) (key data : CString)
    (d : Disk)
    : Prop
  | refused (wrong : ¬ Passes data) (placed : Placed d im)
  | fresh {im' : Image} (unbound : m key.bytes = none) (torn : Torn im key data im')
    (placed : Placed d im')
  | separated (unbound : m key.bytes = none) (separated : Separated im key data d)
  | taken {im' : Image} (unbound : m key.bytes = none) (sound : Sound im' chain m)
    (misfit : ¬ Storable data ∨ ¬ Fits key data im.dat.length) (placed : Placed d im')
  | overwritten {old : CString} (long : ¬ Storable data) (bound : m key.bytes = some old)
    (same : sizeT (toInt (data.bytes.length + 1 : Nat)) = old.bytes.length + 1)
    (placed : Placed d im)
  | replaced {im₁ im' : Image} {chain₁ : Nat → List Nat} {old : CString} (passes : Passes data)
    (bound : m key.bytes = some old)
    (differs : sizeT (toInt (data.bytes.length + 1 : Nat)) ≠ old.bytes.length + 1)
    (size : SameSize im im₁) (sound : Sound im₁ chain₁ (m.set key.bytes none))
    (torn : Torn im₁ key data im') (placed : Placed d im')

/-- The locks do not matter to what is left. -/
theorem Aborted.congr (aborted : Aborted im chain m key data d) (idx : d'.idx = d.idx)
    (dat : d'.dat = d.dat)
    : Aborted im chain m key data d' := by
  have same : ∀ {im'}, Placed d im' → Placed d' im' :=
    fun placed => ⟨by rw [idx, placed.idx], by rw [dat, placed.dat]⟩
  cases aborted with
  | refused wrong placed => exact .refused wrong (same placed)
  | fresh unbound torn placed => exact .fresh unbound torn (same placed)
  | separated unbound separated =>
      refine .separated unbound ⟨separated.sep, separated.storable, separated.fits,
        separated.full, ?_, ?_⟩
      · rw [idx]
        exact separated.idx
      · rw [dat]
        exact separated.dat
  | taken unbound sound misfit placed => exact .taken unbound sound misfit (same placed)
  | overwritten long bound size placed => exact .overwritten long bound size (same placed)
  | replaced passes bound differs size sound torn placed =>
      exact .replaced passes bound differs size sound torn (same placed)

/-- An append aborts where the data or the record does not fit, or the index file is too large. -/
theorem Torn.reason (torn : Torn im key data im')
    : ¬ Storable data ∨ ¬ Fits key data im.dat.length ∨ (im.idx.length : Int) > PTR_MAX := by
  cases torn with
  | refused long => exact .inl long
  | unfit unfit => exact .inr (.inl unfit)
  | unlinked _ _ full _ _ _ => exact .inr (.inr full)

/-- A store of data that fits, in an index file that is not too large, does not abort. -/
theorem Aborted.reason (aborted : Aborted im chain m key data d)
    : ¬ Storable data ∨ ¬ Fits key data im.dat.length ∨ (im.idx.length : Int) > PTR_MAX := by
  cases aborted with
  | refused wrong _ => exact .inl fun storable => wrong storable.passes
  | fresh _ torn _ => exact torn.reason
  | separated _ separated => exact .inr (.inr separated.full)
  | taken _ _ misfit _ => exact misfit.imp_right .inl
  | overwritten long _ _ _ => exact .inl long
  | replaced _ _ _ size _ torn _ =>
      have reason := torn.reason
      rwa [size.idx, size.dat] at reason

-----------------------------------------------------------------------------------------
-- A free record that has been taken
-----------------------------------------------------------------------------------------

/-- A pointer that is on no chain does not matter to a reader. -/
theorem Sound.setCell (sound : Sound im chain m) {a : Nat} {old : Ptr} (cell : im.cell a = some old)
    (aside : ∀ {h}, h < NHASH_DEF → a ≠ chainSlot h ∧ a ∉ chain h) (q : Ptr)
    : Sound (im.setCell a q) chain m := by
  refine ⟨⟨fun {h} lt => ?_, fun lt member => ?_, fun lt => ?_, fun {o r} found => ?_⟩,
    fun {o r} found nonblank => ?_⟩
  · refine (sound.linked lt).congr fun b member => ?_
    rw [Image.next_setCell cell]
    refine if_neg ?_
    rintro rfl
    rcases List.mem_cons.mp member with slot | later
    · exact (aside lt).1 slot
    · exact (aside lt).2 later
  · exact (Image.alive_setCell cell q _).mpr (sound.alive lt member)
  · exact (sound.shows lt).setCell (fun o member => sound.alive lt member) cell
  · rw [Image.recAt_setCell cell] at found
    rw [Image.chunkAt_setCell]
    split at found
    · obtain ⟨r', found', rfl⟩ := Option.map_eq_some_iff.mp found
      have text := sound.text found'
      exact text
    · exact sound.text found
  · rw [Image.recAt_setCell cell] at found
    split at found
    · obtain ⟨r', found', rfl⟩ := Option.map_eq_some_iff.mp found
      have listed := sound.listed found' nonblank
      exact listed
    · exact sound.listed found nonblank

/-- The data of a record that is on no chain does not matter to a reader, if no other record names
its region.
-/
theorem Sound.setChunk (sound : Sound im chain m)
    (unique : ∀ {o o' r r'}, im.recAt o = some r → im.recAt o' = some r'
      → r.datoff = r'.datoff → o = o')
    {o : Nat} {r : Rec} {old : CString} (found : im.recAt o = some r)
    (aside : ∀ {h}, h < NHASH_DEF → o ∉ chain h) (chunk : im.chunkAt r.datoff = some old)
    (same : data.bytes.length = old.bytes.length)
    : Sound (im.setChunk r.datoff data) chain m := by
  refine ⟨⟨sound.linked, sound.alive, fun {h} lt => ?_, fun {o' r'} found' => ?_⟩, sound.listed⟩
  · refine (sound.shows lt).congr (fun o member => sound.alive lt member) (fun _ => rfl)
      fun {o' r'} member found' => ⟨found', ?_⟩
    rw [Image.chunkAt_setChunk chunk same]
    refine if_neg fun eq => aside lt ?_
    rwa [← unique found' found eq]
  · obtain ⟨d', chunk', size⟩ := sound.text found'
    rw [Image.chunkAt_setChunk chunk same]
    split
    · next eq =>
        rw [eq, chunk] at chunk'
        cases chunk'
        exact ⟨data, rfl, by omega⟩
    · exact ⟨d', chunk', size⟩

end Minions.Db
