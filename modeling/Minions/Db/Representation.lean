import Minions.Db.Operations

/-! The files of a database at rest.
`WellFormed` speaks about every byte of both files; `Represents` adds the map they stand for.
The invariant of running processes amounts to these when no process is inside an operation.
-/

namespace Minions.Db

open Minions.Data Minions.Logic

/-- The hash chains and the free list end, are acyclic and disjoint, and together hold every
record once.
-/
structure Lists (im : Image) (chain : Nat → List Nat) (free : List Nat) : Prop where
  linked : ∀ {h}, h < NHASH_DEF → Linked im.next (chainSlot h) (chain h)
  freeLinked : Linked im.next FREE_OFF free
  acyclic : ∀ {h}, h < NHASH_DEF → (chain h).Nodup
  freeAcyclic : free.Nodup
  apart : ∀ {h h' o}, h < NHASH_DEF → h' < NHASH_DEF → o ∈ chain h → o ∈ chain h' → h = h'
  freeApart : ∀ {h o}, h < NHASH_DEF → o ∈ chain h → o ∉ free
  listed : ∀ {o}, (∃ r, im.recAt o = some r) ↔ o ∈ free ∨ ∃ h < NHASH_DEF, o ∈ chain h

/-- Chain `h` holds keys of hash `h`, no key twice; free records have blank keys. -/
structure Keys (im : Image) (chain : Nat → List Nat) (free : List Nat) : Prop where
  hashed : ∀ {h o r}, h < NHASH_DEF → o ∈ chain h → im.recAt o = some r → hash r.key = h
  once : ∀ {h h' o o' r r'}, h < NHASH_DEF → h' < NHASH_DEF → o ∈ chain h → o' ∈ chain h'
    → im.recAt o = some r → im.recAt o' = some r' → r.key = r'.key → o = o'
  blank : ∀ {o r}, o ∈ free → im.recAt o = some r → Blank r.key

/-- The regions that the records name are texts that end with a newline; they are disjoint and
cover the data file.
-/
structure Cover (im : Image) (dat : List Byte) : Prop where
  text : ∀ {o r}, im.recAt o = some r
    → ∃ d, im.chunkAt r.datoff = some d ∧ d.bytes.length + 1 = r.datlen
  newline : ∀ {o r}, im.recAt o = some r → dat[r.datoff + r.datlen - 1]? = some NEWLINE
  disjoint : ∀ {o o' r r'}, im.recAt o = some r → im.recAt o' = some r' → o ≠ o'
    → r.datoff + r.datlen ≤ r'.datoff ∨ r'.datoff + r'.datlen ≤ r.datoff
  covers : ∀ {b}, b < dat.length
    ↔ ∃ o r, im.recAt o = some r ∧ r.datoff ≤ b ∧ b < r.datoff + r.datlen

/-- The two files of a database at rest: the index file is a table of pointers, a newline and
index records, and nothing else.
-/
structure WellFormed (idx dat : List Byte) (im : Image) (chain : Nat → List Nat)
    (free : List Nat)
    : Prop where
  idxFile : idx = render Ptr.enc im.ptrs ++ [NEWLINE] ++ render Rec.enc im.recs
  datFile : dat = render encChunk im.chunks
  size : idx.length ≤ OFF_MAX
  lists : Lists im chain free
  keys : Keys im chain free
  cover : Cover im dat

/-- The two files stand for the map `m`. -/
def Represents (d : Disk) (m : Bindings) : Prop :=
  ∃ im chain free, WellFormed d.idx.data d.dat.data im chain free
    ∧ ∀ {h}, h < NHASH_DEF → Shows im h (chain h) m

-----------------------------------------------------------------------------------------
-- At rest the invariant is the representation invariant
-----------------------------------------------------------------------------------------

variable {s : State}

/-- Data in the file ends in a newline. -/
theorem Image.getElem?_chunk_end {im : Image} {c : Nat} {d : CString}
    (h : im.chunkAt c = some d)
    : im.dat[c + d.bytes.length]? = some NEWLINE := by
  obtain ⟨before, after, split, place, -⟩ := render_split [] h
  simp only [List.nil_append] at split
  rw [Image.dat, split, ← place]
  simp [encChunk]

/-- Regions named by records that are chunks of the data file do not overlap. -/
theorem Regions.cover {g : Ghost} (regions : Regions g) (none_ : ∀ p, g.orphan p = none)
    : Cover g.im g.im.dat := by
  refine ⟨regions.exists_, ?_, ?_, ?_⟩
  · intro o r found
    obtain ⟨d, chunk, size⟩ := regions.exists_ found
    rw [← size]
    exact g.im.getElem?_chunk_end chunk
  · intro o o' r r' found found' ne
    obtain ⟨d, chunk, size⟩ := regions.exists_ found
    obtain ⟨d', chunk', size'⟩ := regions.exists_ found'
    rcases Nat.lt_trichotomy r.datoff r'.datoff with before | same | after
    · have apart := tileAt_disjoint chunk chunk' before
      rw [encChunk_length] at apart
      omega
    · exact absurd (regions.unique found found' same) ne
    · have apart := tileAt_disjoint chunk' chunk after
      rw [encChunk_length] at apart
      omega
  · intro b
    constructor
    · intro lt
      have inside : b < 0 + (render encChunk g.im.chunks).length := by simpa [Image.dat] using lt
      obtain ⟨c, d, chunk, le, high⟩ := tileAt_covers encChunk_pos (Nat.zero_le b) inside
      rcases regions.named chunk with ⟨o, r, found, rfl⟩ | ⟨p, orphan⟩
      · obtain ⟨d', chunk', size⟩ := regions.exists_ found
        obtain rfl : d = d' := Option.some.inj (chunk.symm.trans chunk')
        rw [encChunk_length] at high
        exact ⟨o, r, found, le, by omega⟩
      · rw [none_ p] at orphan
        cases orphan
    · rintro ⟨o, r, found, -, high⟩
      obtain ⟨d, chunk, size⟩ := regions.exists_ found
      have range := g.im.chunkAt_range chunk
      omega

/-- Between operations the files are well formed and stand for the map. -/
theorem Inv.represents (inv : Inv s) (idle : ∀ p, Idle p s) : Represents s.1 s.2.map := by
  have unlocked : ∀ b p, ¬ HoldsW s p b := by
    intro b p held
    rw [HoldsW, (idle p).locks] at held
    cases held
  have ok : ∀ {h}, h < NHASH_DEF → ChainOk s.2 h := fun lt => inv.chainOk lt (unlocked _)
  have freeOk := inv.freeOk (unlocked _)
  have hashed : ∀ {h o r}, o ∈ s.2.chain h → s.2.im.recAt o = some r → hash r.key = h := by
    intro h o r member found
    have owner := inv.recOk found
    rw [RecOk, (inv.members.chain.mp member).2] at owner
    exact owner.1
  refine ⟨s.2.im, s.2.chain, s.2.free, ⟨inv.idx, inv.dat, ?_, ?_, ?_, ?_⟩, fun lt => (ok lt).content⟩
  · rw [inv.idx]
    exact inv.idxMax
  · refine ⟨fun lt => (ok lt).linked, freeOk, fun lt => ?_, ?_, ?_, ?_, ?_⟩
    · exact (List.nodup_cons.mp (ok lt).linked.nodup).2
    · exact (List.nodup_cons.mp freeOk.nodup).2
    · intro h h' o _ _ member member'
      have owner := (inv.members.chain.mp member).2
      rw [(inv.members.chain.mp member').2] at owner
      exact (Owner.chain.inj owner).symm
    · intro h o _ member member'
      have owner := (inv.members.chain.mp member).2
      rw [(inv.members.free.mp member').2] at owner
      cases owner
    · intro o
      constructor
      · rintro ⟨r, found⟩
        cases owner : s.2.own o with
        | chain h =>
            have member := inv.members.chain.mpr ⟨⟨r, found⟩, owner⟩
            exact Or.inr ⟨h, hashed member found ▸ hash_lt r.key, member⟩
        | free => exact Or.inl (inv.members.free.mpr ⟨⟨r, found⟩, owner⟩)
        | proc p => exact absurd owner ((idle p).only found)
      · rintro (member | ⟨h, -, member⟩)
        · exact (inv.members.free.mp member).1
        · exact (inv.members.chain.mp member).1
  · refine ⟨fun _ => hashed, ?_, ?_⟩
    · intro h h' o o' r r' lt _ member member' found found' same
      obtain rfl : h = h' := by
        rw [← hashed member found, ← hashed member' found', same]
      exact (ok lt).content.distinct member member' found found' same
    · intro o r member found
      have owner := inv.recOk found
      rwa [RecOk, (inv.members.free.mp member).2] at owner
  · rw [inv.dat]
    exact inv.regions.cover fun p => (idle p).orphan

-----------------------------------------------------------------------------------------
-- A database at rest starts the invariant
-----------------------------------------------------------------------------------------

section Rest

variable {idx dat : List Byte} {im : Image} {chain : Nat → List Nat} {free : List Nat}

/-- The owners of the records of a database at rest. -/
def restOwner (im : Image) (free : List Nat) (o : Nat) : Owner :=
  if o ∈ free then .free
  else
    match im.recAt o with
    | some r => .chain (hash r.key)
    | none => .free

/-- The ghost state of a database at rest. -/
def restGhost (im : Image) (chain : Nat → List Nat) (free : List Nat) (m : Bindings)
    : Ghost where
  im := im
  own := restOwner im free
  chain h := if h < NHASH_DEF then chain h else []
  free := free
  orphan _ := none
  map := m
  stat _ := .quiet

/-- Between calls no process owns a record. -/
theorem restOwner_ne_proc {o : Nat} {p : Pid} : restOwner im free o ≠ .proc p := by
  unfold restOwner
  split
  · nofun
  · split <;> nofun

/-- In well-formed files every record belongs to one list. -/
theorem WellFormed.members (wf : WellFormed idx dat im chain free) (m : Bindings)
    : Members (restGhost im chain free m) := by
  constructor
  · intro h o
    show o ∈ (if h < NHASH_DEF then chain h else []) ↔ _ ∧ restOwner im free o = _
    constructor
    · intro member
      split at member
      · rename_i lt
        obtain ⟨r, found⟩ := wf.lists.listed.mpr (Or.inr ⟨h, lt, member⟩)
        refine ⟨⟨r, found⟩, ?_⟩
        rw [restOwner, if_neg (wf.lists.freeApart lt member), found]
        exact congrArg _ (wf.keys.hashed lt member found)
      · simp at member
    · rintro ⟨⟨r, found⟩, owner⟩
      have found' : im.recAt o = some r := found
      rcases wf.lists.listed.mp ⟨r, found'⟩ with inFree | ⟨h', lt', member⟩
      · rw [restOwner, if_pos inFree] at owner
        cases owner
      · rw [restOwner, if_neg (wf.lists.freeApart lt' member), found', Owner.chain.injEq,
          wf.keys.hashed lt' member found'] at owner
        subst owner
        rw [if_pos lt']
        exact member
  · intro o
    show o ∈ free ↔ _ ∧ restOwner im free o = _
    constructor
    · intro member
      exact ⟨wf.lists.listed.mpr (Or.inl member), by rw [restOwner, if_pos member]⟩
    · rintro ⟨⟨r, found⟩, owner⟩
      have found' : im.recAt o = some r := found
      by_contra outside
      rw [restOwner, if_neg outside, found'] at owner
      cases owner

/-- Every chunk is the region of a record, since the regions cover the file. -/
theorem WellFormed.regions (wf : WellFormed idx dat im chain free) (m : Bindings)
    : Regions (restGhost im chain free m) := by
  refine ⟨wf.cover.text, ?_, ?_, nofun⟩
  · intro o o' r r' found found' same
    by_contra ne
    have positive := r.datlenPos
    have positive' := r'.datlenPos
    have apart := wf.cover.disjoint found found' ne
    omega
  · intro c d chunk
    have range := im.chunkAt_range chunk
    have inside : c < dat.length := by
      rw [wf.datFile]
      exact Nat.lt_of_lt_of_le (by omega) range
    obtain ⟨o, r, found, le, high⟩ := wf.cover.covers.mp inside
    obtain ⟨d', chunk', size⟩ := wf.cover.text found
    refine Or.inl ⟨o, r, found, ?_⟩
    by_contra ne
    have apart := tileAt_disjoint chunk' chunk (by omega)
    rw [encChunk_length] at apart
    omega

/-- A process can start on a database at rest. -/
theorem Represents.start {d : Disk} {m : Bindings} (rep : Represents d m)
    (unlocked : ∀ p, d.locks p = noLocks)
    : ∃ g : Ghost, Inv (d, g) ∧ (∀ p, Idle p (d, g)) ∧ g.map = m ∧ g.stat = fun _ => .quiet := by
  obtain ⟨im, chain, free, wf, shows⟩ := rep
  have none_ : ∀ p fd b, d.locks p fd b = none := by
    intro p fd b
    rw [unlocked p]
    rfl
  refine ⟨restGhost im chain free m, ?_, fun p => ⟨unlocked p, fun _ => restOwner_ne_proc, rfl⟩,
    rfl, rfl⟩
  have chainAt : ∀ {h}, h < NHASH_DEF → (restGhost im chain free m).chain h = chain h :=
    fun lt => if_pos lt
  refine ⟨wf.idxFile, wf.datFile, ?_, ?_, ?_, wf.members m, wf.regions m, ?_,
    fun _ => wf.lists.freeLinked⟩
  · have size := wf.size
    rw [wf.idxFile] at size
    exact size
  · intro p q fd b _ held
    rw [none_] at held
    cases held
  · intro o r found
    show OwnerOk _ m r.key (im.chunkAt r.datoff) (restOwner im free o)
    have found' : im.recAt o = some r := found
    unfold restOwner
    split
    · rename_i member
      exact wf.keys.blank member found'
    · rename_i outside
      rw [found']
      refine ⟨rfl, fun _ => ?_⟩
      rcases wf.lists.listed.mp ⟨r, found'⟩ with inFree | ⟨h, lt, member⟩
      · exact absurd inFree outside
      · obtain ⟨d', chunk, -⟩ := wf.cover.text found'
        rw [chunk]
        exact ((shows lt).bound (wf.keys.hashed lt member found') d').mpr
          ⟨o, r, member, found', rfl, chunk⟩
  · intro h lt _
    refine ⟨?_, ?_⟩
    · rw [chainAt lt]
      exact wf.lists.linked lt
    · rw [chainAt lt]
      exact shows lt

end Rest

end Minions.Db
