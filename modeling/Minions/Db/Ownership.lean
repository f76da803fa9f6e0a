import Minions.Data.LinkedList
import Minions.Db.Bindings
import Minions.Db.Codec
import Minions.Logic.Linearizability
import Minions.Logic.RelyGuarantee

/-! Who may touch what.
Every index record belongs to a hash chain, to the free list or, while it moves between
them, to one process. A list belongs to whoever holds its lock byte for writing; otherwise
it is well formed. What a process relies on is that nobody changes what it has locked or
owns, and that no record ever changes its shape.
-/

namespace Minions.Db

open Minions.Data Minions.Logic

-----------------------------------------------------------------------------------------
-- Ghost state
-----------------------------------------------------------------------------------------

/-- The owner of an index record. -/
inductive Owner
  | chain (h : Nat)
  | free
  | proc (p : Pid)
deriving DecidableEq

/-- How far a process has come with its call. -/
abbrev Status := Progress Op Res

/-- The structure behind the two files, the map they represent and the progress of each
process. `orphan p` is a data region that `p` has appended and not yet given a record.
-/
structure Ghost where
  im : Image
  own : Nat → Owner
  chain : Nat → List Nat
  free : List Nat
  orphan : Pid → Option Nat
  map : Bindings
  stat : Pid → Status

abbrev State := Disk × Ghost

/-- The hash function of every database that `db_open` makes. -/
abbrev hash (key : List Byte) : Nat := dbHash NHASH_DEF key

/-- Offset of the pointer of hash chain `h`, and the byte that locks the chain. -/
def chainSlot (h : Nat) : Nat := h * PTR_SZ + HASH_OFF

/-- The pointers of the chains follow that of the free list. -/
theorem chainSlot_eq (h : Nat) : chainSlot h = (h + 1) * PTR_SZ := by
  simp only [chainSlot, HASH_OFF]
  ring

/-- Different chains have different pointers. -/
theorem chainSlot_inj {h h' : Nat} (eq : chainSlot h = chainSlot h') : h = h' := by
  simp only [chainSlot, HASH_OFF, PTR_SZ] at eq
  omega

/-- No chain starts at the free list's pointer. -/
theorem chainSlot_ne_free (h : Nat) : chainSlot h ≠ FREE_OFF := by
  simp only [chainSlot, HASH_OFF, PTR_SZ, FREE_OFF]
  omega

/-- A hash value is the number of a chain. -/
theorem hash_lt (key : List Byte) : hash key < NHASH_DEF :=
  Nat.mod_lt _ (by decide)

/-- The content of a pointer cell. -/
def Image.next (im : Image) (a : Nat) : Option Nat := (im.cell a).map Ptr.val

/-- A key that consists of blanks only, as the key of a free record does. -/
def Blank (key : List Byte) : Prop := ∀ b ∈ key, b = SPACE

section State

variable (s : State)

/-- Process `p` holds a lock on a byte of the index file. -/
def Holds (p : Pid) (b : Nat) : Prop := (s.1.locks p .idx b).isSome

/-- Process `p` holds a write lock on a byte of the index file. -/
def HoldsW (p : Pid) (b : Nat) : Prop := s.1.locks p .idx b = some .wr

/-- The records of `list` show exactly the bindings of `m` whose keys hash to `h`. -/
structure Shows (im : Image) (h : Nat) (list : List Nat) (m : Bindings) : Prop where
  distinct : ∀ {o o' r r'}, o ∈ list → o' ∈ list → im.recAt o = some r
    → im.recAt o' = some r' → r.key = r'.key → o = o'
  bound : ∀ {key}, hash key = h → ∀ d,
    m key = some d
    ↔ ∃ o r, o ∈ list ∧ im.recAt o = some r ∧ r.key = key
        ∧ im.chunkAt r.datoff = some d

/-- Hash chain `h` is well formed and shows the bindings of its keys. -/
structure ChainOk (g : Ghost) (h : Nat) : Prop where
  linked : Linked g.im.next (chainSlot h) (g.chain h)
  content : Shows g.im h (g.chain h) g.map

/-- What holds of a record with key `key` and data `chunk` by its owner. A record whose key is
not blank shows a current binding, unless it is being deleted under the free list lock.
-/
def OwnerOk (locks : Pid → Fd → Nat → Option LockKind) (map : Bindings) (key : List Byte)
    (chunk : Option CString)
    : Owner → Prop
  | .chain h => hash key = h ∧ (¬ Blank key → map key = chunk)
  | .free => Blank key
  | .proc p =>
      ¬ Blank key
      → locks p .idx (chainSlot (hash key)) = some .wr
        ∧ (map key = chunk ∨ locks p .idx FREE_OFF = some .wr)

/-- What holds of the record at `o`. -/
def RecOk (o : Nat) (r : Rec) : Prop :=
  OwnerOk s.1.locks s.2.map r.key (s.2.im.chunkAt r.datoff) (s.2.own o)

/-- The lists name the records that belong to them. -/
structure Members (g : Ghost) : Prop where
  chain : ∀ {h o}, o ∈ g.chain h ↔ (∃ r, g.im.recAt o = some r) ∧ g.own o = .chain h
  free : ∀ {o}, o ∈ g.free ↔ (∃ r, g.im.recAt o = some r) ∧ g.own o = .free

/-- What does not belong to a chain is not on it. -/
theorem Members.off_chain {g : Ghost} (members : Members g) {o c : Nat}
    (own : g.own o ≠ .chain c)
    : o ∉ g.chain c :=
  fun member => own (members.chain.mp member).2

/-- What does not belong to the free list is not on it. -/
theorem Members.off_free {g : Ghost} (members : Members g) {o : Nat} (own : g.own o ≠ .free)
    : o ∉ g.free :=
  fun member => own (members.free.mp member).2

/-- A list that a record is not on stays as it is when the record goes elsewhere. -/
theorem mem_iff_ite {o x : Nat} {list : List Nat} {goes : Prop} (off : o ∉ list)
    (elsewhere : ¬ goes)
    : x ∈ list ↔ if x = o then goes else x ∈ list := by
  by_cases same : x = o
  · subst same
    simp [off, elsewhere]
  · simp [same]

/-- Every record names a data region of its length, and every region is named by exactly
one record, or is an orphan.
-/
structure Regions (g : Ghost) : Prop where
  exists_ : ∀ {o r}, g.im.recAt o = some r
    → ∃ d, g.im.chunkAt r.datoff = some d ∧ d.bytes.length + 1 = r.datlen
  unique : ∀ {o o' r r'}, g.im.recAt o = some r → g.im.recAt o' = some r'
    → r.datoff = r'.datoff → o = o'
  named : ∀ {c d}, g.im.chunkAt c = some d
    → (∃ o r, g.im.recAt o = some r ∧ r.datoff = c) ∨ ∃ p, g.orphan p = some c
  orphan : ∀ {p c}, g.orphan p = some c
    → (∃ d, g.im.chunkAt c = some d)
      ∧ (∀ {o r}, g.im.recAt o = some r → r.datoff ≠ c)
      ∧ ∀ {q}, g.orphan q = some c → q = p

/-- The invariant of the database in every state of every interleaving. -/
structure Inv : Prop where
  idx : s.1.idx.data = s.2.im.idx
  dat : s.1.dat.data = s.2.im.dat
  idxMax : s.2.im.idx.length ≤ OFF_MAX
  exclusive : ∀ {p q fd b}, p ≠ q → s.1.locks p fd b = some .wr → s.1.locks q fd b = none
  recOk : ∀ {o r}, s.2.im.recAt o = some r → RecOk s o r
  members : Members s.2
  regions : Regions s.2
  chainOk : ∀ {h}, h < NHASH_DEF → (∀ p, ¬ HoldsW s p (chainSlot h)) → ChainOk s.2 h
  freeOk : (∀ p, ¬ HoldsW s p FREE_OFF) → Linked s.2.im.next FREE_OFF s.2.free

/-- Process `p` may read the record at `o` without its being changed by others. -/
def Sees (p : Pid) (o : Nat) : Prop :=
  (∃ r, s.2.im.recAt o = some r)
  ∧ match s.2.own o with
    | .chain h => Holds s p (chainSlot h)
    | .free => Holds s p FREE_OFF
    | .proc q => q = p

/-- Process `p` may change the record at `o`. -/
def Owns (p : Pid) (o : Nat) : Prop :=
  match s.2.own o with
  | .chain h => HoldsW s p (chainSlot h)
  | .free => HoldsW s p FREE_OFF
  | .proc q => q = p

end State

/-- What process `p` relies on while the others run. -/
structure Rely (p : Pid) (s t : State) : Prop where
  locks : t.1.locks p = s.1.locks p
  stat : t.2.stat p = s.2.stat p
  orphan : t.2.orphan p = s.2.orphan p
  orphanChunk : ∀ {c}, s.2.orphan p = some c → t.2.im.chunkAt c = s.2.im.chunkAt c
  chain : ∀ {h}, h < NHASH_DEF → Holds s p (chainSlot h)
    → t.2.chain h = s.2.chain h
      ∧ t.2.im.next (chainSlot h) = s.2.im.next (chainSlot h)
      ∧ ∀ {key}, hash key = h → t.2.map key = s.2.map key
  free : Holds s p FREE_OFF
    → t.2.free = s.2.free ∧ t.2.im.next FREE_OFF = s.2.im.next FREE_OFF
  recs : ∀ {o}, Sees s p o
    → t.2.im.recAt o = s.2.im.recAt o
      ∧ t.2.own o = s.2.own o
      ∧ ∀ {r}, s.2.im.recAt o = some r → t.2.im.chunkAt r.datoff = s.2.im.chunkAt r.datoff
  mine : ∀ {o r}, t.2.im.recAt o = some r → t.2.own o = .proc p
    → (∃ r', s.2.im.recAt o = some r') ∧ s.2.own o = .proc p
  tail : Holds s p RECS_OFF → t.2.im.idx.length = s.2.im.idx.length
  datTail : (s.1.locks p .dat 0).isSome → t.2.im.dat.length = s.2.im.dat.length
  grows : ∀ {o r}, s.2.im.recAt o = some r
    → ∃ r', t.2.im.recAt o = some r' ∧ r.SameShape r'
  scanned : Holds s p FREE_OFF → ∀ {o r}, s.2.im.recAt o = some r → ¬ Blank r.key
    → ∃ r', t.2.im.recAt o = some r' ∧ r'.key = r.key

/-- Others have not stepped. -/
theorem Rely.refl (p : Pid) (s : State) : Rely p s s where
  locks := rfl
  stat := rfl
  orphan := rfl
  orphanChunk := fun _ => rfl
  chain := fun _ _ => ⟨rfl, rfl, fun _ => rfl⟩
  free := fun _ => ⟨rfl, rfl⟩
  recs := fun _ => ⟨rfl, rfl, fun _ => rfl⟩
  mine := fun found own => ⟨⟨_, found⟩, own⟩
  tail := fun _ => rfl
  datTail := fun _ => rfl
  grows := fun {_ r} found => ⟨r, found, .refl r⟩
  scanned := fun _ {_ r} found _ => ⟨r, found, rfl⟩

/-- The steps of others keep a process's locks. -/
theorem Rely.holds {p : Pid} {s t : State} (h : Rely p s t) {b : Nat}
    : Holds t p b ↔ Holds s p b := by
  simp [Holds, h.locks]

/-- The steps of others keep a process's write locks. -/
theorem Rely.holdsW {p : Pid} {s t : State} (h : Rely p s t) {b : Nat}
    : HoldsW t p b ↔ HoldsW s p b := by
  simp [HoldsW, h.locks]

/-- What a process sees, it goes on seeing. -/
theorem Rely.sees {p : Pid} {s t : State} (h : Rely p s t) {o : Nat} (seen : Sees s p o)
    : Sees t p o := by
  obtain ⟨same, own, -⟩ := h.recs seen
  obtain ⟨⟨r, found⟩, rest⟩ := seen
  refine ⟨⟨r, same.trans found⟩, ?_⟩
  rw [own]
  cases owner : s.2.own o with
  | chain c => simpa [owner, h.holds] using rest
  | free => simpa [owner, h.holds] using rest
  | proc q => simpa [owner] using rest

/-- What a process relies on composes along a run of the others. -/
theorem Rely.trans {p : Pid} {s t u : State} (h₁ : Rely p s t) (h₂ : Rely p t u)
    : Rely p s u where
  locks := h₂.locks.trans h₁.locks
  stat := h₂.stat.trans h₁.stat
  orphan := h₂.orphan.trans h₁.orphan
  orphanChunk := fun mine =>
    (h₂.orphanChunk (h₁.orphan.trans mine)).trans (h₁.orphanChunk mine)
  chain := by
    intro c lt held
    obtain ⟨list₁, slot₁, map₁⟩ := h₁.chain lt held
    obtain ⟨list₂, slot₂, map₂⟩ := h₂.chain lt (h₁.holds.mpr held)
    exact ⟨list₂.trans list₁, slot₂.trans slot₁, fun eq => (map₂ eq).trans (map₁ eq)⟩
  free := by
    intro held
    obtain ⟨list₁, slot₁⟩ := h₁.free held
    obtain ⟨list₂, slot₂⟩ := h₂.free (h₁.holds.mpr held)
    exact ⟨list₂.trans list₁, slot₂.trans slot₁⟩
  recs := by
    intro o seen
    obtain ⟨rec₁, own₁, chunk₁⟩ := h₁.recs seen
    obtain ⟨rec₂, own₂, chunk₂⟩ := h₂.recs (h₁.sees seen)
    refine ⟨rec₂.trans rec₁, own₂.trans own₁, fun found => ?_⟩
    exact (chunk₂ (rec₁.trans found)).trans (chunk₁ found)
  mine := by
    intro o r found own
    obtain ⟨⟨r', found'⟩, own'⟩ := h₂.mine found own
    exact h₁.mine found' own'
  tail := fun held => (h₂.tail (h₁.holds.mpr held)).trans (h₁.tail held)
  datTail := fun held =>
    (h₂.datTail (by rw [h₁.locks]; exact held)).trans (h₁.datTail held)
  grows := by
    intro o r found
    obtain ⟨r₁, found₁, shape₁⟩ := h₁.grows found
    obtain ⟨r₂, found₂, shape₂⟩ := h₂.grows found₁
    exact ⟨r₂, found₂, shape₁.trans shape₂⟩
  scanned := by
    intro held o r found nonblank
    obtain ⟨r₁, found₁, key₁⟩ := h₁.scanned held found nonblank
    obtain ⟨r₂, found₂, key₂⟩ :=
      h₂.scanned (h₁.holds.mpr held) found₁ (by rw [key₁]; exact nonblank)
    exact ⟨r₂, found₂, key₂.trans key₁⟩

-----------------------------------------------------------------------------------------
-- The discipline
-----------------------------------------------------------------------------------------

/-- The calls at which a call of the library may take effect. A store that changes the map
does so by writing its index record, or its data over data of the same length.
-/
def EffectAt (op : Op) (res : Res) (c : Call) : Prop :=
  match op with
  | .store key data _ =>
      res = .code 0
      → (∃ r : Rec, c = .write .idx r.enc ∧ r.key = key.bytes)
        ∨ c = .write .dat (encChunk data)
  | _ => True

/-- The calls that take effect when they are invoked: they do not look at the files. -/
def EffectAtInvoke : Op → Res → Prop
  | .rewind, res => res = .unit
  | .store _ _ flag, res => ¬ ValidFlag flag ∧ res = .code (-1)
  | _, _ => False

/-- What a call may still do when it has taken effect: a store has only pointers left to
write.
-/
def OnlyPointers : Op → Call → Prop
  | .store _ _ _, .write fd bytes => fd = .idx ∧ bytes.length = PTR_SZ
  | _, _ => True

/-- The library as an object with a map for its state. -/
def behavior : Behavior Sys Op Res Bindings where
  answers := Answers
  atInvoke := EffectAtInvoke
  atCall := EffectAt
  afterwards := OnlyPointers

/-- A call of process `p` either leaves the map and every status alone, or is the moment
at which the operation of `p` takes effect on the map.
-/
def Effect (p : Pid) (c : Call) (g g' : Ghost) : Prop :=
  (g'.map = g.map ∧ g'.stat = g.stat)
  ∨ ∃ op res, g.stat p = .todo op ∧ Answers op g.map res g'.map
      ∧ g'.stat = Function.update g.stat p (.done op res)
      ∧ EffectAt op res c

/-- The parts of the two files that process `p` may write. -/
inductive MayWrite (p : Pid) (s : State) : Fd → Nat → Nat → Prop
  | slot {h : Nat} (lt : h < NHASH_DEF) (held : HoldsW s p (chainSlot h))
    : MayWrite p s .idx (chainSlot h) PTR_SZ
  | free (held : HoldsW s p FREE_OFF) : MayWrite p s .idx FREE_OFF PTR_SZ
  | record {o : Nat} {r : Rec} {len : Nat} (found : s.2.im.recAt o = some r)
    (mine : Owns s p o) (fits : len ≤ r.enc.length)
    : MayWrite p s .idx o len
  | newRecord {len : Nat} (held : HoldsW s p RECS_OFF)
    : MayWrite p s .idx s.2.im.idx.length len
  | chunk {o : Nat} {r : Rec} (found : s.2.im.recAt o = some r) (mine : Owns s p o)
    : MayWrite p s .dat r.datoff r.datlen
  | newChunk {len : Nat} (held : s.1.locks p .dat 0 = some .wr)
    : MayWrite p s .dat s.2.im.dat.length len

/-- A process that may write more than pointers: it is not in a store that has taken effect. -/
def Unsettled : Status → Prop
  | .done (.store _ _ _) _ => False
  | _ => True

/-- A process writes only where it may, and what it may. -/
def Permitted (p : Pid) (c : Call) (l : Offsets) (s : State) : Prop :=
  match c with
  | .write fd bytes =>
      MayWrite p s fd (l.at fd) bytes.length
      ∧ (Unsettled (s.2.stat p) ∨ fd = .idx ∧ bytes.length = PTR_SZ)
  | _ => True

/-- The rules that all processes of a database follow. -/
def discipline : Discipline Sys Pid Offsets Disk Ghost where
  inv := Inv
  rely := Rely
  permit := Permitted
  onCall := Effect
  rely_refl := Rely.refl
  rely_trans := Rely.trans

/-- A call without an effect. -/
theorem Effect.none (p : Pid) (c : Call) (g : Ghost) : Effect p c g g :=
  Or.inl ⟨rfl, rfl⟩

end Minions.Db
