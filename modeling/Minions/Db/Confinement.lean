import Minions.Db.Ownership

/-! A process that changes only what it owns disturbs nobody.
`Confined p s g' S` describes a change of the files and of the ghost state by `p` that stays
within the records `S`, all owned by `p`, and the lists that `p` has locked for writing.
Every other process keeps what it relies on, and every list that nobody has locked stays
well formed.
-/

namespace Minions.Db

open Minions.Data Minions.Logic

/-- The disk with the files of an image. -/
def Disk.put (d : Disk) (im : Image) : Disk :=
  { d with idx := { d.idx with data := im.idx }, dat := { d.dat with data := im.dat } }

@[simp] theorem Disk.put_locks (d : Disk) (im : Image) : (d.put im).locks = d.locks := rfl

@[simp] theorem holds_put (d : Disk) (g g' : Ghost) (im : Image) (p : Pid) (b : Nat)
    : Holds (d.put im, g') p b ↔ Holds (d, g) p b := Iff.rfl

@[simp] theorem holdsW_put (d : Disk) (g g' : Ghost) (im : Image) (p : Pid) (b : Nat)
    : HoldsW (d.put im, g') p b ↔ HoldsW (d, g) p b := Iff.rfl

/-- A write lock is a lock. -/
theorem HoldsW.holds {s : State} {p : Pid} {b : Nat} (h : HoldsW s p b) : Holds s p b := by
  simp [Holds, show s.1.locks p .idx b = some .wr from h]

/-- A write lock excludes every other lock on its byte. -/
theorem Inv.apart {s : State} (inv : Inv s) {p q : Pid} {b : Nat} (ne : q ≠ p)
    (mine : HoldsW s p b)
    : ¬ Holds s q b := by
  simp [Holds, inv.exclusive (Ne.symm ne) mine]

/-- Only the process that owns a record sees it while it may change it. -/
theorem Inv.not_sees {s : State} (inv : Inv s) {p q : Pid} {o : Nat} (ne : q ≠ p)
    (mine : Owns s p o)
    : ¬ Sees s q o := by
  rintro ⟨-, seen⟩
  cases owner : s.2.own o with
  | chain h =>
      simp only [Owns, owner] at mine seen
      exact inv.apart ne mine seen
  | free =>
      simp only [Owns, owner] at mine seen
      exact inv.apart ne mine seen
  | proc x =>
      simp only [Owns, owner] at mine seen
      exact ne (seen.symm.trans mine)

/-- A change by `p` that stays within the records `S` and the lists that `p` has locked. -/
structure Confined (p : Pid) (s : State) (g' : Ghost) (S : Nat → Prop) : Prop where
  owned : ∀ {o r}, S o → s.2.im.recAt o = some r → Owns s p o
  kept : ∀ {o r}, ¬ S o → s.2.im.recAt o = some r
    → g'.im.recAt o = some r
      ∧ g'.own o = s.2.own o
      ∧ g'.im.chunkAt r.datoff = s.2.im.chunkAt r.datoff
  changed : ∀ {o r}, S o → s.2.im.recAt o = some r
    → ∃ r', g'.im.recAt o = some r'
        ∧ r.SameShape r'
        ∧ (¬ Blank r.key → r'.key = r.key ∨ HoldsW s p FREE_OFF)
        ∧ ∀ q, g'.own o = .proc q → q = p
  fresh : ∀ {o r}, s.2.im.recAt o = none → g'.im.recAt o = some r → g'.own o = .proc p
  idxLen : g'.im.idx.length = s.2.im.idx.length ∨ HoldsW s p RECS_OFF
  datLen : g'.im.dat.length = s.2.im.dat.length ∨ s.1.locks p .dat 0 = some .wr
  chain : ∀ h, h < NHASH_DEF → HoldsW s p (chainSlot h)
    ∨ (g'.chain h = s.2.chain h
        ∧ g'.im.next (chainSlot h) = s.2.im.next (chainSlot h)
        ∧ ∀ {key}, hash key = h → g'.map key = s.2.map key)
  free : HoldsW s p FREE_OFF
    ∨ (g'.free = s.2.free ∧ g'.im.next FREE_OFF = s.2.im.next FREE_OFF)
  orphan : ∀ q, q ≠ p
    → g'.orphan q = s.2.orphan q
      ∧ ∀ {c}, s.2.orphan q = some c → g'.im.chunkAt c = s.2.im.chunkAt c
  stat : ∀ q, q ≠ p → g'.stat q = s.2.stat q

section Confined

variable {p : Pid} {s : State} {g' : Ghost} {S : Nat → Prop}

/-- The other processes keep what they rely on. -/
theorem Confined.rely (c : Confined p s g' S) (inv : Inv s) {q : Pid} (ne : q ≠ p)
    : Rely q s (s.1.put g'.im, g') where
  locks := rfl
  stat := c.stat q ne
  orphan := (c.orphan q ne).1
  orphanChunk := (c.orphan q ne).2
  chain := by
    intro h lt held
    rcases c.chain h lt with mine | same
    · exact absurd held (inv.apart ne mine)
    · exact same
  free := by
    intro held
    rcases c.free with mine | same
    · exact absurd held (inv.apart ne mine)
    · exact same
  recs := by
    intro o seen
    obtain ⟨r, found⟩ := seen.1
    by_cases touched : S o
    · exact absurd seen (inv.not_sees ne (c.owned touched found))
    · obtain ⟨found', own, chunk⟩ := c.kept touched found
      refine ⟨found'.trans found.symm, own, fun {r'} eq => ?_⟩
      obtain rfl : r = r' := Option.some.inj (found.symm.trans eq)
      exact chunk
  mine := by
    intro o r' found' own'
    cases found : s.2.im.recAt o with
    | none =>
        have mine := c.fresh found found'
        rw [own'] at mine
        exact absurd (Owner.proc.inj mine) ne
    | some r =>
        refine ⟨⟨r, rfl⟩, ?_⟩
        by_cases touched : S o
        · obtain ⟨_, _, _, _, mine⟩ := c.changed touched found
          exact absurd (mine q own') ne
        · exact (c.kept touched found).2.1.symm.trans own'
  tail := by
    intro held
    rcases c.idxLen with same | mine
    · exact same
    · exact absurd held (inv.apart ne mine)
  datTail := by
    intro held
    rcases c.datLen with same | mine
    · exact same
    · rw [inv.exclusive (Ne.symm ne) mine] at held
      simp at held
  grows := by
    intro o r found
    by_cases touched : S o
    · obtain ⟨r', found', shape, -⟩ := c.changed touched found
      exact ⟨r', found', shape⟩
    · exact ⟨r, (c.kept touched found).1, .refl r⟩
  scanned := by
    intro held o r found nonblank
    by_cases touched : S o
    · obtain ⟨r', found', -, key, -⟩ := c.changed touched found
      rcases key nonblank with same | mine
      · exact ⟨r', found', same⟩
      · exact absurd held (inv.apart ne mine)
    · exact ⟨r, (c.kept touched found).1, rfl⟩

/-- Pointers of kept records stay. -/
theorem Confined.next_kept (c : Confined p s g' S) {o : Nat} {r : Rec} (untouched : ¬ S o)
    (found : s.2.im.recAt o = some r)
    : g'.im.next o = s.2.im.next o := by
  simp [Image.next, Image.cell_rec found, Image.cell_rec (c.kept untouched found).1]

end Confined

/-- What a list of records shows depends only on their keys and their data. -/
theorem Shows.transfer {im im' : Image} {h : Nat} {list : List Nat} {m m' : Bindings}
    (ok : Shows im h list m) (alive : ∀ o ∈ list, ∃ r, im.recAt o = some r)
    (map : ∀ {key}, hash key = h → m' key = m key)
    (recs : ∀ {o r}, o ∈ list → im.recAt o = some r
      → ∃ r', im'.recAt o = some r' ∧ r'.key = r.key
          ∧ im'.chunkAt r'.datoff = im.chunkAt r.datoff)
    : Shows im' h list m' := by
  have back : ∀ {o r'}, o ∈ list → im'.recAt o = some r'
      → ∃ r, im.recAt o = some r ∧ r'.key = r.key
          ∧ im'.chunkAt r'.datoff = im.chunkAt r.datoff := by
    intro o r' member found
    obtain ⟨r, before⟩ := alive o member
    obtain ⟨r'', found'', key, chunk⟩ := recs member before
    obtain rfl : r'' = r' := Option.some.inj (found''.symm.trans found)
    exact ⟨r, before, key, chunk⟩
  refine ⟨?_, ?_⟩
  · intro o₁ o₂ r₁ r₂ mem₁ mem₂ found₁ found₂ key
    obtain ⟨x₁, before₁, key₁, -⟩ := back mem₁ found₁
    obtain ⟨x₂, before₂, key₂, -⟩ := back mem₂ found₂
    exact ok.distinct mem₁ mem₂ before₁ before₂ (by rw [← key₁, ← key₂, key])
  · intro key hashed d
    rw [map hashed, ok.bound hashed]
    constructor
    · rintro ⟨o, r, mem, found, eq, chunk⟩
      obtain ⟨r', found', key', chunk'⟩ := recs mem found
      exact ⟨o, r', mem, found', key'.trans eq, chunk'.trans chunk⟩
    · rintro ⟨o, r', mem, found', eq, chunk⟩
      obtain ⟨r, found, key', chunk'⟩ := back mem found'
      exact ⟨o, r, mem, found, key'.symm.trans eq, chunk'.symm.trans chunk⟩

/-- What a chain shows depends on its own records and data. -/
theorem Shows.congr {im im' : Image} {h : Nat} {list : List Nat} {m m' : Bindings}
    (ok : Shows im h list m) (alive : ∀ o ∈ list, ∃ r, im.recAt o = some r)
    (map : ∀ {key}, hash key = h → m' key = m key)
    (recs : ∀ {o r}, o ∈ list → im.recAt o = some r
      → im'.recAt o = some r ∧ im'.chunkAt r.datoff = im.chunkAt r.datoff)
    : Shows im' h list m' :=
  ok.transfer alive map fun {_ r} member found =>
    ⟨r, (recs member found).1, rfl, (recs member found).2⟩

/-- A chain stays well formed when its pointer, its records and its bindings stay. -/
theorem ChainOk.congr {g g' : Ghost} {h : Nat} (ok : ChainOk g h) (members : Members g)
    (list : g'.chain h = g.chain h)
    (slot : g'.im.next (chainSlot h) = g.im.next (chainSlot h))
    (map : ∀ {key}, hash key = h → g'.map key = g.map key)
    (recs : ∀ {o r}, o ∈ g.chain h → g.im.recAt o = some r
      → g'.im.recAt o = some r ∧ g'.im.chunkAt r.datoff = g.im.chunkAt r.datoff)
    : ChainOk g' h := by
  refine ⟨?_, ?_⟩
  · rw [list]
    refine ok.linked.congr fun b member => ?_
    rcases List.mem_cons.mp member with rfl | later
    · exact slot
    · obtain ⟨r, found⟩ := (members.chain.mp later).1
      simp [Image.next, Image.cell_rec found, Image.cell_rec (recs later found).1]
  · rw [list]
    exact ok.content.congr (fun o member => (members.chain.mp member).1) map recs

section Confined

variable {p : Pid} {s : State} {g' : Ghost} {S : Nat → Prop}

/-- A chain that nobody has locked for writing stays well formed. -/
theorem Confined.chainOk (c : Confined p s g' S) (inv : Inv s) {h : Nat}
    (lt : h < NHASH_DEF) (unlocked : ∀ q, ¬ HoldsW s q (chainSlot h))
    : ChainOk g' h := by
  rcases c.chain h lt with mine | ⟨list, slot, map⟩
  · exact absurd mine (unlocked p)
  · refine (inv.chainOk lt unlocked).congr inv.members list slot map ?_
    intro o r member found
    have untouched : ¬ S o := by
      intro touched
      have mine := c.owned touched found
      simp only [Owns, (inv.members.chain.mp member).2] at mine
      exact unlocked p mine
    exact ⟨(c.kept untouched found).1, (c.kept untouched found).2.2⟩

/-- The free list stays well formed unless somebody has locked it for writing. -/
theorem Confined.freeOk (c : Confined p s g' S) (inv : Inv s)
    (unlocked : ∀ q, ¬ HoldsW s q FREE_OFF)
    : Linked g'.im.next FREE_OFF g'.free := by
  rcases c.free with mine | ⟨list, slot⟩
  · exact absurd mine (unlocked p)
  · rw [list]
    refine (inv.freeOk unlocked).congr fun b member => ?_
    rcases List.mem_cons.mp member with rfl | later
    · exact slot
    · obtain ⟨⟨r, found⟩, own⟩ := inv.members.free.mp later
      have untouched : ¬ S b := by
        intro touched
        have mine := c.owned touched found
        simp only [Owns, own] at mine
        exact unlocked p mine
      exact c.next_kept untouched found

/-- A record that stays keeps its relation to its owner, as long as its binding does. -/
theorem Confined.recOk_kept (c : Confined p s g' S) (inv : Inv s) {o : Nat} {r : Rec}
    (untouched : ¬ S o) (found : s.2.im.recAt o = some r)
    (binding : ¬ Blank r.key → g'.map r.key = s.2.map r.key)
    : RecOk (s.1.put g'.im, g') o r := by
  obtain ⟨-, own, chunk⟩ := c.kept untouched found
  have ok := inv.recOk found
  simp only [RecOk, own, chunk, Disk.put_locks] at ok ⊢
  cases owner : s.2.own o with
  | chain h =>
      rw [owner] at ok
      exact ⟨ok.1, fun nonblank => (binding nonblank).trans (ok.2 nonblank)⟩
  | free =>
      rw [owner] at ok
      exact ok
  | proc q =>
      rw [owner] at ok
      intro nonblank
      rw [binding nonblank]
      exact ok nonblank

/-- The invariant after a confined change. Only the touched records, the membership of the
lists and the data regions have to be checked.
-/
theorem Confined.inv (c : Confined p s g' S) (inv : Inv s)
    (idxMax : g'.im.idx.length ≤ OFF_MAX)
    (bindings : ∀ {o r}, ¬ S o → s.2.im.recAt o = some r → ¬ Blank r.key
      → g'.map r.key = s.2.map r.key)
    (touched : ∀ {o r}, S o ∨ s.2.im.recAt o = none → g'.im.recAt o = some r
      → RecOk (s.1.put g'.im, g') o r)
    (members : Members g') (regions : Regions g')
    : Inv (s.1.put g'.im, g') where
  idx := rfl
  dat := rfl
  idxMax := idxMax
  exclusive := inv.exclusive
  recOk := by
    intro o r' found'
    by_cases inside : S o
    · exact touched (Or.inl inside) found'
    · cases found : s.2.im.recAt o with
      | none => exact touched (Or.inr found) found'
      | some r =>
          obtain rfl : r = r' := Option.some.inj ((c.kept inside found).1.symm.trans found')
          exact c.recOk_kept inv inside found (bindings inside found)
  members := members
  regions := regions
  chainOk := fun lt unlocked => c.chainOk inv lt unlocked
  freeOk := fun unlocked => c.freeOk inv unlocked

end Confined

/-- Lists keep their members when no record comes, goes or changes its owner. -/
theorem Members.congr {g g' : Ghost} (ok : Members g)
    (alive : ∀ x, (∃ r, g'.im.recAt x = some r) ↔ ∃ r, g.im.recAt x = some r)
    (own : g'.own = g.own) (chain : g'.chain = g.chain) (free : g'.free = g.free)
    : Members g' :=
  ⟨fun {h x} => by rw [chain, own, alive]; exact ok.chain,
    fun {x} => by rw [free, own, alive]; exact ok.free⟩

/-- Lists keep their members when one record moves to the owner `dest`. -/
theorem Members.move {g g' : Ghost} (ok : Members g) {o : Nat} {dest : Owner}
    (here : ∃ r, g'.im.recAt o = some r)
    (alive : ∀ x, x ≠ o → ((∃ r, g'.im.recAt x = some r) ↔ ∃ r, g.im.recAt x = some r))
    (own : g'.own = Function.update g.own o dest)
    (chain : ∀ h x, x ∈ g'.chain h ↔ if x = o then dest = .chain h else x ∈ g.chain h)
    (free : ∀ x, x ∈ g'.free ↔ if x = o then dest = .free else x ∈ g.free)
    : Members g' := by
  refine ⟨fun {h x} => ?_, fun {x} => ?_⟩
  · rw [chain, own]
    by_cases same : x = o
    · subst same
      simp [here]
    · rw [if_neg same, Function.update_of_ne same, alive x same]
      exact ok.chain
  · rw [free, own]
    by_cases same : x = o
    · subst same
      simp [here]
    · rw [if_neg same, Function.update_of_ne same, alive x same]
      exact ok.free

/-- Data regions stay in order when every record keeps its shape, every region its length,
and no orphan comes or goes.
-/
theorem Regions.congr {g g' : Ghost} (ok : Regions g)
    (recs : ∀ {o r'}, g'.im.recAt o = some r'
      → ∃ r, g.im.recAt o = some r ∧ r.SameShape r')
    (recs' : ∀ {o r}, g.im.recAt o = some r
      → ∃ r', g'.im.recAt o = some r' ∧ r.SameShape r')
    (chunks : ∀ c, (g'.im.chunkAt c).map (·.bytes.length)
      = (g.im.chunkAt c).map (·.bytes.length))
    (orphans : g'.orphan = g.orphan)
    : Regions g' := by
  have forth : ∀ {c d}, g.im.chunkAt c = some d
      → ∃ d', g'.im.chunkAt c = some d' ∧ d'.bytes.length = d.bytes.length := by
    intro c d found
    simpa [found] using chunks c
  have back : ∀ {c d'}, g'.im.chunkAt c = some d' → ∃ d, g.im.chunkAt c = some d := by
    intro c d' found
    cases old : g.im.chunkAt c with
    | some d => exact ⟨d, rfl⟩
    | none => simpa [found, old] using chunks c
  refine ⟨?_, ?_, ?_, ?_⟩
  · intro o r' found'
    obtain ⟨r, found, -, off, len⟩ := recs found'
    obtain ⟨d, chunk, length⟩ := ok.exists_ found
    obtain ⟨d', chunk', same⟩ := forth chunk
    exact ⟨d', by rw [off]; exact chunk', by rw [same, length, len]⟩
  · intro o o' r₁ r₂ found₁ found₂ same
    obtain ⟨x₁, old₁, -, off₁, -⟩ := recs found₁
    obtain ⟨x₂, old₂, -, off₂, -⟩ := recs found₂
    exact ok.unique old₁ old₂ (by rw [← off₁, ← off₂, same])
  · intro c d' found'
    obtain ⟨d, found⟩ := back found'
    rw [orphans]
    refine (ok.named found).imp_left ?_
    rintro ⟨o, r, old, off⟩
    obtain ⟨r', new, -, off', -⟩ := recs' old
    exact ⟨o, r', new, off'.trans off⟩
  · intro q c mine
    rw [orphans] at mine
    obtain ⟨⟨d, found⟩, unnamed, only⟩ := ok.orphan mine
    obtain ⟨d', found', -⟩ := forth found
    refine ⟨⟨d', found'⟩, ?_, by rw [orphans]; exact only⟩
    intro o r' new
    obtain ⟨r, old, -, off, -⟩ := recs new
    rw [off]
    exact unnamed old

end Minions.Db
