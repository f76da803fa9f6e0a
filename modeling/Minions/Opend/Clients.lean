import Mathlib.Data.List.Perm.Basic
import Mathlib.Data.List.Nodup

/-! The table of connected clients of the open server: `client.c`.
An entry whose descriptor is -1 is available. New clients take the first available entry; a
full table grows.
-/

namespace Minions.Opend

def clientNAlloc : Nat := 10

/-- `Client`. The user id of an entry that was never used is not set. -/
structure Client where
  fd : Int
  uid : Option Nat
  deriving DecidableEq

/-- The entry is available. -/
def Client.free (c : Client) : Bool := c.fd = -1

def clientAlloc (client : List Client) : List Client :=
  client ++ List.replicate clientNAlloc { fd := -1, uid := none }

/-- The first available entry is taken, where there is one. -/
def claim (client : List Client) (fd : Int) (uid : Nat) : Option (Nat × List Client) :=
  (client.findIdx? Client.free).map fun i => (i, client.set i { fd, uid := some uid })

/-- `client_add`: the index of the entry, and the table. -/
def clientAdd (client : List Client) (fd : Int) (uid : Nat) : Option (Nat × List Client) :=
  match claim client fd uid with
  | some found => some found
  | none => claim (clientAlloc client) fd uid

/-- `client_del`, which quits where no entry has the descriptor. -/
def clientDel (client : List Client) (fd : Int) : Option (List Client) :=
  (client.findIdx? fun c => c.fd = fd).map fun i =>
    client.modify i fun c => { c with fd := -1 }

/-- The entries in use: their descriptors and user ids. -/
def held (client : List Client) : List (Int × Option Nat) :=
  (client.filter fun c => !c.free).map fun c => (c.fd, c.uid)

/-- A request, or the logged close of a connection: the descriptor, the user id that `loop`
passes, and the one that `serv_accept` returned for the connection on the descriptor.
-/
structure Attribution where
  fd : Int
  uid : Option Nat
  owner : Option Nat
  deriving DecidableEq

/-- The user id that `loop` passed is the one of the connection on the descriptor. -/
def Attribution.Right (a : Attribution) : Prop :=
  ∃ uid, a.uid = some uid ∧ a.owner = some uid

-----------------------------------------------------------------------------------------
-- Entries in use
-----------------------------------------------------------------------------------------

/-- The first entry with a property splits the table. -/
theorem split_of_findIdx {α : Type} {p : α → Bool} {l : List α} {i : Nat}
    (found : l.findIdx? p = some i)
    : ∃ before a after, l = before ++ a :: after ∧ before.length = i ∧ p a
      ∧ ∀ b ∈ before, ¬ p b := by
  obtain ⟨inside, holds, earlier⟩ := List.findIdx?_eq_some_iff_getElem.mp found
  refine ⟨l.take i, l[i], l.drop (i + 1), ?_, by simp; omega, holds, ?_⟩
  · rw [List.getElem_cons_drop, List.take_append_drop]
  · intro b mem
    obtain ⟨j, hj, rfl⟩ := List.getElem_of_mem mem
    rw [List.length_take] at hj
    rw [List.getElem_take]
    exact earlier j (by omega)

/-- The connections of two parts of the table. -/
theorem held_append (client more : List Client)
    : held (client ++ more) = held client ++ held more := by
  simp [held]

/-- A free entry holds no connection. -/
theorem held_cons_free {c : Client} (free : c.free) (client : List Client)
    : held (c :: client) = held client := by
  simp [held, free]

/-- An entry in use holds its connection. -/
theorem held_cons_used {c : Client} (used : ¬ c.free) (client : List Client)
    : held (c :: client) = (c.fd, c.uid) :: held client := by
  simp [held, used]

/-- A table that is enlarged holds the same connections. -/
theorem held_clientAlloc (client : List Client)
    : held (clientAlloc client) = held client := by
  rw [clientAlloc, held_append]
  simp [held, Client.free]

/-- What a claim leaves: the entry at the index, the first available one, is in use. -/
theorem claim_split {client client' : List Client} {fd : Int} {uid i : Nat}
    (h : claim client fd uid = some (i, client'))
    : ∃ before c after, client = before ++ c :: after ∧ before.length = i ∧ c.free
      ∧ (∀ b ∈ before, ¬ b.free) ∧ client' = before ++ { fd, uid := some uid } :: after := by
  obtain ⟨j, found, same⟩ := Option.map_eq_some_iff.mp h
  cases same
  obtain ⟨before, c, after, rfl, len, free, earlier⟩ := split_of_findIdx found
  refine ⟨before, c, after, rfl, len, free, earlier, ?_⟩
  rw [← len]
  simp

/-- A claim fails only where no entry is available. -/
theorem claim_isSome {client : List Client} {c : Client} (mem : c ∈ client) (free : c.free)
    (fd : Int) (uid : Nat)
    : ∃ found, claim client fd uid = some found := by
  unfold claim
  rw [List.findIdx?_eq_some_of_exists ⟨c, mem, free⟩]
  exact ⟨_, rfl⟩

/-- `client_add` takes the first available entry of the table, or of the grown table where all
entries are in use.
-/
theorem clientAdd_split (client : List Client) (fd : Int) (uid : Nat)
    : ∃ before c after, clientAdd client fd uid
        = some (before.length, before ++ { fd, uid := some uid } :: after)
      ∧ (client = before ++ c :: after ∨ clientAlloc client = before ++ c :: after)
      ∧ c.free ∧ ∀ b ∈ before, ¬ b.free := by
  unfold clientAdd
  split
  · next found here =>
      obtain ⟨i, client'⟩ := found
      obtain ⟨before, c, after, split, rfl, free, earlier, rfl⟩ := claim_split here
      exact ⟨before, c, after, rfl, .inl split, free, earlier⟩
  · have new : { fd := -1, uid := none } ∈ clientAlloc client := by
      simp [clientAlloc, clientNAlloc]
    obtain ⟨⟨i, client'⟩, here⟩ := claim_isSome new rfl fd uid
    obtain ⟨before, c, after, split, rfl, free, earlier, rfl⟩ := claim_split here
    exact ⟨before, c, after, here, .inr split, free, earlier⟩

/-- `client_add` always succeeds, and puts one entry in use. -/
theorem clientAdd_held (client : List Client) {fd : Int} (used : fd ≠ -1) (uid : Nat)
    : ∃ i client', clientAdd client fd uid = some (i, client')
      ∧ (held client').Perm ((fd, some uid) :: held client) := by
  obtain ⟨before, c, after, added, from_, free, -⟩ := clientAdd_split client fd uid
  have base : held client = held before ++ held after := by
    rcases from_ with same | same
    · rw [same, held_append, held_cons_free free]
    · rw [← held_clientAlloc, same, held_append, held_cons_free free]
  refine ⟨_, _, added, ?_⟩
  rw [base, held_append, held_cons_used (by simp [Client.free, used])]
  exact List.perm_middle

/-- `client_del` of a descriptor in use finds its first entry and makes it available. -/
theorem clientDel_split {client client' : List Client} {fd : Int}
    (h : clientDel client fd = some client')
    : ∃ before c after, client = before ++ c :: after ∧ c.fd = fd
      ∧ (∀ b ∈ before, b.fd ≠ fd) ∧ client' = before ++ { c with fd := -1 } :: after := by
  obtain ⟨i, found, rfl⟩ := Option.map_eq_some_iff.mp h
  obtain ⟨before, c, after, rfl, len, same, earlier⟩ := split_of_findIdx found
  refine ⟨before, c, after, rfl, by simpa using same, fun b mem => by simpa using earlier b mem, ?_⟩
  subst len
  rw [List.modify_eq_set_getElem? ]
  simp

/-- Deletion takes one connection away. -/
theorem clientDel_held {client : List Client} {fd : Int} (used : fd ≠ -1)
    (mem : fd ∈ (held client).map Prod.fst)
    : ∃ client' uid, clientDel client fd = some client'
      ∧ (held client).Perm ((fd, uid) :: held client') := by
  have found : ∃ c ∈ client, decide (c.fd = fd) = true := by
    simp only [held, List.map_map, List.mem_map, List.mem_filter, Function.comp] at mem
    obtain ⟨c, ⟨here, _⟩, same⟩ := mem
    exact ⟨c, here, by simpa using same⟩
  have deleted : ∃ client', clientDel client fd = some client' := by
    unfold clientDel
    rw [List.findIdx?_eq_some_of_exists found]
    exact ⟨_, rfl⟩
  obtain ⟨client', here⟩ := deleted
  obtain ⟨before, c, after, rfl, same, -, rfl⟩ := clientDel_split here
  refine ⟨_, c.uid, here, ?_⟩
  rw [held_append, held_append, held_cons_used (by simp [Client.free, same, used]),
    held_cons_free (by simp [Client.free]), same]
  exact List.perm_middle

/-- Where the table holds some entries with distinct descriptors, `client_del` leaves the
others.
-/
theorem clientDel_filter {client : List Client} {entries : List (Int × Option Nat)} {fd : Int}
    (table : (held client).Perm entries) (distinct : (entries.map Prod.fst).Nodup)
    (used : fd ≠ -1) (mem : fd ∈ entries.map Prod.fst)
    : ∃ client', clientDel client fd = some client'
      ∧ (held client').Perm (entries.filter fun entry => entry.1 ≠ fd) := by
  have fsts := table.map Prod.fst
  obtain ⟨client', uid, deleted, before⟩ := clientDel_held used (fsts.mem_iff.mpr mem)
  refine ⟨client', deleted, ?_⟩
  have gone : fd ∉ (held client').map Prod.fst := by
    have nodup := ((before.map Prod.fst).symm.trans fsts).nodup_iff.mpr distinct
    exact (List.nodup_cons.mp nodup).1
  have kept : (held client').filter (fun entry => decide (entry.1 ≠ fd)) = held client' := by
    apply List.filter_eq_self.mpr
    intro entry mem
    have : entry.1 ≠ fd := fun same => gone (same ▸ List.mem_map_of_mem mem)
    simpa using this
  have both := (before.symm.trans table).filter fun entry => decide (entry.1 ≠ fd)
  rwa [List.filter_cons_of_neg (by simp), kept] at both

/-- In distinct connections each descriptor leads to its user id. -/
theorem lookup_of_mem {opened : List (Int × Nat)} {fd : Int} {uid : Nat}
    (distinct : (opened.map Prod.fst).Nodup) (mem : (fd, uid) ∈ opened)
    : opened.lookup fd = some uid := by
  induction opened with
  | nil => simp at mem
  | cons entry rest ih =>
      obtain ⟨fd', uid'⟩ := entry
      obtain ⟨apart, distinct⟩ := List.nodup_cons.mp distinct
      rcases List.mem_cons.mp mem with same | mem
      · cases same
        simp
      · have other : fd ≠ fd' := fun eq => apart (List.mem_map.mpr ⟨_, mem, eq⟩)
        rw [List.lookup_cons, beq_false_of_ne other]
        exact ih distinct mem

/-- An entry with the descriptor and the user id of a connection attributes it rightly. -/
theorem right_of_mem {opened : List (Int × Nat)} {fd : Int} {uid : Option Nat}
    (distinct : (opened.map Prod.fst).Nodup)
    (mem : (fd, uid) ∈ opened.map fun entry => (entry.1, some entry.2))
    : Attribution.Right ⟨fd, uid, opened.lookup fd⟩ := by
  obtain ⟨⟨fd', uid'⟩, found, same⟩ := List.mem_map.mp mem
  obtain rfl : fd' = fd := congrArg Prod.fst same
  have own : some uid' = uid := congrArg Prod.snd same
  exact ⟨uid', own.symm, lookup_of_mem distinct found⟩

/-- An entry in use is held. -/
theorem mem_held {client : List Client} {c : Client} (mem : c ∈ client) (used : c.fd ≠ -1)
    : (c.fd, c.uid) ∈ held client := by
  apply List.mem_map.mpr
  refine ⟨c, List.mem_filter.mpr ⟨mem, ?_⟩, rfl⟩
  simpa [Client.free] using used

end Minions.Opend
