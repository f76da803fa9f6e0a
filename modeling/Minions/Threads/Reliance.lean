import Mathlib.Algebra.Order.BigOperators.Group.Finset
import Minions.Data.CInt
import Minions.Data.LinkedList
import Minions.Threads.Mutex2

/-! What the threads of `mutex2.c` can rely on.
An object is hidden while it is on no chain: one thread owns its only reference, and no other
thread can reach it. The chains change under `hashlock`, the counts under the lock of their
object.
-/

namespace Minions.Threads.Mutex2

open Minions.Data Minions.Logic

/-- The thread has locked `hashlock`. -/
def Loc.holdsHash : Loc → Bool
  | .allocInsert .. | .allocLock _ | .allocUnlockHash _ | .findHead _ | .findScan ..
  | .findUnlockHash _ | .releRelock _ | .releRecheck _ | .droppedUnlockBoth _
  | .droppedUnlockHash | .lastWalk .. | .lastUnlockHash _ => true
  | .holdLock _ finding | .holdIncrement _ finding | .holdUnlock _ finding => finding
  | _ => false

/-- The object that the thread has locked. -/
def Loc.holds : Loc → Option Nat
  | .allocUnlockHash fp | .allocUnlock fp | .holdIncrement fp _ | .holdUnlock fp _ | .releTest fp
  | .releUnlockGap fp | .releRecheck fp | .droppedUnlock fp | .droppedUnlockBoth fp
  | .lastWalk fp _ | .lastUnlockHash fp | .lastUnlock fp => some fp
  | _ => none

/-- The object that only this thread can reach. -/
def Loc.hides : Loc → Option Nat
  | .allocLockHash fp _ | .allocInsert fp _ | .lastUnlockHash fp | .lastUnlock fp
  | .lastDestroy fp => some fp
  | _ => none

/-- The object to which the thread adds a reference next. -/
def Loc.increments : Loc → Option Nat
  | .holdIncrement fp _ => some fp
  | _ => none

/-- The two places hold the same locks and hide the same object. -/
def Loc.Alike (loc next : Loc) : Prop :=
  next.holdsHash = loc.holdsHash ∧ next.holds = loc.holds ∧ next.hides = loc.hides

variable {ι : Type}

/-- What a chain is threaded through: its head, as cell 0, and the `f_next` of the objects. -/
def cells (s : State ι) (idx : Fin nHash) (a : Nat) : Option Nat :=
  if a = 0 then some (s.fh idx) else (s.heap a).map Foo.fNext

/-- The object is between its insertion and its removal, and this is the chain of its `f_id`. -/
def Listed (s : State ι) (idx : Fin nHash) (fp : Nat) : Prop :=
  s.linked fp ∧ ∃ foo, s.heap fp = some foo ∧ hash foo.fId = idx

/-- `tfp` stands before `fp` on the chain of `fp`. -/
def Before (s : State ι) (tfp fp : Nat) : Prop :=
  ∃ foo front middle back, s.heap fp = some foo
    ∧ Linked (cells s (hash foo.fId)) 0 (front ++ tfp :: (middle ++ fp :: back))

/-- Who holds the locks. -/
structure Locks (s : State ι) : Prop where
  hash : ∀ t, s.hashlock = some t ↔ (s.loc t).holdsHash
  object : ∀ t fp, (s.loc t).holds = some fp ↔ ∃ foo, s.heap fp = some foo ∧ foo.fLock = some t

variable {s s' : State ι} {t u : ι} {fp : Nat} {foo : Foo ι} {loc next : Loc}

/-- Two threads do not hold the same lock. -/
theorem Locks.object_unique (locks : Locks s) (first : (s.loc t).holds = some fp)
    (second : (s.loc u).holds = some fp)
    : t = u := by
  obtain ⟨foo, live, lock⟩ := (locks.object t fp).mp first
  obtain ⟨foo', live', lock'⟩ := (locks.object u fp).mp second
  rw [live] at live'
  cases live'
  rw [lock] at lock'
  exact Option.some.inj lock'

/-- Only one thread holds the hash lock. -/
theorem Locks.hash_unique (locks : Locks s) (first : (s.loc t).holdsHash)
    (second : (s.loc u).holdsHash)
    : t = u := by
  have held := (locks.hash t).mpr first
  rw [(locks.hash u).mpr second] at held
  exact (Option.some.inj held).symm

/-- What `hashlock` protects of an object on a chain. -/
def Foo.links (foo : Foo ι) : Int32 × Nat := (foo.fId, foo.fNext)

/-- An object that keeps its `f_id` and `f_next` is still an object. -/
theorem live_of_links {heap heap' : Option (Foo ι)}
    (same : heap'.map Foo.links = heap.map Foo.links) (live : heap = some foo)
    : ∃ foo', heap' = some foo' ∧ foo'.fId = foo.fId := by
  rw [live] at same
  obtain ⟨foo', live', fields⟩ := Option.map_eq_some_iff.mp same
  exact ⟨foo', live', congrArg Prod.fst fields⟩

/-- A chain depends on its head and on the links of its objects. -/
theorem linked_of_links {idx : Fin nHash} {chain : List Nat} (h : Linked (cells s idx) 0 chain)
    (head : s'.fh idx = s.fh idx)
    (same : ∀ fp ∈ chain, (s'.heap fp).map Foo.links = (s.heap fp).map Foo.links)
    : Linked (cells s' idx) 0 chain := by
  apply h.congr
  intro b hb
  rcases List.mem_cons.mp hb with rfl | member
  · simp [cells, head]
  · have links := congrArg (Option.map Prod.snd) (same b member)
    simp only [Option.map_map] at links
    simp only [cells, h.ne_zero member, if_false]
    exact links

/-- A listed object stays listed while the links stay. -/
theorem Listed.of_links {idx : Fin nHash} (h : Listed s idx fp) (linked : s'.linked fp)
    (same : (s'.heap fp).map Foo.links = (s.heap fp).map Foo.links)
    : Listed s' idx fp := by
  obtain ⟨-, foo, live, bucket⟩ := h
  obtain ⟨foo', live', id⟩ := live_of_links same live
  exact ⟨linked, foo', live', by rw [id]; exact bucket⟩

/-- The chains. -/
structure Chains (s : State ι) : Prop where
  chain : ∀ idx, ∃ chain, Linked (cells s idx) 0 chain ∧ ∀ fp, fp ∈ chain ↔ Listed s idx fp
  off : ∀ fp foo, s.heap fp = some foo → s.linked fp = false → ∃ t, (s.loc t).hides = some fp

/-- Every object on a chain is linked. -/
theorem Chains.linked_of_mem (chains : Chains s) {idx : Fin nHash} {chain : List Nat}
    (h : Linked (cells s idx) 0 chain) (member : fp ∈ chain)
    : s.linked fp := by
  obtain ⟨chain', h', listed⟩ := chains.chain idx
  rw [h.unique h'] at member
  exact ((listed fp).mp member).1

variable [Fintype ι]

/-- The number of references that threads own on an object. -/
def references (s : State ι) (fp : Nat) : Nat := ∑ t, s.owned t fp

/-- The event adds no reference to an object that has `INT_MAX` of them. -/
def Below (s : State ι) : Event ι → Prop
  | .run t => ∀ fp ∈ (s.loc t).increments, references s fp < INT_MAX
  | _ => True

instance (s : State ι) (event : Event ι) : Decidable (Below s event) := by
  cases event <;> unfold Below <;> infer_instance

/-- The thread owns the only reference, and the object is on no chain. -/
def Hidden (s : State ι) (t : ι) (fp : Nat) : Prop :=
  s.owned t fp = 1 ∧ references s fp = 1 ∧ s.linked fp = false

/-- What a thread knows at its place. -/
def AtLoc (s : State ι) (t : ι) : Loc → Prop
  | .idle fp | .findUnlockHash fp => fp = 0 ∨ 0 < s.owned t fp
  | .allocLockHash fp idx | .allocInsert fp idx =>
      Hidden s t fp ∧ ∃ foo, s.heap fp = some foo ∧ foo.fLock = none ∧ hash foo.fId = idx
  | .holdLock fp true | .holdIncrement fp true => s.linked fp
  | .findScan id fp => fp = 0 ∨ Listed s (hash id) fp
  | .lastWalk fp tfp => s.owned t fp = 1 ∧ references s fp = 1 ∧ Before s tfp fp
  | .lastUnlockHash fp | .lastUnlock fp => Hidden s t fp
  | .lastDestroy fp => Hidden s t fp ∧ ∃ foo, s.heap fp = some foo ∧ foo.fLock = none
  | .allocLock fp | .allocUnlockHash fp | .allocUnlock fp | .holdLock fp false
  | .holdIncrement fp false | .holdUnlock fp _ | .releLock fp | .releTest fp
  | .releUnlockGap fp | .releLockHash fp | .releRelock fp | .releRecheck fp => 0 < s.owned t fp
  | .findLockHash _ | .findHead _ | .droppedUnlock _ | .droppedUnlockBoth _
  | .droppedUnlockHash => True

/-- The counts, and which objects there are. -/
structure Counts (s : State ι) : Prop where
  live : ∀ fp foo, s.heap fp = some foo →
    foo.fCount.toInt = references s fp ∧ 0 < references s fp
  dead : ∀ fp, s.heap fp = none → references s fp = 0 ∧ s.linked fp = false
  allocated : ∀ fp, (fp ∈ s.freed ∨ (s.heap fp).isSome) ↔ 0 < fp ∧ fp ≤ s.allocated
  freed : ∀ fp ∈ s.freed, s.heap fp = none
  once : s.freed.Nodup

structure Inv (s : State ι) : Prop where
  locks : Locks s
  counts : Counts s
  chains : Chains s
  at_ : ∀ t, AtLoc s t (s.loc t)
  sane : s.faulted = false

/-- A thread's references are among all of them. -/
theorem owned_le_references (s : State ι) (t : ι) (fp : Nat)
    : s.owned t fp ≤ references s fp :=
  Finset.single_le_sum (f := fun u => s.owned u fp) (fun _ _ => Nat.zero_le _) (Finset.mem_univ t)

/-- Where one thread owns the only reference, no other owns one. -/
theorem Hidden.alone (hidden : Hidden s t fp) (other : u ≠ t)
    : s.owned u fp = 0 := by
  have both : s.owned t fp + s.owned u fp ≤ references s fp :=
    Finset.add_le_sum (f := fun v => s.owned v fp) (fun _ _ => Nat.zero_le _)
      (Finset.mem_univ t) (Finset.mem_univ u) other.symm
  obtain ⟨owned, sole, -⟩ := hidden
  omega

/-- A thread at such a place hides the object. -/
theorem AtLoc.hidden (at_ : AtLoc s t loc) (hides : loc.hides = some fp)
    : Hidden s t fp := by
  cases loc <;> cases hides
  case allocLockHash => exact at_.1
  case allocInsert => exact at_.1
  case lastUnlockHash => exact at_
  case lastUnlock => exact at_
  case lastDestroy => exact at_.1

/-- A hidden object is locked by the thread that hides it, or not at all. -/
theorem AtLoc.hidden_lock (at_ : AtLoc s t loc) (hides : loc.hides = some fp)
    : loc.holds = some fp ∨ ∃ foo, s.heap fp = some foo ∧ foo.fLock = none := by
  cases loc <;> cases hides
  case allocLockHash =>
    obtain ⟨-, foo, live, free, -⟩ := at_
    exact .inr ⟨foo, live, free⟩
  case allocInsert =>
    obtain ⟨-, foo, live, free, -⟩ := at_
    exact .inr ⟨foo, live, free⟩
  case lastUnlockHash => exact .inl rfl
  case lastUnlock => exact .inl rfl
  case lastDestroy => exact .inr at_.2

/-- A thread with a reference is at an object that is not freed. -/
theorem Counts.live_of_owned (counts : Counts s) (owns : 0 < s.owned t fp)
    : ∃ foo, s.heap fp = some foo := by
  cases live : s.heap fp with
  | some foo => exact ⟨foo, rfl⟩
  | none =>
      have := (counts.dead fp live).1
      have := owned_le_references s t fp
      omega

/-- A linked object is live. -/
theorem Counts.live_of_linked (counts : Counts s) (linked : s.linked fp)
    : ∃ foo, s.heap fp = some foo := by
  cases live : s.heap fp with
  | some foo => exact ⟨foo, rfl⟩
  | none => simp [(counts.dead fp live).2] at linked

/-- An object that one thread hides, no other thread owns or has locked. -/
theorem Inv.hidden_alone (inv : Inv s) (hides : (s.loc u).hides = some fp) (other : t ≠ u)
    : s.owned t fp = 0 ∧ s.linked fp = false ∧ (s.loc t).holds ≠ some fp := by
  have hidden := (inv.at_ u).hidden hides
  refine ⟨hidden.alone other, hidden.2.2, ?_⟩
  intro locked
  obtain ⟨foo, live, lock⟩ := (inv.locks.object t fp).mp locked
  rcases (inv.at_ u).hidden_lock hides with mine | ⟨foo', live', free⟩
  · obtain ⟨foo', live', lock'⟩ := (inv.locks.object u fp).mp mine
    rw [live] at live'
    cases live'
    rw [lock] at lock'
    exact other (Option.some.inj lock')
  · rw [live] at live'
    cases live'
    rw [lock] at free
    cases free

-----------------------------------------------------------------------------------------
-- What the other threads leave
-----------------------------------------------------------------------------------------

/-- What a step of another thread leaves to thread `t`. -/
structure Rely (t : ι) (s s' : State ι) : Prop where
  loc : s'.loc t = s.loc t
  owned : s'.owned t = s.owned t
  hidden : ∀ fp, (s.loc t).hides = some fp →
    s'.linked fp = false ∧ references s' fp = references s fp ∧ s'.heap fp = s.heap fp
  hash : (s.loc t).holdsHash → s'.fh = s.fh ∧ ∀ fp, s.linked fp → s'.linked fp
    ∧ (s'.heap fp).map Foo.links = (s.heap fp).map Foo.links
  object : ∀ fp, (s.loc t).holds = some fp → references s' fp = references s fp

/-- What is hidden stays so while others step. -/
theorem Rely.hidden_of (rely : Rely t s s') (hides : (s.loc t).hides = some fp)
    (hidden : Hidden s t fp)
    : Hidden s' t fp := by
  obtain ⟨off, same, -⟩ := rely.hidden fp hides
  obtain ⟨owned, sole, -⟩ := hidden
  exact ⟨by rw [rely.owned]; exact owned, same.trans sole, off⟩

/-- What comes before an object stays so while others step. -/
theorem Rely.before (rely : Rely t s s') (chains : Chains s) (holds : (s.loc t).holdsHash)
    {tfp : Nat} (h : Before s tfp fp)
    : Before s' tfp fp := by
  obtain ⟨foo, front, middle, back, live, path⟩ := h
  obtain ⟨head, others⟩ := rely.hash holds
  have same : ∀ fq ∈ front ++ tfp :: (middle ++ fp :: back),
      (s'.heap fq).map Foo.links = (s.heap fq).map Foo.links := by
    intro fq member
    exact (others fq (chains.linked_of_mem path member)).2
  obtain ⟨foo', live', id⟩ := live_of_links (same fp (by simp)) live
  refine ⟨foo', front, middle, back, live', ?_⟩
  rw [id]
  exact linked_of_links path (by rw [head]) same

/-- What a thread knows at its place stays true while other threads take steps. -/
theorem Rely.atLoc (rely : Rely t s s') (inv : Inv s)
    : AtLoc s' t (s'.loc t) := by
  have at_ := inv.at_ t
  have hides := rely.hidden
  have hash := rely.hash
  have hidden : ∀ fp, (s.loc t).hides = some fp → Hidden s' t fp :=
    fun fp hides => rely.hidden_of hides (at_.hidden hides)
  rw [rely.loc]
  cases here : s.loc t <;> rw [here] at at_ hides hash hidden <;> simp only [AtLoc, rely.owned]
  case findScan id fp =>
    rcases at_ with null | listed
    · exact .inl null
    · obtain ⟨linked, same⟩ := (hash rfl).2 fp listed.1
      exact .inr (listed.of_links linked same)
  case allocLockHash fp idx =>
    refine ⟨hidden fp rfl, ?_⟩
    rw [(hides fp rfl).2.2]
    exact at_.2
  case allocInsert fp idx =>
    refine ⟨hidden fp rfl, ?_⟩
    rw [(hides fp rfl).2.2]
    exact at_.2
  case lastDestroy fp =>
    refine ⟨hidden fp rfl, ?_⟩
    rw [(hides fp rfl).2.2]
    exact at_.2
  case lastUnlockHash fp => exact hidden fp rfl
  case lastUnlock fp => exact hidden fp rfl
  case lastWalk fp tfp =>
    obtain ⟨owned, sole, before⟩ := at_
    refine ⟨owned, ?_, rely.before inv.chains (by rw [here]; rfl) before⟩
    rw [rely.object fp (by rw [here]; rfl)]
    exact sole
  case holdLock fp finding =>
    cases finding with
    | true => exact ((hash rfl).2 fp at_).1
    | false => simpa [AtLoc, rely.owned] using at_
  case holdIncrement fp finding =>
    cases finding with
    | true => exact ((hash rfl).2 fp at_).1
    | false => simpa [AtLoc, rely.owned] using at_
  all_goals exact at_

-----------------------------------------------------------------------------------------
-- One thread takes a step
-----------------------------------------------------------------------------------------

variable [DecidableEq ι]

/-- A thread changes the number of its references, and the sum changes by as much. -/
theorem references_setOwned (s : State ι) (t : ι) (fp n : Nat)
    : references (s.setOwned t fp n) fp + s.owned t fp = references s fp + n := by
  have split : ∀ owned : ι → Nat → Nat, ∑ v, owned v fp
      = owned t fp + ∑ v ∈ Finset.univ.erase t, owned v fp := by
    intro owned
    exact (Finset.add_sum_erase Finset.univ (fun v => owned v fp) (Finset.mem_univ t)).symm
  have others : ∑ v ∈ Finset.univ.erase t, (s.setOwned t fp n).owned v fp
      = ∑ v ∈ Finset.univ.erase t, s.owned v fp := by
    apply Finset.sum_congr rfl
    intro v hv
    simp [State.setOwned, Function.update_of_ne (Finset.ne_of_mem_erase hv)]
  unfold references
  rw [split, split s.owned, others]
  simp [State.setOwned]
  omega

/-- The references to other objects stay. -/
theorem references_setOwned_of_ne {fq : Nat} (s : State ι) (t : ι) (n : Nat) (other : fq ≠ fp)
    : references (s.setOwned t fp n) fq = references s fq := by
  apply Finset.sum_congr rfl
  intro v _
  by_cases same : v = t
  · subst same
    simp [State.setOwned, other]
  · simp [State.setOwned, same]

omit [Fintype ι] [DecidableEq ι] in
/-- A property of places that the step keeps, every thread keeps. -/
theorem update_keeps [DecidableEq ι] {α : Type} {f : Loc → α} {locs : ι → Loc}
    (same : f next = f (locs t)) (u : ι)
    : f (Function.update locs t next u) = f (locs u) := by
  by_cases this : u = t
  · subst this
    rw [Function.update_self, same]
  · rw [Function.update_of_ne this]

omit [Fintype ι] in
/-- The locks stay as they are. -/
theorem Locks.keep (locks : Locks s) (moved : s'.loc = Function.update s.loc t next)
    (hashlock : s'.hashlock = s.hashlock)
    (fLock : ∀ fp, (s'.heap fp).bind Foo.fLock = (s.heap fp).bind Foo.fLock)
    (hash : next.holdsHash = (s.loc t).holdsHash) (object : next.holds = (s.loc t).holds)
    : Locks s' := by
  constructor
  · intro u
    rw [moved, update_keeps hash, hashlock]
    exact locks.hash u
  · intro u fp
    rw [moved, update_keeps object, ← Option.bind_eq_some_iff, fLock, Option.bind_eq_some_iff]
    exact locks.object u fp

omit [DecidableEq ι] in
/-- A step that leaves what is counted keeps the counts. -/
theorem Counts.keep (counts : Counts s) (owned : s'.owned = s.owned)
    (fCount : ∀ fp, (s'.heap fp).map Foo.fCount = (s.heap fp).map Foo.fCount)
    (allocated : s'.allocated = s.allocated) (freed : s'.freed = s.freed)
    (linked : ∀ fp, s.heap fp = none → s'.linked fp = false)
    : Counts s' := by
  have same : references s' = references s := by
    unfold references
    rw [owned]
  have dead : ∀ fp, s'.heap fp = none ↔ s.heap fp = none := by
    intro fp
    rw [← Option.map_eq_none_iff (f := Foo.fCount), fCount, Option.map_eq_none_iff]
  have live : ∀ fp, (s'.heap fp).isSome = (s.heap fp).isSome := by
    intro fp
    have := congrArg Option.isSome (fCount fp)
    simpa using this
  constructor
  case live =>
    intro fp foo' hfoo'
    have := fCount fp
    rw [hfoo'] at this
    obtain ⟨foo, hfoo, count⟩ := Option.map_eq_some_iff.mp this.symm
    rw [same, ← count]
    exact counts.live fp foo hfoo
  case dead =>
    intro fp hdead
    rw [dead] at hdead
    rw [same]
    exact ⟨(counts.dead fp hdead).1, linked fp hdead⟩
  case allocated =>
    intro fp
    rw [freed, live, allocated]
    exact counts.allocated fp
  case freed =>
    intro fp hfp
    rw [dead]
    rw [freed] at hfp
    exact counts.freed fp hfp
  case once =>
    rw [freed]
    exact counts.once

omit [Fintype ι] [DecidableEq ι] in
/-- The chains stay as they are where the linked objects keep their links. -/
theorem Chains.chain_keep (chains : Chains s) (fh : s'.fh = s.fh) (linked : s'.linked = s.linked)
    (links : ∀ fp, s.linked fp → (s'.heap fp).map Foo.links = (s.heap fp).map Foo.links)
    (idx : Fin nHash)
    : ∃ chain, Linked (cells s' idx) 0 chain ∧ ∀ fp, fp ∈ chain ↔ Listed s' idx fp := by
  obtain ⟨chain, path, listed⟩ := chains.chain idx
  refine ⟨chain, linked_of_links path (by rw [fh]) fun fp member => ?_, ?_⟩
  · exact links fp (chains.linked_of_mem path member)
  · intro fp
    rw [listed]
    constructor
    · intro h
      exact h.of_links (by rw [linked]; exact h.1) (links fp h.1)
    · intro h
      have on : s.linked fp := by
        rw [← linked]
        exact h.1
      exact h.of_links on (links fp on).symm

omit [Fintype ι] in
/-- The chains stay as they are, and so does what the threads hide. -/
theorem Chains.keep (chains : Chains s) (moved : s'.loc = Function.update s.loc t next)
    (fh : s'.fh = s.fh) (linked : s'.linked = s.linked)
    (links : ∀ fp, (s'.heap fp).map Foo.links = (s.heap fp).map Foo.links)
    (hides : next.hides = (s.loc t).hides)
    : Chains s' := by
  refine ⟨chains.chain_keep fh linked fun fp _ => links fp, ?_⟩
  intro fp foo' hfoo' off
  obtain ⟨foo, hfoo, -⟩ := live_of_links (links fp).symm hfoo'
  rw [linked] at off
  obtain ⟨u, hu⟩ := chains.off fp foo hfoo off
  exact ⟨u, by rw [moved, update_keeps hides]; exact hu⟩

/-- A step that changes one object at most, and no chain. -/
theorem Inv.rely (inv : Inv s) (other : u ≠ t) (moved : s'.loc = Function.update s.loc t next)
    (owned : s'.owned u = s.owned u) (fh : s'.fh = s.fh) (linked : s'.linked = s.linked)
    (links : ∀ fq, s.linked fq → (s'.heap fq).map Foo.links = (s.heap fq).map Foo.links)
    (heap : ∀ fq, fq ≠ fp → s'.heap fq = s.heap fq)
    (refs : ∀ fq, fq ≠ fp → references s' fq = references s fq)
    (shown : (s.loc u).hides ≠ some fp)
    (unlocked : (s.loc u).holds = some fp → references s' fp = references s fp)
    : Rely u s s' := by
  constructor
  case loc => rw [moved, Function.update_of_ne other]
  case owned => exact owned
  case hidden =>
    intro fq hides
    have apart : fq ≠ fp := by
      intro same
      rw [same] at hides
      exact shown hides
    rw [linked]
    exact ⟨((inv.at_ u).hidden hides).2.2, refs fq apart, heap fq apart⟩
  case hash =>
    intro _
    refine ⟨fh, ?_⟩
    intro fq hlinked
    rw [linked]
    exact ⟨hlinked, links fq hlinked⟩
  case object =>
    intro fq holds
    by_cases same : fq = fp
    · rw [same] at holds ⊢
      exact unlocked holds
    · exact refs fq same

/-- One thread has taken a step, and the others rely on it. -/
theorem Inv.after (inv : Inv s) (t : ι) (locks : Locks s') (counts : Counts s')
    (chains : Chains s') (sane : s'.faulted = false) (others : ∀ u, u ≠ t → Rely u s s')
    (self : AtLoc s' t (s'.loc t))
    : Inv s' := by
  refine ⟨locks, counts, chains, ?_, sane⟩
  intro u
  by_cases same : u = t
  · rw [same]
    exact self
  · exact (others u same).atLoc inv

end Minions.Threads.Mutex2
