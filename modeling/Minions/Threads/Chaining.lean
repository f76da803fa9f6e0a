import Minions.Threads.Counting

/-! The chains of `mutex2.c`: an object is inserted at the head of its chain, found on it, and
removed from its head or from behind another object.
-/

namespace Minions.Threads.Mutex2

open Minions.Data

variable {ι : Type} {s s' : State ι} {t u : ι} {fp : Nat} {foo : Foo ι} {loc next : Loc}
variable [Fintype ι] [DecidableEq ι]

omit [DecidableEq ι] in
/-- A live object is not at the null pointer. -/
theorem Counts.ne_zero (counts : Counts s) (live : s.heap fp = some foo)
    : fp ≠ 0 := by
  have := (counts.allocated fp).mp (.inr (by simp [live]))
  omega

omit [Fintype ι] [DecidableEq ι] in
/-- An object at its head is on one chain more, and no other object is. -/
theorem Chains.link (chains : Chains s) (live : s.heap fp = some foo) (nonzero : fp ≠ 0)
    (off : s.linked fp = false) (idx : Fin nHash)
    : ∃ chain, Linked (cells (s.link fp (hash foo.fId) foo) idx) 0 chain
      ∧ ∀ fq, fq ∈ chain ↔ Listed (s.link fp (hash foo.fId) foo) idx fq := by
  obtain ⟨chain, path, listed⟩ := chains.chain idx
  have outside : fp ∉ chain := by
    intro member
    have := chains.linked_of_mem path member
    simp [off] at this
  have apart : ∀ fq ∈ chain, fq ≠ fp := by
    intro fq member eq
    exact outside (eq ▸ member)
  have others : ∀ fq, fq ≠ fp → (Listed (s.link fp (hash foo.fId) foo) idx fq ↔ fq ∈ chain) := by
    intro fq other
    rw [listed]
    simp [Listed, State.link, State.setFoo, Function.update_of_ne other]
  have this : Listed (s.link fp (hash foo.fId) foo) idx fp ↔ hash foo.fId = idx := by
    simp [Listed, State.link, State.setFoo]
  by_cases bucket : hash foo.fId = idx
  · refine ⟨fp :: chain, path.push (by simp [nonzero, outside]) nonzero ?_ ?_ ?_, ?_⟩
    · simp [cells, State.link, bucket]
    · simp [cells, State.link, State.setFoo, nonzero, bucket]
    · intro fq member
      simp [cells, State.link, State.setFoo, path.ne_zero member, apart fq member]
    · intro fq
      by_cases same : fq = fp
      · subst same
        exact iff_of_true (by simp) (this.mpr bucket)
      · simp [others fq same, same]
  · refine ⟨chain, linked_of_links path ?_ ?_, ?_⟩
    · simp [State.link, Function.update_of_ne (Ne.symm bucket)]
    · intro fq member
      simp [State.link, State.setFoo, apart fq member]
    · intro fq
      by_cases same : fq = fp
      · subst same
        simp [this, bucket, outside]
      · exact (others fq same).symm

/-- The insertion of a hidden object, under `hashlock`. -/
theorem Inv.link (inv : Inv s) {idx : Fin nHash} (here : s.loc t = .allocInsert fp idx)
    (live : s.heap fp = some foo)
    : Inv ((s.link fp idx foo).goto t (.allocLock fp)) := by
  have at_ := inv.at_ t
  rw [here] at at_
  obtain ⟨⟨owned, sole, off⟩, foo', live', -, bucket⟩ := at_
  cases live.symm.trans live'
  subst bucket
  have others : ∀ fq, fq ≠ fp → (s.link fp (hash foo.fId) foo).linked fq = s.linked fq :=
    fun fq other => Function.update_of_ne other _ _
  have this : (s.link fp (hash foo.fId) foo).linked fp = true := Function.update_self ..
  apply inv.after t
  case locks =>
    exact inv.locks.keep rfl rfl (bind_setFoo live rfl) (by rw [here]; rfl) (by rw [here]; rfl)
  case counts =>
    refine inv.counts.keep rfl (map_setFoo live rfl) rfl rfl ?_
    intro fq dead
    have other : fq ≠ fp := by
      intro eq
      rw [eq, live] at dead
      cases dead
    exact (others fq other).trans (inv.counts.dead fq dead).2
  case chains =>
    constructor
    · exact inv.chains.link live (inv.counts.ne_zero live) off
    · intro fq foo' hfoo' offChain
      have other : fq ≠ fp := by
        intro eq
        rw [eq] at offChain
        cases this.symm.trans offChain
      have hfoo : s.heap fq = some foo' := by
        rw [← hfoo']
        exact (Function.update_of_ne other _ _).symm
      obtain ⟨u, hides⟩ := inv.chains.off fq foo' hfoo ((others fq other).symm.trans offChain)
      have : u ≠ t := by
        intro eq
        rw [eq, here] at hides
        exact other (Option.some.inj hides).symm
      exact ⟨u, by rw [← hides]; exact congrArg _ (Function.update_of_ne this _ _)⟩
  case sane => exact inv.sane
  case others =>
    intro u other
    constructor
    case loc => exact Function.update_of_ne other _ _
    case owned => rfl
    case hidden =>
      intro fq hides
      have apart : fq ≠ fp := by
        intro eq
        have := (inv.hidden_alone (eq ▸ hides) other.symm).1
        omega
      refine ⟨(others fq apart).trans ((inv.at_ u).hidden hides).2.2, rfl, ?_⟩
      exact Function.update_of_ne apart _ _
    case hash =>
      intro holds
      exact absurd (inv.locks.hash_unique holds (by rw [here]; rfl)) other
    case object =>
      intro _ _
      rfl
  case self =>
    rw [goto_loc]
    show 0 < s.owned t fp
    omega

/-- What a removal from a chain keeps of every object. -/
def Foo.content (foo : Foo ι) : Int32 × Option ι × Int32 := (foo.fCount, foo.fLock, foo.fId)

/-- What a removal leaves: the cell before the object holds its `f_next`, and every other cell of
a chain what it held.
-/
structure Unlinked (s s' : State ι) (fp : Nat) (foo : Foo ι) (front : List Nat) : Prop where
  linked : s'.linked = Function.update s.linked fp false
  cell : cells s' (hash foo.fId) (lastCell 0 front) = some foo.fNext
  rest : ∀ idx b, (idx = hash foo.fId → b ≠ lastCell 0 front) → (b = 0 ∨ Listed s idx b) →
    cells s' idx b = cells s idx b
  content : ∀ fq, (s'.heap fq).map Foo.content = (s.heap fq).map Foo.content
  off : ∀ fq, s.linked fq = false → s'.heap fq = s.heap fq

variable {front back : List Nat}

omit [Fintype ι] [DecidableEq ι] in
/-- A field of the content is kept. -/
theorem Unlinked.map {β : Type} (un : Unlinked s s' fp foo front) (fq : Nat)
    (f : Int32 × Option ι × Int32 → β)
    : (s'.heap fq).map (f ∘ Foo.content) = (s.heap fq).map (f ∘ Foo.content) := by
  rw [← Option.map_map, un.content, Option.map_map]

omit [Fintype ι] [DecidableEq ι] in
/-- The object is on no chain any more, and every other object is where it was. -/
theorem Unlinked.listed (un : Unlinked s s' fp foo front) (idx : Fin nHash) (fq : Nat)
    : Listed s' idx fq ↔ fq ≠ fp ∧ Listed s idx fq := by
  have ids : (s'.heap fq).map Foo.fId = (s.heap fq).map Foo.fId :=
    un.map fq fun content => content.2.2
  have buckets : ∀ heap : Option (Foo ι), (∃ foo, heap = some foo ∧ hash foo.fId = idx)
      ↔ ∃ id, heap.map Foo.fId = some id ∧ hash id = idx := by
    intro heap
    cases heap <;> simp
  unfold Listed
  rw [buckets, buckets, ids, un.linked]
  by_cases this : fq = fp
  · simp [this]
  · simp [this]

omit [Fintype ι] [DecidableEq ι] in
/-- The chain of the object without it, and the other chains. -/
theorem Unlinked.chain (un : Unlinked s s' fp foo front) (chains : Chains s)
    (live : s.heap fp = some foo)
    (path : Linked (cells s (hash foo.fId)) 0 (front ++ fp :: back)) (idx : Fin nHash)
    : ∃ chain, Linked (cells s' idx) 0 chain ∧ ∀ fq, fq ∈ chain ↔ Listed s' idx fq := by
  obtain ⟨chain, old, listed⟩ := chains.chain idx
  by_cases bucket : idx = hash foo.fId
  · subst bucket
    cases path.unique old
    have nodup := (List.nodup_cons.mp path.nodup).2
    have nonzero : fp ≠ 0 := path.ne_zero (by simp)
    refine ⟨front ++ back, ?_, ?_⟩
    · have held : Function.update (cells s (hash foo.fId)) fp (some foo.fNext)
          = cells s (hash foo.fId) := by
        rw [Function.update_eq_self_iff]
        simp [cells, nonzero, live]
      rw [← held] at path
      apply path.unlink un.cell
      intro b member other
      apply un.rest _ _ fun _ => other
      rcases List.mem_cons.mp member with zero | on
      · exact .inl zero
      · apply Or.inr
        rw [← listed]
        rcases List.mem_append.mp on with first | last
        · exact List.mem_append_left _ first
        · exact List.mem_append_right _ (List.mem_cons_of_mem _ last)
    · intro fq
      rw [un.listed, ← listed]
      simp only [List.mem_append, List.mem_cons]
      rw [List.nodup_middle, List.nodup_cons, List.mem_append] at nodup
      constructor
      · intro member
        refine ⟨?_, by tauto⟩
        intro eq
        exact nodup.1 (eq ▸ member)
      · tauto
  · refine ⟨chain, old.congr ?_, ?_⟩
    · intro b member
      apply un.rest _ _ fun same => absurd same bucket
      rcases List.mem_cons.mp member with zero | on
      · exact .inl zero
      · exact .inr ((listed b).mp on)
    · intro fq
      rw [un.listed, listed]
      constructor
      · intro member
        refine ⟨?_, member⟩
        intro eq
        obtain ⟨-, foo', live', other⟩ := member
        rw [eq, live] at live'
        cases live'
        exact bucket other.symm
      · exact And.right

/-- The removal of an object by the thread that owns its only reference, under both locks. -/
theorem Inv.unlink (inv : Inv s) (holdsHash : (s.loc t).holdsHash)
    (holds : (s.loc t).holds = some fp) (hides : (s.loc t).hides = none)
    (live : s.heap fp = some foo) (owned : s.owned t fp = 1) (sole : references s fp = 1)
    (path : Linked (cells s (hash foo.fId)) 0 (front ++ fp :: back))
    (un : Unlinked s s' fp foo front) (hashlock : s'.hashlock = s.hashlock)
    (loc : s'.loc = s.loc) (refs : s'.owned = s.owned) (allocated : s'.allocated = s.allocated)
    (freed : s'.freed = s.freed) (faulted : s'.faulted = s.faulted)
    : Inv (s'.goto t (.lastUnlockHash fp)) := by
  have moved : (s'.goto t (.lastUnlockHash fp)).loc
      = Function.update s.loc t (.lastUnlockHash fp) := by
    rw [← loc]
    rfl
  have same : references s' = references s := by
    unfold references
    rw [refs]
  apply inv.after t
  case locks =>
    refine inv.locks.keep moved hashlock ?_ holdsHash.symm holds.symm
    intro fq
    have locks : (s'.heap fq).map Foo.fLock = (s.heap fq).map Foo.fLock :=
      un.map fq fun content => content.2.1
    show (s'.heap fq).bind (id ∘ Foo.fLock) = (s.heap fq).bind (id ∘ Foo.fLock)
    rw [← Option.bind_map, locks, Option.bind_map]
  case counts =>
    refine inv.counts.keep refs ?_ allocated freed ?_
    · intro fq
      exact un.map fq Prod.fst
    · intro fq dead
      show s'.linked fq = false
      rw [un.linked]
      by_cases this : fq = fp
      · simp [this]
      · simp [this, (inv.counts.dead fq dead).2]
  case chains =>
    constructor
    · exact un.chain inv.chains live path
    · intro fq foo' hfoo' off
      by_cases this : fq = fp
      · exact ⟨t, by simp [this, Loc.hides]⟩
      · have off' : s.linked fq = false := by
          have : s'.linked fq = false := off
          rwa [un.linked, Function.update_of_ne ‹_›] at this
        have hfoo : s.heap fq = some foo' := by
          rw [← un.off fq off']
          exact hfoo'
        obtain ⟨u, hidden⟩ := inv.chains.off fq foo' hfoo off'
        have other : u ≠ t := by
          intro eq
          rw [eq, hides] at hidden
          cases hidden
        exact ⟨u, by rw [moved, Function.update_of_ne other]; exact hidden⟩
  case sane => exact faulted.trans inv.sane
  case others =>
    intro u other
    constructor
    case loc => rw [moved, Function.update_of_ne other]
    case owned => exact congrFun refs u
    case hidden =>
      intro fq hidden
      have off := ((inv.at_ u).hidden hidden).2.2
      refine ⟨?_, congrFun same fq, un.off fq off⟩
      show s'.linked fq = false
      rw [un.linked]
      by_cases this : fq = fp
      · simp [this]
      · simp [this, off]
    case hash =>
      intro theirs
      exact absurd (inv.locks.hash_unique theirs holdsHash) other
    case object =>
      intro fq _
      exact congrFun same fq
  case self =>
    rw [goto_loc, atLoc_goto]
    refine ⟨?_, ?_, ?_⟩
    · rw [refs]
      exact owned
    · rw [same]
      exact sole
    · simp [un.linked]

omit [Fintype ι] [DecidableEq ι] in
/-- The removal from the head. -/
theorem unlinked_head (s : State ι) (fp : Nat) (foo : Foo ι)
    : Unlinked s (s.unlinkHead fp (hash foo.fId) foo) fp foo [] := by
  constructor
  case linked => rfl
  case cell => simp [cells, lastCell, State.unlinkHead]
  case rest =>
    intro idx b other _
    by_cases zero : b = 0
    · have : idx ≠ hash foo.fId := fun same => other same zero
      simp [cells, State.unlinkHead, zero, this]
    · simp [cells, State.unlinkHead, zero]
  case content =>
    intro _
    rfl
  case off =>
    intro _ _
    rfl

omit [Fintype ι] [DecidableEq ι] in
/-- The removal behind another object of the chain. -/
theorem unlinked_behind {tfp : Nat} {before : Foo ι} (nonzero : tfp ≠ 0)
    (live : s.heap tfp = some before) (listed : Listed s (hash foo.fId) tfp) (front : List Nat)
    : Unlinked s (s.unlinkBehind fp foo tfp before) fp foo (front ++ [tfp]) := by
  have last : lastCell 0 (front ++ [tfp]) = tfp := lastCell_append ..
  constructor
  case linked => rfl
  case cell => simp [last, cells, nonzero, State.unlinkBehind, State.setFoo]
  case rest =>
    intro idx b other on
    rw [last] at other
    have apart : b ≠ tfp := by
      intro eq
      subst eq
      rcases on with zero | ⟨-, foo', live', bucket⟩
      · exact nonzero zero
      · obtain ⟨-, foo'', live'', bucket'⟩ := listed
        rw [live] at live' live''
        cases live'
        cases live''
        exact other (bucket.symm.trans bucket') rfl
    simp [cells, State.unlinkBehind, State.setFoo, apart]
  case content => exact map_setFoo live rfl
  case off =>
    intro fq off
    apply Function.update_of_ne
    intro eq
    have := listed.1
    simp [eq ▸ off] at this

-----------------------------------------------------------------------------------------
-- The code between the lock operations
-----------------------------------------------------------------------------------------

omit [DecidableEq ι] in
/-- A live object that some thread owns and no thread hides is on its chain. -/
theorem Inv.listed_of_owned (inv : Inv s) (live : s.heap fp = some foo)
    (owns : 0 < s.owned t fp) (shown : (s.loc t).hides = none)
    : Listed s (hash foo.fId) fp := by
  cases linked : s.linked fp with
  | true => exact ⟨linked, foo, live, rfl⟩
  | false =>
      obtain ⟨u, hides⟩ := inv.chains.off fp foo live linked
      by_cases same : t = u
      · rw [← same, shown] at hides
        cases hides
      · have := (inv.hidden_alone hides same).1
        omega

/-- The loop of `foo_find` starts at the head of the chain. -/
theorem Inv.findHead (inv : Inv s) {id : Int32} (here : s.loc t = .findHead id)
    : Inv (s.goto t (.findScan id (s.fh (hash id)))) := by
  refine inv.goto here ⟨rfl, rfl, rfl⟩ ?_
  obtain ⟨chain, path, listed⟩ := inv.chains.chain (hash id)
  have entry := path.next_entry
  cases chain with
  | nil => exact .inl (Option.some.inj entry)
  | cons x rest =>
      apply Or.inr
      rw [← listed, show s.fh (hash id) = x from Option.some.inj entry]
      exact List.mem_cons_self

/-- A round of the loop reads an object on the chain. -/
theorem Inv.scan (inv : Inv s) {id : Int32} (here : s.loc t = .findScan id fp)
    : Inv (scan s t id fp) := by
  have at_ := inv.at_ t
  rw [here] at at_
  unfold Mutex2.scan
  split
  · exact inv.goto here ⟨rfl, rfl, rfl⟩ (.inl rfl)
  · next nonzero =>
      obtain ⟨linked, foo, live, bucket⟩ := at_.resolve_left nonzero
      simp only [State.deref, live]
      split
      · exact inv.goto here ⟨rfl, rfl, rfl⟩ linked
      · refine inv.goto here ⟨rfl, rfl, rfl⟩ ?_
        obtain ⟨chain, path, listed⟩ := inv.chains.chain (hash id)
        have member : fp ∈ chain := (listed fp).mpr ⟨linked, foo, live, bucket⟩
        have holds : cells s (hash id) fp = some foo.fNext := by
          simp [cells, nonzero, live]
        rcases path.next_mem member holds with null | next
        · exact .inl null
        · exact .inr ((listed _).mp next)

omit [Fintype ι] in
/-- Below `INT_MAX` the count grows by one, and nothing is undefined. -/
theorem increment_eq (s : State ι) (t : ι) (fp : Nat) (below : foo.fCount.toInt < INT_MAX)
    : increment s t fp foo
        = (s.setFoo fp { foo with fCount := foo.fCount + 1 }).setOwned t fp (s.owned t fp + 1)
      ∧ (foo.fCount + 1).toInt = foo.fCount.toInt + 1 := by
  have inside : foo.fCount ≠ Int32.maxValue := by
    intro eq
    rw [eq] at below
    exact absurd below (by decide)
  constructor
  · simp [Mutex2.increment, inside, State.setOwned, State.setFoo]
  · have low := foo.fCount.le_toInt
    have one : (1 : Int32).toInt = 1 := rfl
    rw [Int32.toInt_add, one]
    apply toInt_eq <;> simp only [INT_MAX] at below <;> omega

omit [Fintype ι] in
/-- A positive count shrinks by one, and nothing is undefined. -/
theorem decrement_eq (s : State ι) (t : ι) (fp : Nat) (positive : 0 < foo.fCount.toInt)
    : decrement s t fp foo
        = (s.setFoo fp { foo with fCount := foo.fCount - 1 }).setOwned t fp (s.owned t fp - 1)
      ∧ (foo.fCount - 1).toInt = foo.fCount.toInt - 1 := by
  have inside : foo.fCount ≠ Int32.minValue := by
    intro eq
    rw [eq] at positive
    exact absurd positive (by decide)
  constructor
  · simp [Mutex2.decrement, inside, State.setOwned, State.setFoo]
  · have high := foo.fCount.toInt_lt
    have one : (1 : Int32).toInt = 1 := rfl
    rw [Int32.toInt_sub, one]
    apply toInt_eq <;> omega

/-- A reference is added under the lock of the object, where there are fewer than `INT_MAX`. -/
theorem Inv.increment (inv : Inv s) {finding : Bool} (here : s.loc t = .holdIncrement fp finding)
    (below : references s fp < INT_MAX)
    : Inv (s.deref fp fun foo => (increment s t fp foo).goto t (.holdUnlock fp finding)) := by
  obtain ⟨foo, live, -⟩ := (inv.locks.object t fp).mp (by rw [here]; rfl)
  have count := inv.counts.live fp foo live
  obtain ⟨result, grown⟩ := increment_eq s t fp (by omega : foo.fCount.toInt < INT_MAX)
  simp only [State.deref, live, result]
  refine inv.recount here rfl live (by omega) (by omega) ⟨rfl, rfl, rfl⟩ ?_
  simp [AtLoc, State.setOwned]

omit [Fintype ι] [DecidableEq ι] in
/-- The test of `f_count` sees whether it is 1. -/
theorem fCount_eq_one : foo.fCount = 1 ↔ foo.fCount.toInt = 1 :=
  Int32.toInt_inj.symm

/-- A reference is dropped under the lock of the object, where another one is left. -/
theorem Inv.decrement (inv : Inv s) (here : s.loc t = loc) (holds : loc.holds = some fp)
    (live : s.heap fp = some foo) (owns : 0 < s.owned t fp) (more : foo.fCount ≠ 1)
    (alike : loc.Alike next) (self : ∀ s', AtLoc s' t next)
    : Inv ((decrement s t fp foo).goto t next) := by
  have count := inv.counts.live fp foo live
  rw [ne_eq, fCount_eq_one] at more
  obtain ⟨result, shrunk⟩ := decrement_eq s t fp (by omega : 0 < foo.fCount.toInt)
  rw [result]
  exact inv.recount here holds live (by omega) (by omega) alike (self _)

/-- The test in `foo_rele` keeps the invariant. -/
theorem Inv.test (inv : Inv s) (here : s.loc t = .releTest fp)
    : Inv (test s t fp) := by
  have owns := inv.at_ t
  rw [here] at owns
  obtain ⟨foo, live⟩ := inv.counts.live_of_owned owns
  simp only [Mutex2.test, State.deref, live]
  split
  · exact inv.goto here ⟨rfl, rfl, rfl⟩ owns
  · next more => exact inv.decrement here rfl live owns more ⟨rfl, rfl, rfl⟩ fun _ => trivial

/-- The second test of `foo_rele`: another reference was taken in the gap, or this is the last
one and the object is removed from the head of its chain or searched for behind it.
-/
theorem Inv.recheck (inv : Inv s) (here : s.loc t = .releRecheck fp)
    : Inv (recheck s t fp) := by
  have owns : 0 < s.owned t fp := by
    have := inv.at_ t
    rwa [here] at this
  obtain ⟨foo, live⟩ := inv.counts.live_of_owned owns
  simp only [Mutex2.recheck, State.deref, live]
  split
  · next more => exact inv.decrement here rfl live owns more ⟨rfl, rfl, rfl⟩ fun _ => trivial
  · next last =>
      have count := inv.counts.live fp foo live
      have one := fCount_eq_one.mp (not_not.mp last)
      have bound := owned_le_references s t fp
      have owned : s.owned t fp = 1 := by omega
      have sole : references s fp = 1 := by omega
      have listed := inv.listed_of_owned live owns (by rw [here]; rfl)
      obtain ⟨chain, path, members⟩ := inv.chains.chain (hash foo.fId)
      have member := (members fp).mpr listed
      have entry := path.next_entry
      cases chain with
      | nil => cases member
      | cons x rest =>
          have first : s.fh (hash foo.fId) = x := Option.some.inj entry
          split
          · next head =>
              obtain rfl : x = fp := first.symm.trans head
              exact inv.unlink (by rw [here]; rfl) (by rw [here]; rfl) (by rw [here]; rfl) live
                owned sole path (unlinked_head s x foo) rfl rfl rfl rfl rfl rfl
          · next behind =>
              rw [first] at behind ⊢
              obtain ⟨middle, back, rfl⟩ :=
                List.append_of_mem (List.mem_of_ne_of_mem (Ne.symm behind) member)
              refine inv.goto here ⟨rfl, rfl, rfl⟩ ?_
              exact ⟨owned, sole, foo, [], middle, back, live, path⟩

/-- A round of the search: the object before is found, or the search goes on behind the next
one.
-/
theorem Inv.walk (inv : Inv s) {tfp : Nat} (here : s.loc t = .lastWalk fp tfp)
    : Inv (walk s t fp tfp) := by
  have at_ := inv.at_ t
  rw [here] at at_
  obtain ⟨owned, sole, foo, front, middle, back, live, path⟩ := at_
  have nonzero : tfp ≠ 0 := path.ne_zero (by simp)
  have listed : Listed s (hash foo.fId) tfp := by
    obtain ⟨chain, path', members⟩ := inv.chains.chain (hash foo.fId)
    rw [← members, ← path.unique path']
    simp
  obtain ⟨-, before, liveBefore, -⟩ := id listed
  have step : Linked (cells s (hash foo.fId)) 0 ((front ++ [tfp]) ++ (middle ++ fp :: back)) := by
    simpa using path
  have next : (middle ++ fp :: back).headD 0 = before.fNext := by
    have entry := step.drop.next_entry
    rw [lastCell_append] at entry
    simpa [lastCell, cells, nonzero, liveBefore] using entry.symm
  simp only [Mutex2.walk, State.deref, live, liveBefore]
  cases middle with
  | nil =>
      have found : before.fNext = fp := next.symm
      rw [if_neg (not_not.mpr found)]
      exact inv.unlink (by rw [here]; rfl) (by rw [here]; rfl) (by rw [here]; rfl) live owned sole
        step (unlinked_behind nonzero liveBefore listed front) rfl rfl rfl rfl rfl rfl
  | cons x rest =>
      have skipped : x = before.fNext := next
      have other : before.fNext ≠ fp := by
        intro found
        have nodup := (List.nodup_cons.mp path.nodup).2
        simp [skipped, found, List.nodup_append] at nodup
      rw [if_pos other, ← skipped]
      refine inv.goto here ⟨rfl, rfl, rfl⟩ ?_
      exact ⟨owned, sole, foo, front ++ [tfp], rest, back, live, step⟩

/-- The code up to the next lock operation keeps the invariant, by the place of the thread. -/
theorem Inv.code (inv : Inv s) (below : Below s (.run t)) (h : code s t (s.loc t) = some s')
    : Inv s' := by
  cases here : s.loc t <;> rw [here] at h <;> cases h
  case allocInsert fp idx =>
    have at_ := inv.at_ t
    rw [here] at at_
    obtain ⟨-, foo, live, -⟩ := at_
    simp only [Mutex2.insert, State.deref, live]
    exact inv.link here live
  case holdIncrement fp finding => exact inv.increment here (below fp (by rw [here]; rfl))
  case findHead id => exact inv.findHead here
  case findScan id fp => exact inv.scan here
  case releTest fp => exact inv.test here
  case releRecheck fp => exact inv.recheck here
  case lastWalk fp tfp => exact inv.walk here
  case lastDestroy fp =>
    have at_ := inv.at_ t
    rw [here] at at_
    obtain ⟨-, foo, live, unlocked⟩ := at_
    simp only [Mutex2.destroy, State.deref, live, unlocked, if_true]
    exact inv.free here live unlocked

end Minions.Threads.Mutex2
