import Minions.Threads.Reliance

/-! The lock operations of `mutex2.c`: what each place of a thread says of the locks, and that a
lock or unlock operation keeps the invariant.
-/

namespace Minions.Threads.Mutex2

open Minions.Data

variable {ι : Type} {s s' : State ι} {t u : ι} {fp : Nat} {foo : Foo ι} {loc next : Loc}
variable [Fintype ι] [DecidableEq ι]

omit [DecidableEq ι] in
/-- What a thread knows does not depend on `hashlock` and the places. -/
theorem atLoc_frame (s : State ι) (t : ι) (hashlock : Option ι) (locs : ι → Loc) (loc : Loc)
    : AtLoc { s with hashlock, loc := locs } t loc ↔ AtLoc s t loc := by
  cases loc <;> exact .rfl

/-- Another thread's place does not matter. -/
theorem atLoc_goto (s : State ι) (t u : ι) (next loc : Loc)
    : AtLoc (s.goto u next) t loc ↔ AtLoc s t loc :=
  atLoc_frame s t s.hashlock (Function.update s.loc u next) loc

omit [Fintype ι] in
@[simp] theorem goto_loc (s : State ι) (t : ι) (next : Loc)
    : (s.goto t next).loc t = next :=
  Function.update_self ..

/-- An operation on a lock hides what it hid before. -/
theorem Loc.op_hides {op : Op} (h : loc.op = some (op, next))
    : next.hides = loc.hides := by
  cases loc <;> simp only [Loc.op, reduceCtorEq, Option.some.injEq, Prod.mk.injEq] at h
  all_goals
    obtain ⟨-, rfl⟩ := h
    first | rfl | (next finding => cases finding <;> rfl)

/-- `hashlock` is locked by a thread that has not locked it, and no other lock changes. -/
theorem Loc.op_lockHash (h : loc.op = some (.lockHash, next))
    : loc.holdsHash = false ∧ next.holdsHash ∧ next.holds = loc.holds := by
  cases loc <;> simp [Loc.op] at h <;> subst h <;> exact ⟨rfl, rfl, rfl⟩

/-- Who unlocks the hash lock has held it. -/
theorem Loc.op_unlockHash (h : loc.op = some (.unlockHash, next))
    : loc.holdsHash ∧ next.holdsHash = false ∧ next.holds = loc.holds := by
  cases loc <;> simp [Loc.op] at h <;> subst h <;> exact ⟨rfl, rfl, rfl⟩

/-- Who locks an object has held none. -/
theorem Loc.op_lock (h : loc.op = some (.lock fp, next))
    : loc.holds = none ∧ next.holds = some fp ∧ next.holdsHash = loc.holdsHash := by
  cases loc <;> simp [Loc.op] at h <;> obtain ⟨rfl, rfl⟩ := h <;> exact ⟨rfl, rfl, rfl⟩

/-- Who unlocks an object has held it. -/
theorem Loc.op_unlock (h : loc.op = some (.unlock fp, next))
    : loc.holds = some fp ∧ next.holds = none ∧ next.holdsHash = loc.holdsHash := by
  cases loc <;> simp [Loc.op] at h <;> obtain ⟨rfl, rfl⟩ := h <;>
    first | exact ⟨rfl, rfl, rfl⟩ | (next finding => cases finding <;> exact ⟨rfl, rfl, rfl⟩)

/-- A lock operation on `hashlock`, or a move that changes no lock. -/
theorem Inv.setHash (inv : Inv s) {hashlock : Option ι}
    (locks : Locks { s with hashlock, loc := Function.update s.loc t next })
    (hides : next.hides = (s.loc t).hides) (self : AtLoc s t next)
    : Inv { s with hashlock, loc := Function.update s.loc t next } := by
  apply inv.after t locks
  case counts => exact inv.counts.keep rfl (fun _ => rfl) rfl rfl fun fp dead =>
    (inv.counts.dead fp dead).2
  case chains => exact inv.chains.keep rfl rfl rfl (fun _ => rfl) hides
  case sane => exact inv.sane
  case others =>
    intro u other
    refine ⟨Function.update_of_ne other _ _, rfl, ?_, fun _ => ⟨rfl, ?_⟩, fun _ _ => rfl⟩
    · intro fp hidden
      exact ⟨((inv.at_ u).hidden hidden).2.2, rfl, rfl⟩
    · intro fp linked
      exact ⟨linked, rfl⟩
  case self =>
    rw [atLoc_frame]
    simpa using self

/-- A thread moves on and changes nothing else. -/
theorem Inv.goto (inv : Inv s) (here : s.loc t = loc) (alike : loc.Alike next)
    (self : AtLoc s t next)
    : Inv (s.goto t next) := by
  subst here
  obtain ⟨hash, object, hides⟩ := alike
  exact inv.setHash (inv.locks.keep rfl rfl (fun _ => rfl) hash object) hides self

/-- Taking the hash lock keeps the invariant. -/
theorem Inv.lockHash (inv : Inv s) (op : (s.loc t).op = some (.lockHash, next))
    (free : s.hashlock = none)
    : Inv ({ s with hashlock := some t }.goto t next) := by
  obtain ⟨-, holds, object⟩ := Loc.op_lockHash op
  apply inv.setHash _ (Loc.op_hides op)
  · have at_ := inv.at_ t
    cases here : s.loc t <;> rw [here] at op at_ <;> simp [Loc.op] at op <;> subst op
    case allocLockHash => exact at_
    case findLockHash => trivial
    case releLockHash => exact at_
  · constructor
    · intro u
      by_cases same : u = t
      · subst same
        simp [holds]
      · have waiting : (s.loc u).holdsHash = false := by
          have := inv.locks.hash u
          rw [free] at this
          simpa using this
        simp [Function.update_of_ne same, waiting, Ne.symm same]
    · intro u fp
      rw [update_keeps object]
      exact inv.locks.object u fp

/-- The thread that unlocks `hashlock` has locked it. -/
theorem Inv.unlockHash (inv : Inv s) (op : (s.loc t).op = some (.unlockHash, next))
    : s.hashlock = some t ∧ Inv ({ s with hashlock := none }.goto t next) := by
  obtain ⟨held, free, object⟩ := Loc.op_unlockHash op
  have mine := (inv.locks.hash t).mpr held
  refine ⟨mine, inv.setHash ?_ (Loc.op_hides op) ?_⟩
  · constructor
    · intro u
      by_cases same : u = t
      · subst same
        simp [free]
      · have waiting : (s.loc u).holdsHash = false := by
          have := inv.locks.hash u
          rw [mine] at this
          simpa [Ne.symm same] using this
        simp [Function.update_of_ne same, waiting]
    · intro u fp
      rw [update_keeps object]
      exact inv.locks.object u fp
  · have at_ := inv.at_ t
    cases here : s.loc t <;> rw [here] at op at_ <;> simp [Loc.op] at op <;> subst op
    case allocUnlockHash => exact at_
    case findUnlockHash => exact at_
    case droppedUnlockHash => exact .inl rfl
    case lastUnlockHash => exact at_

omit [Fintype ι] [DecidableEq ι] in
/-- A write to one object changes no field that it keeps. -/
theorem map_setFoo {β : Type} {f : Foo ι → β} {foo' : Foo ι} (live : s.heap fp = some foo)
    (same : f foo' = f foo) (fq : Nat)
    : ((s.setFoo fp foo').heap fq).map f = (s.heap fq).map f := by
  by_cases this : fq = fp
  · subst this
    simp [State.setFoo, live, same]
  · simp [State.setFoo, Function.update_of_ne this]

omit [Fintype ι] [DecidableEq ι] in
/-- A write to one object that keeps its lock. -/
theorem bind_setFoo {foo' : Foo ι} (live : s.heap fp = some foo)
    (same : foo'.fLock = foo.fLock) (fq : Nat)
    : ((s.setFoo fp foo').heap fq).bind Foo.fLock = (s.heap fq).bind Foo.fLock := by
  by_cases this : fq = fp
  · subst this
    simp [State.setFoo, live, same]
  · simp [State.setFoo, Function.update_of_ne this]

/-- A lock operation on an object that no other thread hides. -/
theorem Inv.setLock (inv : Inv s) (live : s.heap fp = some foo) {fLock : Option ι}
    (locks : Locks ((s.setFoo fp { foo with fLock }).goto t next))
    (hides : next.hides = (s.loc t).hides) (shown : ∀ u, u ≠ t → (s.loc u).hides ≠ some fp)
    (self : AtLoc (s.setFoo fp { foo with fLock }) t next)
    : Inv ((s.setFoo fp { foo with fLock }).goto t next) := by
  apply inv.after t locks
  case counts => exact inv.counts.keep rfl (map_setFoo live rfl) rfl rfl fun fq dead =>
    (inv.counts.dead fq dead).2
  case chains => exact inv.chains.keep rfl rfl rfl (map_setFoo live rfl) hides
  case sane => exact inv.sane
  case others =>
    intro u other
    refine inv.rely other rfl rfl rfl rfl (fun fq _ => map_setFoo live (by rfl) fq)
      (fun fq apart => ?_) (fun _ _ => rfl) (shown u other) fun _ => rfl
    exact Function.update_of_ne apart _ _
  case self =>
    rw [goto_loc, atLoc_goto]
    exact self

omit [DecidableEq ι] in
/-- A thread that is about to lock an object can reach it. -/
theorem AtLoc.reaches (at_ : AtLoc s t loc) (op : loc.op = some (.lock fp, next))
    : 0 < s.owned t fp ∨ s.linked fp := by
  cases loc <;> simp [Loc.op] at op <;> obtain ⟨rfl, rfl⟩ := op
  case allocLock => exact .inl at_
  case holdLock finding =>
    cases finding with
    | true => exact .inr at_
    | false => exact .inl at_
  case releLock => exact .inl at_
  case releRelock => exact .inl at_

omit [DecidableEq ι] in
/-- An object that is about to be locked is live. -/
theorem Inv.live_of_lock (inv : Inv s) (op : (s.loc t).op = some (.lock fp, next))
    : ∃ foo, s.heap fp = some foo := by
  rcases (inv.at_ t).reaches op with owns | linked
  · exact inv.counts.live_of_owned owns
  · exact inv.counts.live_of_linked linked

omit [Fintype ι] in
/-- Locking an object keeps the locks right. -/
theorem Locks.lock (locks : Locks s) (before : (s.loc t).holds = none)
    (after : next.holds = some fp) (hash : next.holdsHash = (s.loc t).holdsHash)
    (live : s.heap fp = some foo) (free : foo.fLock = none)
    : Locks ((s.setFoo fp { foo with fLock := some t }).goto t next) := by
  constructor
  · intro u
    show s.hashlock = some u ↔ (Function.update s.loc t next u).holdsHash
    rw [update_keeps hash]
    exact locks.hash u
  · intro u fq
    show (Function.update s.loc t next u).holds = some fq
      ↔ ∃ foo', Function.update s.heap fp _ fq = some foo' ∧ foo'.fLock = some u
    have old := locks.object u fq
    by_cases same : u = t <;> by_cases this : fq = fp
    · subst same this
      simp [after]
    · subst same
      simp only [before, reduceCtorEq, false_iff] at old
      simpa [Function.update_of_ne this, after, Ne.symm this] using old
    · subst this
      simp only [live, Option.some.injEq, exists_eq_left', free, reduceCtorEq, iff_false] at old
      simpa [Function.update_of_ne same, Ne.symm same] using old
    · simpa [Function.update_of_ne same, Function.update_of_ne this] using old

/-- An object that is free is locked. -/
theorem Inv.lock (inv : Inv s) (op : (s.loc t).op = some (.lock fp, next))
    (live : s.heap fp = some foo) (free : foo.fLock = none)
    : Inv ((s.setFoo fp { foo with fLock := some t }).goto t next) := by
  obtain ⟨before, after, hash⟩ := Loc.op_lock op
  apply inv.setLock live _ (Loc.op_hides op)
  case shown =>
    intro u other hides
    obtain ⟨none_, off, -⟩ := inv.hidden_alone hides other.symm
    rcases (inv.at_ t).reaches op with owns | linked
    · omega
    · simp [off] at linked
  case self =>
    have at_ := inv.at_ t
    cases here : s.loc t <;> rw [here] at op at_ <;> simp [Loc.op] at op
    case allocLock => exact op.2 ▸ at_
    case holdLock finding => cases finding <;> exact op.2 ▸ at_
    case releLock => exact op.2 ▸ at_
    case releRelock => exact op.2 ▸ at_
  case _ => exact inv.locks.lock before after hash live free

omit [Fintype ι] in
/-- Unlocking an object keeps the locks right. -/
theorem Locks.unlock (locks : Locks s) (before : (s.loc t).holds = some fp)
    (after : next.holds = none) (hash : next.holdsHash = (s.loc t).holdsHash)
    (live : s.heap fp = some foo) (mine : foo.fLock = some t)
    : Locks ((s.setFoo fp { foo with fLock := none }).goto t next) := by
  constructor
  · intro u
    show s.hashlock = some u ↔ (Function.update s.loc t next u).holdsHash
    rw [update_keeps hash]
    exact locks.hash u
  · intro u fq
    show (Function.update s.loc t next u).holds = some fq
      ↔ ∃ foo', Function.update s.heap fp _ fq = some foo' ∧ foo'.fLock = some u
    have old := locks.object u fq
    by_cases same : u = t <;> by_cases this : fq = fp
    · subst same this
      simp [after]
    · subst same
      simp only [before, Option.some.injEq, Ne.symm this, false_iff] at old
      simpa [Function.update_of_ne this, after] using old
    · subst this
      simp only [live, Option.some.injEq, exists_eq_left', mine, Ne.symm same, iff_false] at old
      simpa [Function.update_of_ne same] using old
    · simpa [Function.update_of_ne same, Function.update_of_ne this] using old

/-- The thread that unlocks an object has locked it. -/
theorem Inv.unlock (inv : Inv s) (op : (s.loc t).op = some (.unlock fp, next))
    : ∃ foo, s.heap fp = some foo ∧ foo.fLock = some t
      ∧ Inv ((s.setFoo fp { foo with fLock := none }).goto t next) := by
  obtain ⟨before, after, hash⟩ := Loc.op_unlock op
  obtain ⟨foo, live, mine⟩ := (inv.locks.object t fp).mp before
  refine ⟨foo, live, mine, ?_⟩
  apply inv.setLock live (inv.locks.unlock before after hash live mine) (Loc.op_hides op)
  case shown =>
    intro u other hides
    exact (inv.hidden_alone hides other.symm).2.2 before
  case self =>
    have at_ := inv.at_ t
    cases here : s.loc t <;> rw [here] at op at_ <;> simp [Loc.op] at op
    case allocUnlock => exact op.1 ▸ op.2 ▸ .inr at_
    case holdUnlock finding =>
      obtain ⟨rfl, rfl⟩ := op
      cases finding with
      | true => exact .inr at_
      | false => exact .inl rfl
    case releUnlockGap => exact op.2 ▸ at_
    case droppedUnlock => exact op.2 ▸ .inl rfl
    case droppedUnlockBoth => exact op.2 ▸ trivial
    case lastUnlock =>
      obtain ⟨rfl, rfl⟩ := op
      exact ⟨at_, _, Function.update_self .., rfl⟩

/-- Every lock operation that does not have to wait keeps the invariant. -/
theorem Inv.perform (inv : Inv s) {op : Op} (hop : (s.loc t).op = some (op, next))
    (h : perform s t next op = some s')
    : Inv s' := by
  cases op with
  | lockHash =>
      simp only [Mutex2.perform] at h
      split at h <;> cases h
      next free => exact inv.lockHash hop free
  | unlockHash =>
      obtain ⟨mine, inv'⟩ := inv.unlockHash hop
      simp only [Mutex2.perform, mine, if_true] at h
      cases h
      exact inv'
  | lock fp =>
      obtain ⟨foo, live⟩ := inv.live_of_lock hop
      simp only [Mutex2.perform, live] at h
      split at h <;> cases h
      next free => exact inv.lock hop live free
  | unlock fp =>
      obtain ⟨foo, live, mine, inv'⟩ := inv.unlock hop
      simp only [Mutex2.perform, State.deref, live, mine, if_true] at h
      cases h
      exact inv'

end Minions.Threads.Mutex2
