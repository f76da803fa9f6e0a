import Mathlib.Logic.Relation
import Minions.Threads.Chaining

/-! Reference counting in `mutex2.c`, along every run of any number of threads. -/

namespace Minions.Threads.Mutex2

open Minions.Data Minions.Logic

variable {ι : Type} {s s' : State ι} {t u : ι} {fp : Nat} {foo : Foo ι} {loc next : Loc}

-----------------------------------------------------------------------------------------
-- Waiting
-----------------------------------------------------------------------------------------

/-- The next operation of `t` is to lock what `u` has locked. -/
def WaitsFor (s : State ι) (t u : ι) : Prop :=
  ∃ op next, (s.loc t).op = some (op, next)
    ∧ (op = .lockHash ∧ s.hashlock = some u
      ∨ ∃ fp foo, op = .lock fp ∧ s.heap fp = some foo ∧ foo.fLock = some u)

variable [DecidableEq ι]

/-- A thread that has locked an object never has to wait. -/
theorem run_of_holds (holds : (s.loc t).holds = some fp)
    : (run s t).isSome := by
  unfold run
  cases here : s.loc t <;> rw [here] at holds <;> cases holds <;>
    simp only [Loc.op, perform, code, Option.isSome_some]
  case allocUnlockHash => split <;> rfl
  case lastUnlockHash => split <;> rfl

/-- The code between the lock operations does not wait. -/
theorem code_isSome (between : loc.op = none) (inside : loc.isIdle = false)
    : (code s t loc).isSome := by
  cases loc <;> simp [Loc.op, Loc.isIdle, code] at between inside ⊢

variable [Fintype ι]

/-- A thread inside a call goes on, or another thread has the lock that it needs. -/
theorem Inv.run_or_waits (inv : Inv s) (inside : (s.loc t).isIdle = false)
    : (run s t).isSome ∨ ∃ u, WaitsFor s t u := by
  cases hop : (s.loc t).op with
  | none =>
      apply Or.inl
      simp only [run, hop]
      exact code_isSome hop inside
  | some pair =>
      obtain ⟨op, next⟩ := pair
      simp only [run, hop]
      cases op with
      | lockHash =>
          cases held : s.hashlock with
          | none => exact .inl (by simp [Mutex2.perform, held])
          | some u => exact .inr ⟨u, _, next, hop, .inl ⟨rfl, held⟩⟩
      | unlockHash =>
          apply Or.inl
          simp only [Mutex2.perform]
          split <;> rfl
      | lock fp =>
          obtain ⟨foo, live⟩ := inv.live_of_lock hop
          cases held : foo.fLock with
          | none => exact .inl (by simp [Mutex2.perform, live, held])
          | some u => exact .inr ⟨u, _, next, hop, .inr ⟨fp, foo, rfl, live, held⟩⟩
      | unlock fp => exact .inl rfl

/-- What a thread waits for in an object, its holder gives back without waiting. -/
theorem Inv.run_of_waits_object (inv : Inv s) (live : s.heap fp = some foo)
    (held : foo.fLock = some u)
    : (run s u).isSome :=
  run_of_holds ((inv.locks.object u fp).mpr ⟨foo, live, held⟩)

/-- The thread that has locked `hashlock` goes on, or waits for a thread that does. -/
theorem Inv.run_of_hash (inv : Inv s) (held : s.hashlock = some u)
    : (run s u).isSome ∨ ∃ v, WaitsFor s u v ∧ (run s v).isSome := by
  have holds := (inv.locks.hash u).mp held
  have inside : (s.loc u).isIdle = false := by
    cases here : s.loc u <;> rw [here] at holds <;> first | rfl | cases holds
  rcases inv.run_or_waits inside with goes | ⟨v, op, next, hop, waits⟩
  · exact .inl goes
  · rcases waits with ⟨rfl, -⟩ | ⟨fp, foo, rfl, live, lock⟩
    · rw [(Loc.op_lockHash hop).1] at holds
      cases holds
    · exact .inr ⟨v, ⟨_, next, hop, .inr ⟨fp, foo, rfl, live, lock⟩⟩,
        inv.run_of_waits_object live lock⟩

/-- Whom a thread inside a call waits for, directly or through others, can go on: `hashlock`
comes before the locks of the objects.
-/
theorem Inv.not_deadlocked (inv : Inv s) (inside : (s.loc t).isIdle = false)
    : ∃ u, Relation.ReflTransGen (WaitsFor s) t u ∧ (run s u).isSome := by
  rcases inv.run_or_waits inside with goes | ⟨u, waits⟩
  · exact ⟨t, .refl, goes⟩
  · obtain ⟨op, next, hop, why⟩ := id waits
    rcases why with ⟨-, held⟩ | ⟨fp, foo, -, live, lock⟩
    · rcases inv.run_of_hash held with goes | ⟨v, waits', goes⟩
      · exact ⟨u, .single waits, goes⟩
      · exact ⟨v, .tail (.single waits) waits', goes⟩
    · exact ⟨u, .single waits, inv.run_of_waits_object live lock⟩

-----------------------------------------------------------------------------------------
-- Every run
-----------------------------------------------------------------------------------------

omit [DecidableEq ι] in
/-- The invariant holds at the start. -/
theorem start_inv : Inv (start : State ι) := by
  constructor
  case locks =>
    constructor
    · intro t
      exact iff_of_false nofun Bool.false_ne_true
    · intro t fp
      apply iff_of_false nofun
      intro locked
      obtain ⟨foo, live, -⟩ := locked
      cases live
  case counts =>
    constructor
    case live =>
      intro fp foo live
      cases live
    case dead =>
      intro fp _
      exact ⟨Finset.sum_const_zero, rfl⟩
    case allocated =>
      intro fp
      have none_ : ¬(0 < fp ∧ fp ≤ 0) := by omega
      exact iff_of_false (by simp [start]) none_
    case freed =>
      intro fp freed
      cases freed
    case once => exact List.nodup_nil
  case chains =>
    constructor
    · intro idx
      exact ⟨[], by simp [Linked, cells, start], by simp [Listed, start]⟩
    · simp [start]
  case at_ =>
    intro t
    exact .inl rfl
  case sane => rfl

/-- A call begins. -/
theorem Inv.call (inv : Inv s) (idle : (s.loc t).isIdle) (inside : (Loc.idle 0).Alike next)
    (self : AtLoc s t next)
    : Inv (s.goto t next) := by
  cases here : s.loc t <;> rw [here] at idle <;> cases idle
  exact inv.goto here inside self

/-- Every step that leaves no object with more than `INT_MAX` references keeps the invariant, by
the kind of event.
-/
theorem step_inv {event : Event ι} (below : Below s event) (h : step s event = some s')
    (inv : Inv s)
    : Inv s' := by
  cases event <;> simp only [step] at h
  case alloc t id succeeds =>
    split at h <;> cases h
    next idle =>
      cases succeeds with
      | true => exact inv.alloc idle id
      | false => exact inv.call idle ⟨rfl, rfl, rfl⟩ (.inl rfl)
  case find t id =>
    split at h <;> cases h
    next idle => exact inv.call idle ⟨rfl, rfl, rfl⟩ trivial
  case hold t fp =>
    split at h <;> cases h
    next may => exact inv.call may.1 ⟨rfl, rfl, rfl⟩ may.2
  case rele t fp =>
    split at h <;> cases h
    next may => exact inv.call may.1 ⟨rfl, rfl, rfl⟩ may.2
  case run t =>
    unfold run at h
    split at h
    · next hop => exact inv.perform hop h
    · exact inv.code below h

/-- What holds in every state of the table. -/
structure Sound (s : State ι) : Prop where
  counted : ∀ fp foo, s.heap fp = some foo → foo.fLock = none →
    foo.fCount.toInt = references s fp
  chained : ∀ idx, ∃ chain, Linked (cells s idx) 0 chain ∧ chain.Nodup
    ∧ ∀ fp, fp ∈ chain ↔ Listed s idx fp
  linked : ∀ fp, s.linked fp → ∃ foo, s.heap fp = some foo
  freedOnce : s.freed.Nodup
  freed : ∀ fp, fp ∈ s.freed ↔ 0 < fp ∧ fp ≤ s.allocated ∧ s.heap fp = none
  lastReference : ∀ fp, 0 < fp → fp ≤ s.allocated → (fp ∈ s.freed ↔ references s fp = 0)
  releasing : ∀ t fp, s.loc t = .lastDestroy fp → s.owned t fp = 1 ∧ references s fp = 1
  sane : s.faulted = false
  notDeadlocked : ∀ t, (s.loc t).isIdle = false →
    ∃ u, Relation.ReflTransGen (WaitsFor s) t u ∧ (run s u).isSome

omit [DecidableEq ι] in
/-- Every object allocated is live or freed. -/
theorem Counts.freed_iff (counts : Counts s) (fp : Nat)
    : fp ∈ s.freed ↔ 0 < fp ∧ fp ≤ s.allocated ∧ s.heap fp = none := by
  have all := counts.allocated fp
  constructor
  · intro freed
    obtain ⟨positive, bound⟩ := all.mp (.inl freed)
    exact ⟨positive, bound, counts.freed fp freed⟩
  · rintro ⟨positive, bound, dead⟩
    rcases all.mpr ⟨positive, bound⟩ with freed | live
    · exact freed
    · simp [dead] at live

/-- The invariant implies soundness. -/
theorem Inv.sound (inv : Inv s)
    : Sound s := by
  constructor
  case counted =>
    intro fp foo live _
    exact (inv.counts.live fp foo live).1
  case chained =>
    intro idx
    obtain ⟨chain, path, listed⟩ := inv.chains.chain idx
    exact ⟨chain, path, (List.nodup_cons.mp path.nodup).2, listed⟩
  case linked =>
    intro fp linked
    exact inv.counts.live_of_linked linked
  case freedOnce => exact inv.counts.once
  case freed => exact inv.counts.freed_iff
  case lastReference =>
    intro fp positive bound
    rw [inv.counts.freed_iff]
    cases live : s.heap fp with
    | none => simp [positive, bound, (inv.counts.dead fp live).1]
    | some foo =>
        have := (inv.counts.live fp foo live).2
        simp
        omega
  case releasing =>
    intro t fp here
    have hidden : Hidden s t fp := (inv.at_ t).hidden (by rw [here]; rfl)
    exact ⟨hidden.1, hidden.2.1⟩
  case sane => exact inv.sane
  case notDeadlocked =>
    intro t
    exact inv.not_deadlocked

/-- Along every run in which no object gets more than `INT_MAX` references, with any number of
threads: the count of an object that is not locked is the number of references that threads own;
an object is on the chain of its `f_id`, once, from its insertion to its removal, and on no other;
it is freed once, by the thread that drops its last reference; no thread uses a freed object; and
no threads wait for each other in a circle.
Witness: induction over the run.
-/
theorem run_refcount_sound {events : List (Event ι)} (below : EveryStep step Below start events)
    (run : runEvents step start events = some s)
    : Sound s :=
  (runEvents_invariant_of_everyStep step_inv below run start_inv).sound

/-- In the gap of the first thread's release, the second one finds the object; the first drops
its reference, and the release of the second frees the object.
-/
def foundInGap : List (Event (Fin 2)) :=
  .alloc 0 5 true :: List.replicate 5 (.run 0)
    ++ .rele 0 1 :: List.replicate 3 (.run 0)
    ++ .find 1 5 :: List.replicate 7 (.run 1)
    ++ List.replicate 5 (.run 0)
    ++ .rele 1 1 :: List.replicate 9 (.run 1)

/-- A run in which an object is found between the two locks of a release. -/
theorem run_refcount_sound_foundInGap
    : ∃ s, runEvents step start foundInGap = some s
      ∧ s.freed = [1] ∧ s.loc 0 = .idle 0 ∧ s.loc 1 = .idle 0 ∧ Sound s := by
  have happens : ∃ s ∈ runEvents step start foundInGap,
      s.freed = [1] ∧ s.loc 0 = .idle 0 ∧ s.loc 1 = .idle 0 := by
    decide +kernel
  have below : EveryStep step Below start foundInGap := by decide +kernel
  obtain ⟨s, run, freed, first, second⟩ := happens
  exact ⟨s, run, freed, first, second, run_refcount_sound below run⟩

-----------------------------------------------------------------------------------------
-- The range of int
-----------------------------------------------------------------------------------------

/-- The calls of `foo_hold` by a thread that no other one disturbs. -/
def holdCalls (t : ι) (fp : Nat) : Nat → List (Event ι)
  | 0 => []
  | n + 1 => .hold t fp :: List.replicate 3 (.run t) ++ holdCalls t fp n

omit [Fintype ι]

/-- The thread is in no call and owns so many references on an object that is not locked. -/
structure Holding (s : State ι) (t : ι) (fp : Nat) (foo : Foo ι) (n : Nat) : Prop where
  idle : (s.loc t).isIdle
  live : s.heap fp = some foo
  unlocked : foo.fLock = none
  owned : s.owned t fp = n
  positive : 0 < n

/-- One call of `foo_hold` increments the count, in whatever range it is. -/
theorem Holding.hold {n : Nat} (holding : Holding s t fp foo n)
    : ∃ s', runEvents step s (.hold t fp :: List.replicate 3 (.run t)) = some s'
      ∧ Holding s' t fp { foo with fCount := foo.fCount + 1 } (n + 1) := by
  obtain ⟨idle, live, unlocked, owned, positive⟩ := holding
  let called := s.goto t (.holdLock fp false)
  let locked := (called.setFoo fp { foo with fLock := some t }).goto t (.holdIncrement fp false)
  let counted := (increment locked t fp { foo with fLock := some t }).goto t (.holdUnlock fp false)
  let done := (counted.setFoo fp { foo with fCount := foo.fCount + 1, fLock := none }).goto t
    (.idle 0)
  have call : step s (.hold t fp) = some called := if_pos ⟨idle, by omega⟩
  have lock : step called (.run t) = some locked := by
    simp [called, locked, step, Mutex2.run, Loc.op, perform, State.goto, live, unlocked]
  have count : step locked (.run t) = some counted := by
    simp [locked, counted, step, Mutex2.run, Loc.op, code, State.goto, State.setFoo, State.deref]
  have unlock : step counted (.run t) = some done := by
    simp [counted, done, step, Mutex2.run, Loc.op, perform, Mutex2.increment, State.setOwned,
      State.goto, State.setFoo, State.deref]
  refine ⟨done, ?_, ?_⟩
  · simp [runEvents, call, lock, count, unlock]
  · constructor
    case idle => simp [done, Loc.isIdle]
    case live => simp [done, State.goto, State.setFoo, unlocked]
    case unlocked => exact unlocked
    case owned => simp [done, counted, locked, called, State.goto, State.setFoo, increment,
      State.setOwned, owned]
    case positive => exact Nat.succ_pos n

/-- The calls count modulo `2 ^ 32`. -/
theorem Holding.holdCalls {n : Nat} (holding : Holding s t fp foo n) (k : Nat)
    : ∃ s', runEvents step s (holdCalls t fp k) = some s'
      ∧ Holding s' t fp { foo with fCount := foo.fCount + Int32.ofNat k } (n + k) := by
  induction k generalizing s foo n with
  | zero => exact ⟨s, rfl, by simpa using holding⟩
  | succ k ih =>
      obtain ⟨middle, call, held⟩ := holding.hold
      obtain ⟨s', calls, held'⟩ := ih held
      refine ⟨s', runEvents_append call calls, ?_⟩
      have sum : foo.fCount + 1 + Int32.ofNat k = foo.fCount + Int32.ofNat (k + 1) := by
        rw [Int32.ofNat_add, Int32.add_assoc, Int32.add_comm 1]
        rfl
      have refs : n + 1 + k = n + (k + 1) := by omega
      rw [← sum, ← refs]
      exact held'

/-- A thread allocates an object and holds it as often as an `int` can count: the object has
`INT_MAX` references and one more.
-/
def heldTooOften : List (Event Unit) :=
  .alloc () 5 true :: List.replicate 5 (.run ()) ++ holdCalls () 1 INT_MAX

/-- The count of the object, which is not locked, is negative. -/
theorem refcount_overflows
    : ∃ s, runEvents step start heldTooOften = some s ∧ references s 1 = INT_MAX + 1
      ∧ (∃ foo, s.heap 1 = some foo ∧ foo.fLock = none ∧ foo.fCount = Int32.minValue)
      ∧ ¬ Sound s := by
  have allocated : ∃ s ∈ runEvents step start (.alloc () 5 true :: List.replicate 5 (.run ())),
      (s.loc ()).isIdle ∧ s.owned () 1 = 1
        ∧ ∃ foo ∈ s.heap 1, foo.fLock = none ∧ foo.fCount = 1 := by
    decide +kernel
  obtain ⟨first, alloc, idle, owned, foo, live, unlocked, one⟩ := allocated
  have holding : Holding first () 1 foo 1 := ⟨idle, live, unlocked, owned, Nat.one_pos⟩
  obtain ⟨s, calls, held⟩ := holding.holdCalls INT_MAX
  have wrapped : foo.fCount + Int32.ofNat INT_MAX = Int32.minValue := by
    rw [one]
    decide
  have refs : references s 1 = INT_MAX + 1 := by
    simp [references, held.owned, Nat.add_comm]
  refine ⟨s, runEvents_append alloc calls, refs, ⟨_, held.live, unlocked, wrapped⟩, ?_⟩
  intro sound
  have counted := sound.counted 1 _ held.live unlocked
  rw [refs] at counted
  simp only [wrapped] at counted
  exact absurd counted (by decide)

end Minions.Threads.Mutex2
