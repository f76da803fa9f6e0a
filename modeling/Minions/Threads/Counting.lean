import Minions.Threads.Locking

/-! The counts of `mutex2.c`: references are added and dropped, and objects are allocated and
freed.
-/

namespace Minions.Threads.Mutex2

open Minions.Data

variable {ι : Type} {s s' : State ι} {t u : ι} {fp : Nat} {foo : Foo ι} {loc next : Loc}
variable [Fintype ι] [DecidableEq ι]

omit [DecidableEq ι] in
/-- The counts after a change of one object. -/
theorem Counts.change (counts : Counts s) (heap : ∀ fq, fq ≠ fp → s'.heap fq = s.heap fq)
    (refs : ∀ fq, fq ≠ fp → references s' fq = references s fq)
    (linked : ∀ fq, fq ≠ fp → s'.linked fq = s.linked fq)
    (live : ∀ foo, s'.heap fp = some foo →
      foo.fCount.toInt = references s' fp ∧ 0 < references s' fp)
    (dead : s'.heap fp = none → references s' fp = 0 ∧ s'.linked fp = false)
    (allocated : ∀ fq, (fq ∈ s'.freed ∨ (s'.heap fq).isSome) ↔ 0 < fq ∧ fq ≤ s'.allocated)
    (freed : ∀ fq ∈ s'.freed, s'.heap fq = none) (once : s'.freed.Nodup)
    : Counts s' := by
  refine ⟨?_, ?_, allocated, freed, once⟩
  · intro fq foo hfoo
    by_cases this : fq = fp
    · subst this
      exact live foo hfoo
    · rw [heap fq this] at hfoo
      rw [refs fq this]
      exact counts.live fq foo hfoo
  · intro fq hnone
    by_cases this : fq = fp
    · subst this
      exact dead hnone
    · rw [heap fq this] at hnone
      rw [refs fq this, linked fq this]
      exact counts.dead fq hnone

/-- The count and the references of an object change by as much, and some are left. -/
theorem Counts.recount (counts : Counts s) (live : s.heap fp = some foo) {c : Int32} {n : Nat}
    (balance : c.toInt + s.owned t fp = foo.fCount.toInt + n) (positive : 0 < c.toInt)
    : Counts ((s.setFoo fp { foo with fCount := c }).setOwned t fp n) := by
  have old := (counts.live fp foo live).1
  have sum : references ((s.setFoo fp { foo with fCount := c }).setOwned t fp n) fp
      + s.owned t fp = references s fp + n :=
    references_setOwned (s.setFoo fp { foo with fCount := c }) t fp n
  have others : ∀ fq, fq ≠ fp → (s.setFoo fp { foo with fCount := c }).heap fq = s.heap fq :=
    fun fq other => Function.update_of_ne other _ _
  have here : (s.setFoo fp { foo with fCount := c }).heap fp = some { foo with fCount := c } :=
    Function.update_self ..
  have same : ∀ fq, ((s.setFoo fp { foo with fCount := c }).heap fq).isSome
      = (s.heap fq).isSome := by
    intro fq
    by_cases this : fq = fp
    · rw [this, here, live]
      rfl
    · rw [others fq this]
  apply counts.change
  case heap => exact others
  case refs =>
    intro fq other
    exact references_setOwned_of_ne (s.setFoo fp { foo with fCount := c }) t n other
  case linked =>
    intro fq _
    rfl
  case live =>
    intro foo' hfoo'
    cases here.symm.trans hfoo'
    show c.toInt = _ ∧ _
    omega
  case dead =>
    intro hnone
    cases here.symm.trans hnone
  case allocated =>
    intro fq
    show (fq ∈ s.freed ∨ ((s.setFoo fp { foo with fCount := c }).heap fq).isSome) ↔ _
    rw [same]
    exact counts.allocated fq
  case freed =>
    intro fq hfq
    have hdead := counts.freed fq hfq
    have this : fq ≠ fp := by
      intro eq
      rw [eq, live] at hdead
      cases hdead
    exact (others fq this).trans hdead
  case once => exact counts.once

/-- A thread that has locked an object changes its count and its own references. -/
theorem Inv.recount (inv : Inv s) (here : s.loc t = loc) (holds : loc.holds = some fp)
    (live : s.heap fp = some foo) {c : Int32} {n : Nat}
    (balance : c.toInt + s.owned t fp = foo.fCount.toInt + n) (positive : 0 < c.toInt)
    (alike : loc.Alike next)
    (self : AtLoc ((s.setFoo fp { foo with fCount := c }).setOwned t fp n) t next)
    : Inv (((s.setFoo fp { foo with fCount := c }).setOwned t fp n).goto t next) := by
  subst here
  obtain ⟨hash, object, hides⟩ := alike
  apply inv.after t
  case locks => exact inv.locks.keep rfl rfl (bind_setFoo live rfl) hash object
  case counts =>
    have counts : Counts ((s.setFoo fp { foo with fCount := c }).setOwned t fp n) :=
      inv.counts.recount live balance positive
    exact counts.keep rfl (fun _ => rfl) rfl rfl fun fq dead => (counts.dead fq dead).2
  case chains => exact inv.chains.keep rfl rfl rfl (map_setFoo live rfl) hides
  case sane => exact inv.sane
  case others =>
    intro u other
    apply inv.rely other rfl
    case owned => exact Function.update_of_ne other _ _
    case fh => rfl
    case linked => rfl
    case links =>
      intro fq _
      exact map_setFoo live (by rfl) fq
    case heap =>
      intro fq apart
      exact Function.update_of_ne apart _ _
    case refs =>
      intro fq apart
      exact references_setOwned_of_ne (s.setFoo fp { foo with fCount := c }) t n apart
    case shown =>
      intro hidden
      exact (inv.hidden_alone hidden other.symm).2.2 holds
    case unlocked =>
      intro theirs
      exact absurd (inv.locks.object_unique theirs holds) other
  case self =>
    rw [goto_loc, atLoc_goto]
    exact self

-----------------------------------------------------------------------------------------
-- Allocation and release
-----------------------------------------------------------------------------------------

omit [DecidableEq ι] in
/-- The next object has not been allocated. -/
theorem Counts.fresh (counts : Counts s)
    : s.heap (s.allocated + 1) = none ∧ s.allocated + 1 ∉ s.freed := by
  have unused := mt (counts.allocated (s.allocated + 1)).mp (by omega)
  constructor
  · apply Option.eq_none_iff_forall_ne_some.mpr
    intro foo live
    exact unused (.inr (by simp [live]))
  · intro freed
    exact unused (.inl freed)

/-- `foo_alloc` keeps the counts. -/
theorem Counts.alloc (counts : Counts s) (t : ι) (id : Int32)
    : Counts (fooAlloc s t id) := by
  obtain ⟨unused, unfreed⟩ := counts.fresh
  obtain ⟨none_, -⟩ := counts.dead _ unused
  have sum : references (fooAlloc s t id) (s.allocated + 1) + s.owned t (s.allocated + 1)
      = references s (s.allocated + 1) + 1 :=
    references_setOwned (s.setFoo (s.allocated + 1) _) t (s.allocated + 1) 1
  have owned := owned_le_references s t (s.allocated + 1)
  have others : ∀ fq, fq ≠ s.allocated + 1 → (fooAlloc s t id).heap fq = s.heap fq :=
    fun fq other => Function.update_of_ne other _ _
  have here : (fooAlloc s t id).heap (s.allocated + 1) = some ⟨1, none, id, 0⟩ :=
    Function.update_self ..
  apply counts.change
  case heap => exact others
  case refs =>
    intro fq other
    exact references_setOwned_of_ne (s.setFoo (s.allocated + 1) _) t 1 other
  case linked =>
    intro fq _
    rfl
  case live =>
    intro foo hfoo
    cases here.symm.trans hfoo
    show (1 : Int32).toInt = _ ∧ _
    have one : (1 : Int32).toInt = 1 := rfl
    omega
  case dead =>
    intro hnone
    cases here.symm.trans hnone
  case allocated =>
    intro fq
    show (fq ∈ s.freed ∨ _) ↔ 0 < fq ∧ fq ≤ s.allocated + 1
    by_cases this : fq = s.allocated + 1
    · subst this
      simp [here]
    · rw [others fq this, counts.allocated]
      omega
  case freed =>
    intro fq hfq
    have this : fq ≠ s.allocated + 1 := by
      intro eq
      exact unfreed (eq ▸ hfq)
    exact (others fq this).trans (counts.freed fq hfq)
  case once => exact counts.once

omit [Fintype ι] [DecidableEq ι] in
/-- The chains do not go through an object that is not linked. -/
theorem links_of_others (others : ∀ fq, fq ≠ fp → s'.heap fq = s.heap fq)
    (off : s.linked fp = false)
    : ∀ fq, s.linked fq → (s'.heap fq).map Foo.links = (s.heap fq).map Foo.links := by
  intro fq linked
  rw [others fq]
  intro eq
  rw [eq, off] at linked
  cases linked

omit [Fintype ι] [DecidableEq ι] in
/-- Another object off the chains is still hidden by a thread that has not moved. -/
theorem Chains.exists_hides {fq : Nat} (chains : Chains s) (live : s.heap fq = some foo)
    (off : s.linked fq = false) (other : (s.loc t).hides ≠ some fq)
    (locs : ∀ u, u ≠ t → s'.loc u = s.loc u)
    : ∃ u, (s'.loc u).hides = some fq := by
  obtain ⟨u, hides⟩ := chains.off fq foo live off
  have apart : u ≠ t := by
    intro eq
    exact other (eq ▸ hides)
  exact ⟨u, by rw [locs u apart, hides]⟩

/-- A new object is known to its thread only. -/
theorem Inv.alloc (inv : Inv s) (idle : (s.loc t).isIdle) (id : Int32)
    : Inv (fooAlloc s t id) := by
  obtain ⟨unused, -⟩ := inv.counts.fresh
  obtain ⟨none_, off⟩ := inv.counts.dead _ unused
  have outside : (s.loc t).holdsHash = false ∧ (s.loc t).holds = none
      ∧ (s.loc t).hides = none := by
    cases here : s.loc t <;> rw [here] at idle <;> cases idle
    exact ⟨rfl, rfl, rfl⟩
  have others : ∀ fq, fq ≠ s.allocated + 1 → (fooAlloc s t id).heap fq = s.heap fq :=
    fun fq other => Function.update_of_ne other _ _
  have here : (fooAlloc s t id).heap (s.allocated + 1) = some ⟨1, none, id, 0⟩ :=
    Function.update_self ..
  have links := links_of_others others off
  apply inv.after t
  case locks =>
    refine inv.locks.keep rfl rfl ?_ outside.1.symm outside.2.1.symm
    intro fq
    by_cases this : fq = s.allocated + 1
    · rw [this, here, unused]
      rfl
    · rw [others fq this]
  case counts => exact inv.counts.alloc t id
  case chains =>
    refine ⟨inv.chains.chain_keep rfl rfl links, ?_⟩
    intro fq foo hfoo offChain
    by_cases this : fq = s.allocated + 1
    · exact ⟨t, by simp [fooAlloc, Loc.hides, this]⟩
    · rw [others fq this] at hfoo
      refine inv.chains.exists_hides hfoo offChain ?_ fun u apart => Function.update_of_ne apart _ _
      rw [outside.2.2]
      nofun
  case sane => exact inv.sane
  case others =>
    intro u other
    apply inv.rely other rfl
    case owned => exact Function.update_of_ne other _ _
    case fh => rfl
    case linked => rfl
    case links => exact links
    case heap => exact others
    case refs =>
      intro fq apart
      exact references_setOwned_of_ne (s.setFoo (s.allocated + 1) _) t 1 apart
    case shown =>
      intro hidden
      have := ((inv.at_ u).hidden hidden).2.1
      omega
    case unlocked =>
      intro holds
      obtain ⟨foo, live, -⟩ := (inv.locks.object u _).mp holds
      rw [unused] at live
      cases live
  case self =>
    have sum : references (fooAlloc s t id) (s.allocated + 1) + s.owned t (s.allocated + 1)
        = references s (s.allocated + 1) + 1 :=
      references_setOwned (s.setFoo (s.allocated + 1) _) t (s.allocated + 1) 1
    have owned := owned_le_references s t (s.allocated + 1)
    rw [show (fooAlloc s t id).loc t = .allocLockHash (s.allocated + 1) (hash id) from goto_loc ..]
    refine ⟨⟨?_, by omega, off⟩, _, here, rfl, rfl⟩
    simp [fooAlloc, State.goto, State.setOwned]

/-- Freeing a hidden object keeps the counts. -/
theorem Counts.free (counts : Counts s) (live : s.heap fp = some foo) (hidden : Hidden s t fp)
    : Counts (s.free t fp) := by
  obtain ⟨owned, sole, off⟩ := hidden
  have sum : references (s.free t fp) fp + s.owned t fp = references s fp + (s.owned t fp - 1) :=
    references_setOwned s t fp _
  have others : ∀ fq, fq ≠ fp → (s.free t fp).heap fq = s.heap fq :=
    fun fq other => Function.update_of_ne other _ _
  have here : (s.free t fp).heap fp = none := Function.update_self ..
  have unfreed : fp ∉ s.freed := by
    intro freed
    rw [counts.freed fp freed] at live
    cases live
  apply counts.change
  case heap => exact others
  case refs =>
    intro fq other
    exact references_setOwned_of_ne s t _ other
  case linked =>
    intro fq _
    rfl
  case live =>
    intro foo' hfoo'
    cases here.symm.trans hfoo'
  case dead =>
    intro _
    exact ⟨by omega, off⟩
  case allocated =>
    intro fq
    show (fq ∈ s.freed ++ [fp] ∨ _) ↔ 0 < fq ∧ fq ≤ s.allocated
    rw [← counts.allocated]
    by_cases this : fq = fp
    · subst this
      simp [live]
    · simp [others fq this, this]
  case freed =>
    intro fq hfq
    by_cases this : fq = fp
    · rw [this, here]
    · have old : fq ∈ s.freed := by
        have : fq ∈ s.freed ++ [fp] := hfq
        simp_all
      exact (others fq this).trans (counts.freed fq old)
  case once =>
    show (s.freed ++ [fp]).Nodup
    simp [List.nodup_append, counts.once]
    intro fq hfq eq
    exact unfreed (eq ▸ hfq)

/-- A hidden object that is not locked is freed by the thread that hides it. -/
theorem Inv.free (inv : Inv s) (here : s.loc t = .lastDestroy fp) (live : s.heap fp = some foo)
    (unlocked : foo.fLock = none)
    : Inv ((s.free t fp).goto t (.idle 0)) := by
  have hidden : Hidden s t fp := (inv.at_ t).hidden (by rw [here]; rfl)
  have others : ∀ fq, fq ≠ fp → (s.free t fp).heap fq = s.heap fq :=
    fun fq other => Function.update_of_ne other _ _
  have links := links_of_others others hidden.2.2
  apply inv.after t
  case locks =>
    refine inv.locks.keep rfl rfl ?_ (by rw [here]; rfl) (by rw [here]; rfl)
    intro fq
    show ((s.free t fp).heap fq).bind Foo.fLock = _
    by_cases this : fq = fp
    · subst this
      have : (s.free t fq).heap fq = none := Function.update_self ..
      rw [this, live]
      exact unlocked.symm
    · rw [others fq this]
  case counts =>
    have counts := inv.counts.free live hidden
    exact counts.keep rfl (fun _ => rfl) rfl rfl fun fq dead => (counts.dead fq dead).2
  case chains =>
    refine ⟨inv.chains.chain_keep rfl rfl links, ?_⟩
    intro fq foo' (hfoo' : (s.free t fp).heap fq = some foo') off
    have this : fq ≠ fp := by
      intro eq
      have gone : (s.free t fp).heap fp = none := Function.update_self ..
      rw [eq, gone] at hfoo'
      cases hfoo'
    rw [others fq this] at hfoo'
    refine inv.chains.exists_hides hfoo' off ?_ fun u apart => Function.update_of_ne apart _ _
    intro hides
    rw [here] at hides
    exact this (Option.some.inj hides).symm
  case sane => exact inv.sane
  case others =>
    intro u other
    apply inv.rely other rfl
    case owned => exact Function.update_of_ne other _ _
    case fh => rfl
    case linked => rfl
    case links => exact links
    case heap => exact others
    case refs =>
      intro fq apart
      exact references_setOwned_of_ne s t _ apart
    case shown =>
      intro hides
      have := (inv.hidden_alone hides other.symm).1
      have := hidden.1
      omega
    case unlocked =>
      intro holds
      exact absurd holds (inv.hidden_alone (by rw [here]; rfl) other).2.2
  case self =>
    rw [goto_loc]
    exact .inl rfl

end Minions.Threads.Mutex2
