import Minions.Data.DoublyLinked

/-! The job queue of `rwlock.c`. The callers own the jobs; the queue links them both ways, and
the links of a job that has been removed are left as they were.
A function that follows a pointer to no job has no result.
-/

namespace Minions.Threads.Rwlock

open Minions.Data

variable {τ : Type}

/-- `struct job`, with links that are addresses; 0 is `NULL`. -/
structure Job (τ : Type) where
  j_next : Nat
  j_prev : Nat
  j_id : τ
deriving Repr, DecidableEq

/-- `pthread_rwlock_t`. -/
structure RwLock where
  readers : Nat
  writer : Bool
deriving Repr, DecidableEq

def EDEADLK : Int := 35

namespace RwLock

/-- `pthread_rwlock_rdlock` of a thread that nobody makes wait. -/
def rdlock (lock : RwLock) : Int × RwLock :=
  if lock.writer then (EDEADLK, lock) else (0, { lock with readers := lock.readers + 1 })

/-- `pthread_rwlock_wrlock` of a thread that nobody makes wait. -/
def wrlock (lock : RwLock) : Int × RwLock :=
  if lock.writer ∨ lock.readers ≠ 0 then (EDEADLK, lock) else (0, { lock with writer := true })

def unlock (lock : RwLock) : RwLock :=
  if lock.writer then { lock with writer := false }
  else { lock with readers := lock.readers - 1 }

end RwLock

/-- `struct queue`, with the jobs in memory. -/
structure Queue (τ : Type) where
  heap : Nat → Option (Job τ)
  q_head : Nat
  q_tail : Nat
  q_lock : RwLock

namespace Queue

variable (qp : Queue τ)

def j_next (a : Nat) : Option Nat := (qp.heap a).map Job.j_next

def j_prev (a : Nat) : Option Nat := (qp.heap a).map Job.j_prev

def j_id (a : Nat) : Option τ := (qp.heap a).map Job.j_id

/-- `a->j_next = v` -/
def setNext (a v : Nat) : Option (Queue τ) :=
  (qp.heap a).map fun jp =>
    { qp with heap := Function.update qp.heap a (some { jp with j_next := v }) }

/-- `a->j_prev = v` -/
def setPrev (a v : Nat) : Option (Queue τ) :=
  (qp.heap a).map fun jp =>
    { qp with heap := Function.update qp.heap a (some { jp with j_prev := v }) }

def wrlock : Queue τ := { qp with q_lock := qp.q_lock.wrlock.2 }

def unlock : Queue τ := { qp with q_lock := qp.q_lock.unlock }

/-- `queue_init`, which also returns what became of the initialization of the lock. -/
def queueInit (err : Int) : Int × Queue τ :=
  (err, { qp with q_head := 0, q_tail := 0, q_lock := ⟨0, false⟩ })

def jobInsert (jp : Nat) : Option (Queue τ) := do
  let qp := qp.wrlock
  let qp ← qp.setNext jp qp.q_head
  let qp ← qp.setPrev jp 0
  let qp ← if qp.q_head ≠ 0 then qp.setPrev qp.q_head jp else some { qp with q_tail := jp }
  some { qp with q_head := jp }.unlock

def jobAppend (jp : Nat) : Option (Queue τ) := do
  let qp := qp.wrlock
  let qp ← qp.setNext jp 0
  let qp ← qp.setPrev jp qp.q_tail
  let qp ← if qp.q_tail ≠ 0 then qp.setNext qp.q_tail jp else some { qp with q_head := jp }
  some { qp with q_tail := jp }.unlock

/-- `jp->j_next->j_prev = jp->j_prev` -/
def bypassPrev (jp : Nat) : Option (Queue τ) := do
  let next ← qp.j_next jp
  let prev ← qp.j_prev jp
  qp.setPrev next prev

/-- `jp->j_prev->j_next = jp->j_next` -/
def bypassNext (jp : Nat) : Option (Queue τ) := do
  let prev ← qp.j_prev jp
  let next ← qp.j_next jp
  qp.setNext prev next

def jobRemove (jp : Nat) : Option (Queue τ) := do
  let qp := qp.wrlock
  let qp ←
    if jp = qp.q_head then do
      let next ← qp.j_next jp
      let qp := { qp with q_head := next }
      if qp.q_tail = jp then some { qp with q_tail := 0 } else qp.bypassPrev jp
    else if jp = qp.q_tail then do
      let prev ← qp.j_prev jp
      let qp := { qp with q_tail := prev }
      qp.bypassNext jp
    else do
      let qp ← qp.bypassNext jp
      qp.bypassPrev jp
  some qp.unlock

section find

variable [DecidableEq τ]

/-- The loop of `job_find` from a job on, with a bound on its rounds. -/
def findFrom (id : τ) : Nat → Nat → Option Nat
  | 0, _ => none
  | rounds + 1, jp =>
      if jp = 0 then some jp
      else
        match qp.heap jp with
        | none => none
        | some job => if job.j_id = id then some jp else findFrom id rounds job.j_next

/-- `job_find`, with a bound on the rounds of its loop. -/
def jobFind (id : τ) (rounds : Nat) : Option (Nat × Queue τ) :=
  let (err, lock) := qp.q_lock.rdlock
  let qp := { qp with q_lock := lock }
  if err ≠ 0 then some (0, qp) else (qp.findFrom id rounds qp.q_head).map (·, qp.unlock)

end find

-----------------------------------------------------------------------------------------
-- The links
-----------------------------------------------------------------------------------------

variable {qp : Queue τ} {a jp m n : Nat} {jobs l₁ l₂ : List Nat}

/-- The forward pointer of a job is written. -/
theorem setNext_spec (qp : Queue τ) (v : Nat) (found : (qp.j_id a).isSome)
    : ∃ qp', qp.setNext a v = some qp' ∧ qp'.q_head = qp.q_head ∧ qp'.q_tail = qp.q_tail
        ∧ qp'.q_lock = qp.q_lock ∧ qp'.j_id = qp.j_id ∧ qp'.j_prev = qp.j_prev
        ∧ qp'.j_next = Function.update qp.j_next a (some v) := by
  simp only [j_id, Option.isSome_map] at found
  obtain ⟨job, eq⟩ := Option.isSome_iff_exists.mp found
  refine ⟨_, congrArg (Option.map _) eq, rfl, rfl, rfl, ?_, ?_, ?_⟩
  all_goals
    funext b
    by_cases same : b = a
    · simp [j_id, j_prev, j_next, same, eq]
    · simp [j_id, j_prev, j_next, same]

/-- The backward pointer of a job is written. -/
theorem setPrev_spec (qp : Queue τ) (v : Nat) (found : (qp.j_id a).isSome)
    : ∃ qp', qp.setPrev a v = some qp' ∧ qp'.q_head = qp.q_head ∧ qp'.q_tail = qp.q_tail
        ∧ qp'.q_lock = qp.q_lock ∧ qp'.j_id = qp.j_id ∧ qp'.j_next = qp.j_next
        ∧ qp'.j_prev = Function.update qp.j_prev a (some v) := by
  simp only [j_id, Option.isSome_map] at found
  obtain ⟨job, eq⟩ := Option.isSome_iff_exists.mp found
  refine ⟨_, congrArg (Option.map _) eq, rfl, rfl, rfl, ?_, ?_, ?_⟩
  all_goals
    funext b
    by_cases same : b = a
    · simp [j_id, j_prev, j_next, same, eq]
    · simp [j_id, j_prev, j_next, same]

/-- Between two calls: nobody holds the lock, and the links are those of the jobs, from head to
tail.
-/
structure Stands (qp : Queue τ) (jobs : List Nat) : Prop where
  free : qp.q_lock = ⟨0, false⟩
  linked : DLinked qp.j_next qp.j_prev qp.q_head jobs qp.q_tail

/-- A job of the queue is live. -/
theorem Stands.isSome (h : qp.Stands jobs) (member : a ∈ jobs) : (qp.j_id a).isSome := by
  obtain ⟨⟨next, forth⟩, -⟩ := h.linked.exists_ member
  obtain ⟨job, found, -⟩ := Option.map_eq_some_iff.mp forth
  simp [j_id, found]

/-- What a call finds when it has taken the lock. -/
theorem Stands.enter (h : qp.Stands jobs)
    : qp.wrlock.q_lock = ⟨0, true⟩
      ∧ DLinked qp.wrlock.j_next qp.wrlock.j_prev qp.wrlock.q_head jobs qp.wrlock.q_tail
      ∧ (∀ b ∈ jobs, (qp.wrlock.j_id b).isSome)
      ∧ qp.wrlock.j_id = qp.j_id :=
  ⟨by simp [wrlock, RwLock.wrlock, h.free], h.linked, fun _ hb => h.isSome hb, rfl⟩

/-- Unlocking gives up the write lock. -/
theorem unlock_free (held : qp.q_lock = ⟨0, true⟩) : qp.unlock.q_lock = ⟨0, false⟩ := by
  simp [unlock, RwLock.unlock, held]

/-- The queue is empty at the start. -/
theorem stands_queueInit (qp : Queue τ) (err : Int) : (qp.queueInit err).2.Stands [] :=
  ⟨rfl, rfl, rfl⟩

/-- `job_insert` links its job before the head. -/
theorem jobInsert_spec (h : qp.Stands jobs) (outside : jp ∉ jobs) (nonzero : jp ≠ 0)
    (exists_ : (qp.j_id jp).isSome)
    : ∃ qp', qp.jobInsert jp = some qp' ∧ qp'.Stands (jp :: jobs) ∧ qp'.j_id = qp.j_id := by
  obtain ⟨held, linked, isSome, ids⟩ := h.enter
  rw [← ids] at exists_ ⊢
  obtain ⟨q₁, eq₁, head₁, tail₁, lock₁, id₁, prev₁, next₁⟩ :=
    setNext_spec qp.wrlock qp.wrlock.q_head exists_
  obtain ⟨q₂, eq₂, head₂, tail₂, lock₂, id₂, next₂, prev₂⟩ :=
    setPrev_spec q₁ 0 (by rw [id₁]; exact exists_)
  have lock : q₂.q_lock = ⟨0, true⟩ := by rw [lock₂, lock₁, held]
  have apart : ∀ b ∈ jobs, b ≠ jp := fun b hb same => outside (same ▸ hb)
  by_cases zero : qp.wrlock.q_head = 0
  · have empty : jobs = [] := linked.first_eq_zero.mp zero
    refine ⟨unlock { q₂ with q_tail := jp, q_head := jp }, ?_, ⟨unlock_free lock, ?_⟩,
      id₂.trans id₁⟩
    · simp only [jobInsert, Option.bind_eq_bind, eq₁, Option.bind_some, eq₂, head₂, head₁,
        if_neg (not_not.mpr zero)]
    · subst empty
      refine ⟨rfl, nonzero, ?_, 0, ?_, rfl, rfl⟩
      · exact (congrFun prev₂ jp).trans (by simp)
      · exact (congrFun next₂ jp).trans (by simp [next₁, zero])
  · have cons : jobs ≠ [] := mt linked.first_eq_zero.mpr zero
    have member : qp.wrlock.q_head ∈ jobs := linked.first_mem cons
    obtain ⟨q₃, eq₃, head₃, tail₃, lock₃, id₃, next₃, prev₃⟩ :=
      setPrev_spec q₂ jp (by rw [id₂, id₁]; exact isSome _ member)
    refine ⟨unlock { q₃ with q_head := jp }, ?_, ⟨unlock_free (lock₃.trans lock), ?_⟩,
      id₃.trans (id₂.trans id₁)⟩
    · simp only [jobInsert, Option.bind_eq_bind, eq₁, Option.bind_some, eq₂, head₂, head₁,
        if_pos zero, eq₃]
    · have pushed : DLinked q₃.j_next q₃.j_prev jp (jp :: jobs)
          (if jobs = [] then jp else qp.wrlock.q_tail) := by
        refine DLinked.pushFront linked nonzero ?_ ?_ ?_ ?_ ?_
        · simp [prev₃, prev₂, (apart _ member).symm]
        · simp [next₃, next₂, next₁]
        · exact fun y hy => by simp [next₃, next₂, next₁, apart y hy]
        · exact fun y hy different => by simp [prev₃, prev₂, prev₁, different, apart y hy]
        · exact fun _ => by simp [prev₃]
      rw [if_neg cons, ← tail₁, ← tail₂, ← tail₃] at pushed
      exact pushed

/-- `job_append` links its job behind the tail. -/
theorem jobAppend_spec (h : qp.Stands jobs) (outside : jp ∉ jobs) (nonzero : jp ≠ 0)
    (exists_ : (qp.j_id jp).isSome)
    : ∃ qp', qp.jobAppend jp = some qp' ∧ qp'.Stands (jobs ++ [jp]) ∧ qp'.j_id = qp.j_id := by
  obtain ⟨held, linked, isSome, ids⟩ := h.enter
  rw [← ids] at exists_ ⊢
  obtain ⟨q₁, eq₁, head₁, tail₁, lock₁, id₁, prev₁, next₁⟩ := setNext_spec qp.wrlock 0 exists_
  obtain ⟨q₂, eq₂, head₂, tail₂, lock₂, id₂, next₂, prev₂⟩ :=
    setPrev_spec q₁ q₁.q_tail (by rw [id₁]; exact exists_)
  rw [tail₁] at eq₂ prev₂
  have lock : q₂.q_lock = ⟨0, true⟩ := by rw [lock₂, lock₁, held]
  have apart : ∀ b ∈ jobs, b ≠ jp := fun b hb same => outside (same ▸ hb)
  by_cases zero : qp.wrlock.q_tail = 0
  · have empty : jobs = [] := linked.last_eq_zero.mp zero
    refine ⟨unlock { q₂ with q_head := jp, q_tail := jp }, ?_, ⟨unlock_free lock, ?_⟩,
      id₂.trans id₁⟩
    · simp only [jobAppend, Option.bind_eq_bind, eq₁, Option.bind_some, eq₂, tail₂, tail₁,
        if_neg (not_not.mpr zero)]
    · subst empty
      refine ⟨rfl, nonzero, ?_, 0, ?_, rfl, rfl⟩
      · exact (congrFun prev₂ jp).trans (by simp [zero])
      · exact (congrFun next₂ jp).trans (by simp [next₁])
  · have cons : jobs ≠ [] := mt linked.last_eq_zero.mpr zero
    have member : qp.wrlock.q_tail ∈ jobs := linked.last_mem cons
    obtain ⟨q₃, eq₃, head₃, tail₃, lock₃, id₃, prev₃, next₃⟩ :=
      setNext_spec q₂ jp (by rw [id₂, id₁]; exact isSome _ member)
    refine ⟨unlock { q₃ with q_tail := jp }, ?_, ⟨unlock_free (lock₃.trans lock), ?_⟩,
      id₃.trans (id₂.trans id₁)⟩
    · simp only [jobAppend, Option.bind_eq_bind, eq₁, Option.bind_some, eq₂, tail₂, tail₁,
        if_pos zero, eq₃]
    · have pushed : DLinked q₃.j_next q₃.j_prev (if jobs = [] then jp else qp.wrlock.q_head)
          (jobs ++ [jp]) jp := by
        refine DLinked.pushBack linked nonzero ?_ ?_ ?_ ?_ ?_
        · simp [prev₃, prev₂]
        · simp [next₃, next₂, next₁, (apart _ member).symm]
        · exact fun y hy => by simp [prev₃, prev₂, prev₁, apart y hy]
        · exact fun y hy different => by simp [next₃, next₂, next₁, different, apart y hy]
        · exact fun _ => by simp [next₃]
      rw [if_neg cons, ← head₁, ← head₂, ← head₃] at pushed
      exact pushed

/-- The job behind gets the backward pointer. -/
theorem bypassPrev_spec (qp : Queue τ) (forth : qp.j_next jp = some n)
    (back : qp.j_prev jp = some m) (exists_ : (qp.j_id n).isSome)
    : ∃ qp', qp.bypassPrev jp = some qp' ∧ qp'.q_head = qp.q_head ∧ qp'.q_tail = qp.q_tail
        ∧ qp'.q_lock = qp.q_lock ∧ qp'.j_id = qp.j_id ∧ qp'.j_next = qp.j_next
        ∧ qp'.j_prev = Function.update qp.j_prev n (some m) := by
  simpa only [bypassPrev, Option.bind_eq_bind, forth, back, Option.bind_some] using
    setPrev_spec qp m exists_

/-- The job before gets the forward pointer. -/
theorem bypassNext_spec (qp : Queue τ) (forth : qp.j_next jp = some n)
    (back : qp.j_prev jp = some m) (exists_ : (qp.j_id m).isSome)
    : ∃ qp', qp.bypassNext jp = some qp' ∧ qp'.q_head = qp.q_head ∧ qp'.q_tail = qp.q_tail
        ∧ qp'.q_lock = qp.q_lock ∧ qp'.j_id = qp.j_id ∧ qp'.j_prev = qp.j_prev
        ∧ qp'.j_next = Function.update qp.j_next m (some n) := by
  simpa only [bypassNext, Option.bind_eq_bind, forth, back, Option.bind_some] using
    setNext_spec qp n exists_

/-- The links that are left when the neighbours of a job, where it has any, lead to each other. -/
theorem linked_remove {qp qp' : Queue τ}
    (linked : DLinked qp.j_next qp.j_prev qp.q_head (l₁ ++ jp :: l₂) qp.q_tail)
    (forth : qp.j_next jp = some n) (back : qp.j_prev jp = some m)
    (head : qp'.q_head = if m = 0 then n else qp.q_head)
    (tail : qp'.q_tail = if n = 0 then m else qp.q_tail)
    (nexts : qp'.j_next = if m = 0 then qp.j_next else Function.update qp.j_next m (some n))
    (prevs : qp'.j_prev = if n = 0 then qp.j_prev else Function.update qp.j_prev n (some m))
    : DLinked qp'.j_next qp'.j_prev qp'.q_head (l₁ ++ l₂) qp'.q_tail := by
  rw [head, tail]
  refine DLinked.remove linked back forth ?_ ?_ ?_ ?_
  · intro y _ different
    rw [nexts]
    split
    · rfl
    · simp [different]
  · intro y _ different
    rw [prevs]
    split
    · rfl
    · simp [different]
  · intro nonzero
    simp [nexts, nonzero]
  · intro nonzero
    simp [prevs, nonzero]

/-- `job_remove` unlinks a job anywhere in the list. -/
theorem jobRemove_spec (h : qp.Stands (l₁ ++ jp :: l₂))
    : ∃ qp', qp.jobRemove jp = some qp' ∧ qp'.Stands (l₁ ++ l₂) ∧ qp'.j_id = qp.j_id := by
  obtain ⟨held, linked, isSome, ids⟩ := h.enter
  rw [← ids]
  simp only [jobRemove, Option.bind_eq_bind]
  generalize qp.wrlock = q at held linked isSome
  obtain ⟨⟨n, forth⟩, m, back⟩ := linked.exists_ (y := jp) (by simp)
  obtain ⟨afterIn, beforeIn⟩ := linked.neighbours forth back
  obtain ⟨isHead, isTail⟩ := linked.ends forth back
  by_cases first : m = 0
  · rw [if_pos (isHead.mpr first), forth, Option.bind_some]
    by_cases last : n = 0
    · -- The sole job.
      rw [if_pos (isTail.mpr last).symm, Option.bind_some]
      refine ⟨_, rfl, ⟨unlock_free held, ?_⟩, rfl⟩
      exact linked_remove linked forth back (if_pos first).symm
        ((if_pos last).trans first).symm (if_pos first).symm (if_pos last).symm
    · -- The head of a longer queue.
      rw [if_neg (mt (isTail.mp ∘ Eq.symm) last)]
      obtain ⟨q₁, eq₁, head₁, tail₁, lock₁, id₁, next₁, prev₁⟩ :=
        bypassPrev_spec { q with q_head := n } forth back (isSome n (by simp [afterIn last]))
      rw [eq₁, Option.bind_some]
      refine ⟨_, rfl, ⟨unlock_free (lock₁.trans held), ?_⟩, id₁⟩
      exact linked_remove linked forth back (head₁.trans (if_pos first).symm)
        (tail₁.trans (if_neg last).symm) (next₁.trans (if_pos first).symm)
        (prev₁.trans (if_neg last).symm)
  · rw [if_neg (mt isHead.mp first)]
    by_cases last : n = 0
    · -- The tail of a longer queue.
      rw [if_pos (isTail.mpr last), back, Option.bind_some]
      obtain ⟨q₁, eq₁, head₁, tail₁, lock₁, id₁, prev₁, next₁⟩ :=
        bypassNext_spec { q with q_tail := m } forth back (isSome m (by simp [beforeIn first]))
      rw [eq₁, Option.bind_some]
      refine ⟨_, rfl, ⟨unlock_free (lock₁.trans held), ?_⟩, id₁⟩
      exact linked_remove linked forth back (head₁.trans (if_neg first).symm)
        (tail₁.trans (if_pos last).symm) (next₁.trans (if_neg first).symm)
        (prev₁.trans (if_pos last).symm)
    · -- A job between two others.
      rw [if_neg (mt isTail.mp last)]
      obtain ⟨q₁, eq₁, head₁, tail₁, lock₁, id₁, prev₁, next₁⟩ :=
        bypassNext_spec q forth back (isSome m (by simp [beforeIn first]))
      have apart : jp ≠ m := by
        rintro rfl
        exact (List.nodup_append.mp linked.nodup).2.2 jp (beforeIn first) jp List.mem_cons_self rfl
      have forth₁ : q₁.j_next jp = some n := by simp [next₁, apart, forth]
      have back₁ : q₁.j_prev jp = some m := by rw [prev₁, back]
      obtain ⟨q₂, eq₂, head₂, tail₂, lock₂, id₂, next₂, prev₂⟩ :=
        bypassPrev_spec q₁ forth₁ back₁ (by rw [id₁]; exact isSome n (by simp [afterIn last]))
      rw [eq₁, Option.bind_some, eq₂, Option.bind_some]
      refine ⟨_, rfl, ⟨unlock_free (lock₂.trans (lock₁.trans held)), ?_⟩, id₂.trans id₁⟩
      refine linked_remove linked forth back (head₂.trans (head₁.trans (if_neg first).symm))
        (tail₂.trans (tail₁.trans (if_neg last).symm)) ?_ ?_
      · exact next₂.trans (next₁.trans (if_neg first).symm)
      · rw [show (unlock q₂).j_prev = q₂.j_prev from rfl, prev₂, prev₁, if_neg last]

section find

variable [DecidableEq τ]

/-- The loop of `job_find` on the rest of the list. -/
theorem findFrom_eq {before first last : Nat}
    (linked : Segment qp.j_next qp.j_prev before first jobs last 0) (id : τ) {rounds : Nat}
    (enough : jobs.length < rounds)
    : qp.findFrom id rounds first
      = some ((jobs.find? fun jp => qp.j_id jp = some id).getD 0) := by
  induction jobs generalizing before first rounds with
  | nil =>
      cases rounds with
      | zero => exact absurd enough (Nat.not_lt_zero _)
      | succ rounds => simp [findFrom, linked.1]
  | cons jp rest ih =>
      obtain ⟨rfl, nonzero, -, n, forth, tail⟩ := linked
      cases rounds with
      | zero => exact absurd enough (Nat.not_lt_zero _)
      | succ rounds =>
          obtain ⟨job, found, rfl⟩ := Option.map_eq_some_iff.mp forth
          have here : qp.j_id first = some job.j_id := by simp [j_id, found]
          by_cases same : job.j_id = id
          · simp [findFrom, nonzero, found, same, here]
          · have later := ih tail (Nat.lt_of_succ_lt_succ enough)
            simpa [findFrom, nonzero, found, same, here] using later

/-- `job_find` returns the first job of the thread, or `NULL`, and changes nothing. -/
theorem jobFind_eq (h : qp.Stands jobs) (id : τ) {rounds : Nat} (enough : jobs.length < rounds)
    : qp.jobFind id rounds
      = some ((jobs.find? fun jp => qp.j_id jp = some id).getD 0, qp) := by
  have linked
      : DLinked (j_next { qp with q_lock := ⟨1, false⟩ }) (j_prev { qp with q_lock := ⟨1, false⟩ })
          qp.q_head jobs qp.q_tail :=
    h.linked
  have reading
      : findFrom { qp with q_lock := ⟨1, false⟩ } id rounds qp.q_head
        = some ((jobs.find? fun jp => qp.j_id jp = some id).getD 0) :=
    findFrom_eq linked id enough
  have same : unlock { qp with q_lock := ⟨1, false⟩ } = qp := by
    obtain ⟨heap, q_head, q_tail, q_lock⟩ := qp
    simp only [unlock, RwLock.unlock, Bool.false_eq_true, if_false, ← h.free]
  simp [jobFind, RwLock.rdlock, h.free, reading, same]

end find

-----------------------------------------------------------------------------------------
-- Sequences of calls
-----------------------------------------------------------------------------------------

/-- A call that changes the queue. -/
inductive Op
  | insert (jp : Nat)
  | append (jp : Nat)
  | remove (jp : Nat)
deriving Repr, DecidableEq

def Op.run (qp : Queue τ) : Op → Option (Queue τ)
  | .insert jp => qp.jobInsert jp
  | .append jp => qp.jobAppend jp
  | .remove jp => qp.jobRemove jp

/-- The reference list after the call. -/
def Op.onList (jobs : List Nat) : Op → List Nat
  | .insert jp => jp :: jobs
  | .append jp => jobs ++ [jp]
  | .remove jp => jobs.erase jp

/-- The callers add jobs that are not in the queue and remove jobs that are. -/
def Op.Allowed (isJob : Nat → Prop) (jobs : List Nat) : Op → Prop
  | .insert jp => jp ∉ jobs ∧ isJob jp
  | .append jp => jp ∉ jobs ∧ isJob jp
  | .remove jp => jp ∈ jobs

def Proper (isJob : Nat → Prop) : List Nat → List Op → Prop
  | _, [] => True
  | jobs, op :: ops => op.Allowed isJob jobs ∧ Proper isJob (op.onList jobs) ops

/-- There is a job at the address. -/
def IsJob (qp : Queue τ) (a : Nat) : Prop := a ≠ 0 ∧ (qp.j_id a).isSome

/-- Every operation acts on the list of jobs. -/
theorem op_refines {op : Op} (h : qp.Stands jobs) (allowed : op.Allowed qp.IsJob jobs)
    : ∃ qp', op.run qp = some qp' ∧ qp'.Stands (op.onList jobs) ∧ qp'.j_id = qp.j_id := by
  cases op with
  | insert jp => exact jobInsert_spec h allowed.1 allowed.2.1 allowed.2.2
  | append jp => exact jobAppend_spec h allowed.1 allowed.2.1 allowed.2.2
  | remove jp =>
      obtain ⟨l₁, l₂, rfl⟩ := List.append_of_mem allowed
      have outside : jp ∉ l₁ := fun member =>
        (List.nodup_append.mp h.linked.nodup).2.2 jp member jp List.mem_cons_self rfl
      have erased : (l₁ ++ jp :: l₂).erase jp = l₁ ++ l₂ := by
        rw [List.erase_append_right _ outside, List.erase_cons_head]
      have removed := jobRemove_spec h
      rw [← erased] at removed
      exact removed

/-- Every call of a sequence has a result, and the queue goes along with the reference list. -/
theorem run_refines {ops : List Op} (h : qp.Stands jobs) (proper : Proper qp.IsJob jobs ops)
    : ∃ qp', ops.foldlM Op.run qp = some qp' ∧ qp'.Stands (ops.foldl Op.onList jobs)
        ∧ qp'.j_id = qp.j_id := by
  induction ops generalizing qp jobs with
  | nil => exact ⟨qp, rfl, h, rfl⟩
  | cons op ops ih =>
      obtain ⟨q₁, run₁, stands₁, id₁⟩ := op_refines h proper.1
      have isJob : q₁.IsJob = qp.IsJob := by
        funext a
        rw [IsJob, IsJob, id₁]
      obtain ⟨q₂, run₂, stands₂, id₂⟩ := ih stands₁ (by rw [isJob]; exact proper.2)
      refine ⟨q₂, ?_, stands₂, id₂.trans id₁⟩
      rw [List.foldlM_cons, run₁]
      exact run₂

/-- After any sequence of calls on a new queue, the links are those of a doubly linked list, its
jobs are those of the reference list, and `job_find` searches them in that order.
-/
theorem run_queueInit [DecidableEq τ] (qp : Queue τ) {ops : List Op}
    (proper : Proper qp.IsJob [] ops)
    : ∃ qp', ops.foldlM Op.run (qp.queueInit 0).2 = some qp'
        ∧ DLinked qp'.j_next qp'.j_prev qp'.q_head (ops.foldl Op.onList []) qp'.q_tail
        ∧ ∀ id rounds, (ops.foldl Op.onList []).length < rounds
          → qp'.jobFind id rounds
            = some
                (((ops.foldl Op.onList []).find? fun jp => qp'.j_id jp = some id).getD 0, qp') := by
  obtain ⟨qp', run, stands, -⟩ := run_refines (stands_queueInit qp 0) proper
  exact ⟨qp', run, stands.linked, fun id _ enough => jobFind_eq stands id enough⟩

/-- Four jobs of two threads: a head, a job between two others and a tail are removed, and one of
them comes back.
-/
theorem run_queueInit_removed
    : ∃ qp' : Queue Nat,
        [.append 1, .append 2, .insert 3, .append 4, .remove 1, .remove 4, .insert 1,
          .remove 1, .append 1].foldlM Op.run
          (queueInit ⟨fun a => some ⟨7, 8, a % 2⟩, 5, 6, ⟨3, true⟩⟩ 0).2 = some qp'
        ∧ DLinked qp'.j_next qp'.j_prev qp'.q_head [3, 2, 1] qp'.q_tail
        ∧ ∀ id rounds, 3 < rounds
          → qp'.jobFind id rounds
            = some (([3, 2, 1].find? fun jp => qp'.j_id jp = some id).getD 0, qp') :=
  run_queueInit _ (by simp [Proper, Op.Allowed, Op.onList, IsJob, j_id])

end Queue

end Minions.Threads.Rwlock
