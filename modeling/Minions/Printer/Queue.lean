import Minions.Printer.JobList

/-! The queue of the print daemon over whole runs.
Any number of threads run `add_job` while the one printer thread takes the head of the list
and prints the job, cancels it or puts it back. Each critical section under `joblock` is one
step; the allocation before it is another.
-/

namespace Minions.Printer

open Minions.Data

/-- How the printer thread is done with a job. -/
inductive Verdict
  | printed
  | cancelled
deriving DecidableEq

/-- The list, the cells that the threads hold outside it, and what has happened so far. -/
structure Queue (Tid : Type) where
  list : JobList
  /-- The cell that a thread in `add_job` has filled in and not yet linked. -/
  filled : Tid → Option Nat
  /-- `jp` of the printer thread. -/
  hand : Option Nat
  added : List Job
  finished : List (Job × Verdict)

/-- One step of some thread. -/
inductive Action (Tid : Type)
  /-- `add_job` up to the lock: the allocator returns `jp`, whose `prev` is not set. -/
  | fill (t : Tid) (jp stale : Nat) (job : Job)
  /-- The critical section of `add_job`. -/
  | link (t : Tid)
  /-- The printer thread removes the head of a list that is not empty. -/
  | take
  /-- The printer thread frees its job, printed or cancelled. -/
  | finish (verdict : Verdict)
  /-- The printer thread calls `replace_job`. -/
  | defer

namespace Queue

variable {Tid : Type}

def Enabled (s : Queue Tid) : Action Tid → Prop
  | .fill t jp _ _ => s.filled t = none ∧ jp ≠ 0 ∧ s.list.heap jp = none
  | .link t => s.filled t ≠ none
  | .take => s.hand = none ∧ s.list.jobhead ≠ 0
  | .finish _ => s.hand ≠ none
  | .defer => s.hand ≠ none

/-- The state after a step; there is none if the step follows a bad pointer. -/
def step [DecidableEq Tid] (s : Queue Tid) : Action Tid → Option (Queue Tid)
  | .fill t jp stale job =>
      some { s with
        list.heap := Function.update s.list.heap jp (some { next := 0, prev := stale, job })
        filled := Function.update s.filled t (some jp) }
  | .link t => do
      let jp ← s.filled t
      let job ← s.list.job jp
      let list ← s.list.addJob jp
      some { s with list, filled := Function.update s.filled t none, added := s.added ++ [job] }
  | .take => do
      let jp := s.list.jobhead
      let list ← s.list.removeJob jp
      some { s with list, hand := some jp }
  | .finish verdict => do
      let jp ← s.hand
      let job ← s.list.job jp
      some { s with
        list.heap := Function.update s.list.heap jp none
        hand := none
        finished := s.finished ++ [(job, verdict)] }
  | .defer => do
      let jp ← s.hand
      let list ← s.list.replaceJob jp
      some { s with list, hand := none }

/-- No job, no thread. -/
def empty : Queue Tid where
  list := { heap := fun _ => none, jobhead := 0, jobtail := 0 }
  filled := fun _ => none
  hand := none
  added := []
  finished := []

/-- The states of the runs that start with an empty queue. -/
inductive Reachable [DecidableEq Tid] : Queue Tid → Prop
  | start : Reachable empty
  | next {s s' : Queue Tid} {action : Action Tid} (before : Reachable s)
    (enabled : s.Enabled action) (step : s.step action = some s')
    : Reachable s'

/-- The jobs of some cells, in order. -/
def jobs (s : Queue Tid) (cells : List Nat) : List Job := cells.filterMap s.list.job

-----------------------------------------------------------------------------------------
-- The invariant
-----------------------------------------------------------------------------------------

/-- The list has the cells `cells`, and no cell is in two places. -/
structure Tidy (s : Queue Tid) (cells : List Nat) : Prop where
  stands : s.list.Stands cells
  held : ∀ jp ∈ s.hand, jp ≠ 0 ∧ jp ∉ cells ∧ (s.list.job jp).isSome
  waiting : ∀ t jp, s.filled t = some jp
    → jp ≠ 0 ∧ jp ∉ cells ∧ s.hand ≠ some jp ∧ s.list.next jp = some 0
  single : ∀ t u jp, s.filled t = some jp → s.filled u = some jp → t = u
  history : s.finished.map Prod.fst ++ s.jobs (s.hand.toList ++ cells) = s.added

variable {s s' : Queue Tid} {cells : List Nat}

/-- The jobs of a list that starts with a cell. -/
theorem jobs_cons {a : Nat} {job : Job} (found : s.list.job a = some job)
    : s.jobs (a :: cells) = job :: s.jobs cells := by
  simp [jobs, found]

/-- The empty queue is tidy. -/
theorem tidy_empty : Tidy (empty : Queue Tid) [] where
  stands := ⟨rfl, rfl⟩
  held := by simp [empty]
  waiting := by simp [empty]
  single := by simp [empty]
  history := rfl

variable [DecidableEq Tid]

/-- A filled cell is in no place yet. -/
theorem Tidy.fill (tidy : s.Tidy cells) {t : Tid} {jp stale : Nat} {job : Job}
    (enabled : s.Enabled (.fill t jp stale job))
    : ∃ s', s.step (.fill t jp stale job) = some s' ∧ s'.Tidy cells := by
  obtain ⟨-, nonzero, free⟩ := enabled
  have noJob : s.list.job jp = none := by simp [JobList.job, free]
  have outside : jp ∉ cells := fun member => by
    simpa [noJob] using tidy.stands.job_isSome member
  have notHeld : s.hand ≠ some jp := fun held => by
    simpa [noJob] using (tidy.held jp held).2.2
  have frame : ∀ b, b ≠ jp
      → Function.update s.list.heap jp (some { next := 0, prev := stale, job := job }) b
        = s.list.heap b := fun b different => Function.update_of_ne different _ _
  have inList : ∀ b ∈ cells, b ≠ jp := fun b member same => outside (same ▸ member)
  refine ⟨_, rfl, ?_, ?_, ?_, ?_, ?_⟩
  · refine Segment.congr tidy.stands (fun b member => ?_) fun b member => ?_
    · simp only [JobList.next, frame b (inList b member)]
    · simp only [JobList.prev, frame b (inList b member)]
  · intro b held
    obtain ⟨nz, out, found⟩ := tidy.held b held
    have different : b ≠ jp := fun same => notHeld (same ▸ held)
    exact ⟨nz, out, by simpa only [JobList.job, frame b different] using found⟩
  · intro u b filled
    by_cases same : b = jp
    · subst same
      exact ⟨nonzero, outside, notHeld, by simp [JobList.next]⟩
    · have other : u ≠ t := by
        rintro rfl
        simp only [Function.update_self, Option.some.injEq] at filled
        exact same filled.symm
      obtain ⟨nz, out, apart, last⟩ := tidy.waiting u b
        (by simpa only [Function.update_of_ne other] using filled)
      exact ⟨nz, out, apart, by simpa only [JobList.next, frame b same] using last⟩
  · have notFilled : ∀ u, s.filled u ≠ some jp := fun u filled => by
      have last := (tidy.waiting u jp filled).2.2.2
      simp [JobList.next, free] at last
    intro u v b first second
    simp only [Function.update_apply] at first second
    split at first <;> split at second
    · simp_all
    · simp_all
    · simp_all
    · exact tidy.single u v b first second
  · have same : ∀ b ∈ s.hand.toList ++ cells, b ≠ jp := by
      intro b member
      rcases List.mem_append.mp member with held | listed
      · exact fun eq => notHeld (eq ▸ Option.mem_toList.mp held)
      · exact inList b listed
    rw [← tidy.history]
    refine congrArg _ (List.filterMap_congr fun b member => ?_)
    simp only [JobList.job, frame b (same b member)]

/-- `add_job` appends its job to the history and to the list. -/
theorem Tidy.link (tidy : s.Tidy cells) {t : Tid} (enabled : s.Enabled (.link t))
    : ∃ s' jp, s.step (.link t) = some s' ∧ s'.Tidy (cells ++ [jp]) := by
  obtain ⟨jp, filled⟩ := Option.ne_none_iff_exists'.mp enabled
  obtain ⟨nonzero, outside, notHeld, last⟩ := tidy.waiting t jp filled
  obtain ⟨job, found⟩ := Option.isSome_iff_exists.mp (JobList.job_isSome_of_next last)
  obtain ⟨list, eq, stands, sameJob, frame⟩ :=
    JobList.addJob_spec tidy.stands outside nonzero last
  refine ⟨{ s with list, filled := Function.update s.filled t none, added := s.added ++ [job] },
    jp, ?_, stands, ?_, ?_, ?_, ?_⟩
  · simp only [step, Option.bind_eq_bind, filled, found, eq, Option.bind_some]
  · intro b held
    obtain ⟨nz, out, exists_⟩ := tidy.held b held
    refine ⟨nz, ?_, by simpa only [sameJob] using exists_⟩
    have different : b ≠ jp := fun same => notHeld (same ▸ held)
    simp [out, different]
  · intro u b other
    have different : u ≠ t := by
      rintro rfl
      simp at other
    simp only [Function.update_of_ne different] at other
    obtain ⟨nz, out, apart, next⟩ := tidy.waiting u b other
    have notNew : b ≠ jp := fun same => different (tidy.single u t jp (same ▸ other) filled)
    exact ⟨nz, by simp [out, notNew], apart, by rw [frame b out, next]⟩
  · intro u v b first second
    simp only [Function.update_apply] at first second
    split at first <;> split at second <;> simp_all
    exact tidy.single u v b first second
  · have appended : (s.hand.toList ++ (cells ++ [jp])).filterMap list.job
        = s.jobs (s.hand.toList ++ cells) ++ [job] := by
      simp [jobs, sameJob, found]
    rw [← tidy.history, List.append_assoc]
    exact congrArg _ appended

/-- The printer thread takes the oldest job of the list. -/
theorem Tidy.take (tidy : s.Tidy cells) (enabled : s.Enabled .take)
    : ∃ s', s.step .take = some s' ∧ s'.Tidy cells.tail := by
  obtain ⟨free, nonzero⟩ := enabled
  obtain ⟨jp, rest, rfl⟩ := List.exists_cons_of_ne_nil (mt tidy.stands.first_eq_zero.mpr nonzero)
  have head : s.list.jobhead = jp := tidy.stands.1
  obtain ⟨list, eq, stands, sameJob, frame⟩ :=
    JobList.removeJob_spec (show s.list.Stands ([] ++ jp :: rest) from tidy.stands)
  have outside : jp ∉ rest := (List.nodup_cons.mp tidy.stands.nodup).1
  refine ⟨{ s with list, hand := some jp }, ?_, stands, ?_, ?_, tidy.single, ?_⟩
  · simp only [step, Option.bind_eq_bind, head, eq, Option.bind_some]
  · intro b held
    obtain rfl : jp = b := Option.some.inj held
    have exists_ := tidy.stands.job_isSome (a := jp) (by simp)
    exact ⟨head ▸ nonzero, outside, by simpa only [sameJob] using exists_⟩
  · intro u b filled
    obtain ⟨nz, out, -, next⟩ := tidy.waiting u b filled
    simp only [List.mem_cons, not_or] at out
    exact ⟨nz, out.2, by simpa using Ne.symm out.1, by rw [frame b (by simp), next]⟩
  · have before := tidy.history
    rw [free] at before
    rw [← before]
    exact congrArg (fun job => _ ++ List.filterMap job (jp :: rest)) sameJob

/-- The printer thread frees the job in its hand. -/
theorem Tidy.finish (tidy : s.Tidy cells) {verdict : Verdict}
    (enabled : s.Enabled (.finish verdict))
    : ∃ s', s.step (.finish verdict) = some s' ∧ s'.Tidy cells := by
  obtain ⟨jp, held⟩ := Option.ne_none_iff_exists'.mp enabled
  obtain ⟨nonzero, outside, exists_⟩ := tidy.held jp held
  obtain ⟨job, found⟩ := Option.isSome_iff_exists.mp exists_
  have frame : ∀ b, b ≠ jp → Function.update s.list.heap jp none b = s.list.heap b :=
    fun b different => Function.update_of_ne different _ _
  have inList : ∀ b ∈ cells, b ≠ jp := fun b member same => outside (same ▸ member)
  refine ⟨{ s with
      list.heap := Function.update s.list.heap jp none
      hand := none
      finished := s.finished ++ [(job, verdict)] }, ?_, ?_, ?_, ?_, tidy.single, ?_⟩
  · simp only [step, Option.bind_eq_bind, held, found, Option.bind_some]
  · refine Segment.congr tidy.stands (fun b member => ?_) fun b member => ?_
    · simp only [JobList.next, frame b (inList b member)]
    · simp only [JobList.prev, frame b (inList b member)]
  · intro b held
    simp at held
  · intro u b filled
    obtain ⟨nz, out, apart, next⟩ := tidy.waiting u b filled
    have different : b ≠ jp := fun same => apart (same ▸ held)
    exact ⟨nz, out, by simp, by simpa only [JobList.next, frame b different] using next⟩
  · have same : cells.filterMap (Option.map JobCell.job ∘ Function.update s.list.heap jp none)
        = s.jobs cells :=
      List.filterMap_congr fun b member => by
        simp only [Function.comp_apply, frame b (inList b member), JobList.job]
    rw [← tidy.history, held]
    simp only [Option.toList_some, List.singleton_append, jobs_cons found, List.map_append,
      List.map_cons, List.map_nil, List.append_assoc]
    exact congrArg (fun jobs => _ ++ job :: jobs) same

/-- The printer thread puts the job in its hand back in front of all others. -/
theorem Tidy.defer (tidy : s.Tidy cells) (enabled : s.Enabled .defer)
    : ∃ s' jp, s.step .defer = some s' ∧ s'.Tidy (jp :: cells) := by
  obtain ⟨jp, held⟩ := Option.ne_none_iff_exists'.mp enabled
  obtain ⟨nonzero, outside, exists_⟩ := tidy.held jp held
  obtain ⟨list, eq, stands, sameJob, frame⟩ :=
    JobList.replaceJob_spec tidy.stands outside nonzero exists_
  refine ⟨{ s with list, hand := none }, jp, ?_, stands, ?_, ?_, tidy.single, ?_⟩
  · simp only [step, Option.bind_eq_bind, held, eq, Option.bind_some]
  · intro b held
    simp at held
  · intro u b filled
    obtain ⟨nz, out, apart, next⟩ := tidy.waiting u b filled
    have different : b ≠ jp := fun same => apart (same ▸ held)
    exact ⟨nz, by simp [out, different], by simp, by rw [frame b different, next]⟩
  · rw [← tidy.history, held]
    simp only [jobs, sameJob, Option.toList_none, Option.toList_some, List.nil_append,
      List.singleton_append]

/-- Every step that can be taken succeeds and keeps the queue tidy. -/
theorem Tidy.step (tidy : s.Tidy cells) {action : Action Tid} (enabled : s.Enabled action)
    : ∃ s' cells', s.step action = some s' ∧ s'.Tidy cells' := by
  cases action with
  | fill t jp stale job =>
      obtain ⟨s', eq, tidy'⟩ := tidy.fill enabled
      exact ⟨s', cells, eq, tidy'⟩
  | link t =>
      obtain ⟨s', jp, eq, tidy'⟩ := tidy.link enabled
      exact ⟨s', _, eq, tidy'⟩
  | take =>
      obtain ⟨s', eq, tidy'⟩ := tidy.take enabled
      exact ⟨s', _, eq, tidy'⟩
  | finish verdict =>
      obtain ⟨s', eq, tidy'⟩ := tidy.finish enabled
      exact ⟨s', cells, eq, tidy'⟩
  | defer =>
      obtain ⟨s', jp, eq, tidy'⟩ := tidy.defer enabled
      exact ⟨s', _, eq, tidy'⟩

/-- Every run keeps the queue tidy. -/
theorem Reachable.tidy (reachable : s.Reachable) : ∃ cells, s.Tidy cells := by
  induction reachable with
  | start => exact ⟨[], tidy_empty⟩
  | @next s s' action before enabled step ih =>
      obtain ⟨cells, tidy⟩ := ih
      obtain ⟨s'', cells', step', tidy'⟩ := tidy.step enabled
      obtain rfl : s' = s'' := Option.some.inj (step.symm.trans step')
      exact ⟨cells', tidy'⟩

-----------------------------------------------------------------------------------------
-- The queue at every moment
-----------------------------------------------------------------------------------------

/-- The jobs that were printed, in the order of printing. -/
def printed (s : Queue Tid) : List Job :=
  (s.finished.filter fun done => done.2 = .printed).map Prod.fst

/-- The queue is sound: `cells` is one doubly linked list from `jobhead` to `jobtail`, the jobs
ever added are, in the order of `add_job`, those finished, the one in the printer thread's hand
and those in the list, and no step can follow a bad pointer.
-/
structure Sound (s : Queue Tid) (cells : List Nat) : Prop where
  linked : DLinked s.list.next s.list.prev s.list.jobhead cells s.list.jobtail
  ends : s.list.jobhead = 0 ↔ s.list.jobtail = 0
  inverse : ∀ a ∈ cells, ∀ b ∈ cells, s.list.next a = some b ↔ s.list.prev b = some a
  placed : s.finished.map Prod.fst ++ s.jobs s.hand.toList ++ s.jobs cells = s.added
  once : (s.hand.toList ++ cells).Nodup
  inOrder : s.printed.Sublist s.added
  safe : ∀ action, s.Enabled action → (s.step action).isSome

omit [DecidableEq Tid] in
/-- No job is both in hand and on the list. -/
theorem Tidy.nodup (tidy : s.Tidy cells) : (s.hand.toList ++ cells).Nodup := by
  refine List.nodup_append.mpr ⟨by cases s.hand <;> simp, tidy.stands.nodup, ?_⟩
  rintro a held b listed rfl
  exact (tidy.held a (Option.mem_toList.mp held)).2.1 listed

/-- A tidy queue is sound. -/
theorem Tidy.sound (tidy : s.Tidy cells) : s.Sound cells where
  linked := tidy.stands
  ends := tidy.stands.first_eq_zero.trans tidy.stands.last_eq_zero.symm
  inverse a ha b hb :=
    ⟨fun forth => tidy.stands.prev_next ha forth (tidy.stands.ne_zero hb),
      fun back => tidy.stands.next_prev hb back (tidy.stands.ne_zero ha)⟩
  placed := by
    rw [← tidy.history, List.append_assoc, jobs, jobs, jobs, List.filterMap_append]
  once := tidy.nodup
  inOrder := by
    rw [← tidy.history]
    exact (List.filter_sublist.map _).trans (List.sublist_append_left _ _)
  safe action enabled := by
    obtain ⟨s', -, eq, -⟩ := tidy.step enabled
    simp [eq]

/-- In every run of any number of threads the queue is sound at every moment. Witness: the
invariant holds of the empty queue, and every step keeps it.
-/
theorem reachable_sound (reachable : s.Reachable) : ∃ cells, s.Sound cells := by
  obtain ⟨cells, tidy⟩ := reachable.tidy
  exact ⟨cells, tidy.sound⟩

instance (s : Queue Tid) (action : Action Tid) : Decidable (s.Enabled action) :=
  match action with
  | .fill t jp _ _ =>
      decidable_of_iff (s.filled t = none ∧ jp ≠ 0 ∧ (s.list.heap jp).isNone)
        (by simp [Enabled])
  | .link t => inferInstanceAs (Decidable (s.filled t ≠ none))
  | .take => inferInstanceAs (Decidable (s.hand = none ∧ s.list.jobhead ≠ 0))
  | .finish _ => inferInstanceAs (Decidable (s.hand ≠ none))
  | .defer => inferInstanceAs (Decidable (s.hand ≠ none))

/-- The state after some steps, if each of them can be taken. -/
def perform : List (Action Tid) → Queue Tid → Option (Queue Tid)
  | [], s => some s
  | action :: rest, s =>
      if s.Enabled action then (s.step action).bind (perform rest) else none

/-- What is performed stays reachable. -/
theorem Reachable.perform {actions : List (Action Tid)} (reachable : s.Reachable)
    (run : perform actions s = some s')
    : s'.Reachable := by
  induction actions generalizing s with
  | nil => exact Option.some.inj run ▸ reachable
  | cons action rest ih =>
      simp only [Queue.perform] at run
      split at run
      · next enabled =>
          obtain ⟨mid, first, run⟩ := Option.bind_eq_some_iff.mp run
          exact ih (.next reachable enabled first) run
      · exact absurd run nofun

/-- Two threads add jobs 1 and 2, out of order; the printer defers job 2 and then prints it. -/
def deferred : List (Action Nat) :=
  [.fill 1 16 99 ⟨1, blankReq⟩, .fill 2 32 99 ⟨2, blankReq⟩, .link 2, .take, .link 1, .defer,
    .take, .finish .printed]

/-- A run in which a job is put back. -/
theorem reachable_sound_deferred
    : ∃ s : Queue Nat, s.printed.map Job.jobid = [2] ∧ s.added.map Job.jobid = [2, 1]
        ∧ ∃ cells, s.Sound cells := by
  have ends : (perform deferred empty).isSome := by decide
  refine ⟨(perform deferred empty).get ends, rfl, rfl, ?_⟩
  exact reachable_sound (Reachable.perform .start (Option.some_get ends).symm)

end Queue

end Minions.Printer
