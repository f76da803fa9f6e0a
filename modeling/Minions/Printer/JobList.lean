import Minions.Data.DoublyLinked
import Minions.Printer.Requests

/-! The list of pending jobs of `printd.c`: the cells in memory, the routines that patch their
links, and the sequence of jobs that the cells stand for. A routine that follows a pointer to
no cell has no result.
-/

namespace Minions.Printer

open Minions.Data

/-- A print job: its ID and its copy of the print request. -/
structure Job where
  jobid : Int
  req : PrintReq
deriving DecidableEq

/-- `struct job`. Links are addresses; 0 is `NULL`. -/
structure JobCell where
  next : Nat
  prev : Nat
  job : Job

/-- The allocated cells and the two ends of the list. -/
structure JobList where
  heap : Nat → Option JobCell
  jobhead : Nat
  jobtail : Nat

namespace JobList

def next (l : JobList) (a : Nat) : Option Nat := (l.heap a).map JobCell.next

def prev (l : JobList) (a : Nat) : Option Nat := (l.heap a).map JobCell.prev

def job (l : JobList) (a : Nat) : Option Job := (l.heap a).map JobCell.job

/-- `a->next = v` -/
def setNext (l : JobList) (a v : Nat) : Option JobList :=
  (l.heap a).map fun c => { l with heap := Function.update l.heap a (some { c with next := v }) }

/-- `a->prev = v` -/
def setPrev (l : JobList) (a v : Nat) : Option JobList :=
  (l.heap a).map fun c => { l with heap := Function.update l.heap a (some { c with prev := v }) }

/-- The critical section of `add_job`; `jp` is filled in, and `jp->next` is `NULL`. -/
def addJob (l : JobList) (jp : Nat) : Option JobList := do
  let l ← l.setPrev jp l.jobtail
  let l ← if l.jobtail = 0 then some { l with jobhead := jp } else l.setNext l.jobtail jp
  some { l with jobtail := jp }

def replaceJob (l : JobList) (jp : Nat) : Option JobList := do
  let l ← l.setPrev jp 0
  let l ← l.setNext jp l.jobhead
  let l ← if l.jobhead = 0 then some { l with jobtail := jp } else l.setPrev l.jobhead jp
  some { l with jobhead := jp }

/-- The first half of `remove_job`: the cell after `target` leads back past it. -/
def unlinkNext (l : JobList) (target : Nat) : Option JobList := do
  let next ← l.next target
  let prev ← l.prev target
  if next ≠ 0 then l.setPrev next prev else some { l with jobtail := prev }

/-- The second half of `remove_job`: the cell before `target` leads past it. -/
def unlinkPrev (l : JobList) (target : Nat) : Option JobList := do
  let prev ← l.prev target
  let next ← l.next target
  if prev ≠ 0 then l.setNext prev next else some { l with jobhead := next }

def removeJob (l : JobList) (target : Nat) : Option JobList := do
  let l ← l.unlinkNext target
  l.unlinkPrev target

variable {l : JobList} {a jp m n : Nat} {cells l₁ l₂ : List Nat}

/-- The forward pointer of a cell is written. -/
theorem setNext_spec (v : Nat) (found : (l.job a).isSome)
    : ∃ l', l.setNext a v = some l' ∧ l'.jobhead = l.jobhead ∧ l'.jobtail = l.jobtail
        ∧ l'.job = l.job ∧ l'.prev = l.prev ∧ l'.next = Function.update l.next a (some v) := by
  simp only [job, Option.isSome_map] at found
  obtain ⟨c, eq⟩ := Option.isSome_iff_exists.mp found
  refine ⟨_, congrArg (Option.map _) eq, rfl, rfl, ?_, ?_, ?_⟩
  all_goals
    funext b
    by_cases same : b = a
    · simp [job, prev, next, same, eq]
    · simp [job, prev, next, same]

/-- The backward pointer of a cell is written. -/
theorem setPrev_spec (v : Nat) (found : (l.job a).isSome)
    : ∃ l', l.setPrev a v = some l' ∧ l'.jobhead = l.jobhead ∧ l'.jobtail = l.jobtail
        ∧ l'.job = l.job ∧ l'.next = l.next ∧ l'.prev = Function.update l.prev a (some v) := by
  simp only [job, Option.isSome_map] at found
  obtain ⟨c, eq⟩ := Option.isSome_iff_exists.mp found
  refine ⟨_, congrArg (Option.map _) eq, rfl, rfl, ?_, ?_, ?_⟩
  all_goals
    funext b
    by_cases same : b = a
    · simp [job, prev, next, same, eq]
    · simp [job, prev, next, same]

/-- A cell with a forward pointer has a job. -/
theorem job_isSome_of_next {n : Nat} (h : l.next a = some n) : (l.job a).isSome := by
  obtain ⟨c, found, -⟩ := Option.map_eq_some_iff.mp h
  simp [job, found]

-----------------------------------------------------------------------------------------
-- The three routines
-----------------------------------------------------------------------------------------

/-- The list stands for the cells `cells`, from head to tail. -/
def Stands (l : JobList) (cells : List Nat) : Prop :=
  DLinked l.next l.prev l.jobhead cells l.jobtail

/-- A cell of the list has a job. -/
theorem Stands.job_isSome (h : l.Stands cells) (member : a ∈ cells) : (l.job a).isSome := by
  obtain ⟨⟨n, forth⟩, -⟩ := h.exists_ member
  exact job_isSome_of_next forth

/-- `add_job` links its cell behind the tail. -/
theorem addJob_spec (h : l.Stands cells) (outside : jp ∉ cells) (nonzero : jp ≠ 0)
    (last : l.next jp = some 0)
    : ∃ l', l.addJob jp = some l' ∧ l'.Stands (cells ++ [jp]) ∧ l'.job = l.job
        ∧ ∀ b, b ∉ cells → l'.next b = l.next b := by
  obtain ⟨l₁, eq₁, head₁, tail₁, job₁, next₁, prev₁⟩ :=
    setPrev_spec l.jobtail (job_isSome_of_next last)
  by_cases zero : l.jobtail = 0
  · have empty : cells = [] := h.last_eq_zero.mp zero
    refine ⟨{ l₁ with jobhead := jp, jobtail := jp }, ?_, ?_, job₁, fun b _ => congrFun next₁ b⟩
    · simp only [addJob, Option.bind_eq_bind, eq₁, Option.bind_some, tail₁, if_pos zero]
    · subst empty
      refine ⟨rfl, nonzero, ?_, 0, ?_, rfl, rfl⟩
      · exact (congrFun prev₁ jp).trans (by simp [zero])
      · exact (congrFun next₁ jp).trans last
  · have cons : cells ≠ [] := mt h.last_eq_zero.mpr zero
    have member : l.jobtail ∈ cells := h.last_mem cons
    have exists_ : (l₁.job l.jobtail).isSome := by
      rw [job₁]
      exact h.job_isSome member
    obtain ⟨l₂, eq₂, head₂, tail₂, job₂, prev₂, next₂⟩ := setNext_spec jp exists_
    have apart : ∀ b ∈ cells, b ≠ jp := fun b hb same => outside (same ▸ hb)
    refine ⟨{ l₂ with jobtail := jp }, ?_, ?_, job₂.trans job₁, fun b hb => ?_⟩
    · simp only [addJob, Option.bind_eq_bind, eq₁, Option.bind_some, tail₁, if_neg zero, eq₂]
    · have pushed : DLinked l₂.next l₂.prev (if cells = [] then jp else l.jobhead)
          (cells ++ [jp]) jp := by
        refine DLinked.pushBack h nonzero ?_ ?_ ?_ ?_ ?_
        · simp [prev₂, prev₁]
        · simp [next₂, next₁, (apart _ member).symm, last]
        · exact fun y hy => by simp [prev₂, prev₁, apart y hy]
        · exact fun y hy different => by simp [next₂, next₁, different]
        · exact fun _ => by simp [next₂]
      rw [if_neg cons, ← head₁, ← head₂] at pushed
      exact pushed
    · have different : b ≠ l.jobtail := fun same => hb (same ▸ member)
      exact (congrFun next₂ b).trans (by simp [different, next₁])

/-- `replace_job` links its cell before the head. -/
theorem replaceJob_spec (h : l.Stands cells) (outside : jp ∉ cells) (nonzero : jp ≠ 0)
    (exists_ : (l.job jp).isSome)
    : ∃ l', l.replaceJob jp = some l' ∧ l'.Stands (jp :: cells) ∧ l'.job = l.job
        ∧ ∀ b, b ≠ jp → l'.next b = l.next b := by
  obtain ⟨l₁, eq₁, head₁, tail₁, job₁, next₁, prev₁⟩ := setPrev_spec 0 exists_
  have exists₁ : (l₁.job jp).isSome := by rwa [job₁]
  obtain ⟨l₂, eq₂, head₂, tail₂, job₂, prev₂, next₂⟩ := setNext_spec l.jobhead exists₁
  by_cases zero : l.jobhead = 0
  · have empty : cells = [] := h.first_eq_zero.mp zero
    refine ⟨{ l₂ with jobtail := jp, jobhead := jp }, ?_, ?_, job₂.trans job₁, fun b hb => ?_⟩
    · simp only [replaceJob, Option.bind_eq_bind, eq₁, Option.bind_some, head₁, eq₂, head₂,
        if_pos zero]
    · subst empty
      refine ⟨rfl, nonzero, ?_, 0, ?_, rfl, rfl⟩
      · exact (congrFun prev₂ jp).trans (by simp [prev₁])
      · exact (congrFun next₂ jp).trans (by simp [zero])
    · exact (congrFun next₂ b).trans (by simp [hb, next₁])
  · have cons : cells ≠ [] := mt h.first_eq_zero.mpr zero
    have member : l.jobhead ∈ cells := h.first_mem cons
    have exists₂ : (l₂.job l.jobhead).isSome := by
      rw [job₂, job₁]
      exact h.job_isSome member
    obtain ⟨l₃, eq₃, head₃, tail₃, job₃, next₃, prev₃⟩ := setPrev_spec jp exists₂
    have apart : ∀ b ∈ cells, b ≠ jp := fun b hb same => outside (same ▸ hb)
    refine ⟨{ l₃ with jobhead := jp }, ?_, ?_, job₃.trans (job₂.trans job₁), fun b hb => ?_⟩
    · simp only [replaceJob, Option.bind_eq_bind, eq₁, Option.bind_some, head₁, eq₂, head₂,
        if_neg zero, eq₃]
    · have pushed : DLinked l₃.next l₃.prev jp (jp :: cells)
          (if cells = [] then jp else l.jobtail) := by
        refine DLinked.pushFront h nonzero ?_ ?_ ?_ ?_ ?_
        · simp [prev₃, prev₂, prev₁, (apart _ member).symm]
        · simp [next₃, next₂]
        · exact fun y hy => by simp [next₃, next₂, next₁, apart y hy]
        · exact fun y hy different => by simp [prev₃, prev₂, prev₁, different, apart y hy]
        · exact fun _ => by simp [prev₃]
      rw [if_neg cons, ← tail₁, ← tail₂, ← tail₃] at pushed
      exact pushed
    · exact (congrFun next₃ b).trans (by simp [next₂, hb, next₁])

/-- The cell behind, or the tail, gets the backward pointer. -/
theorem unlinkNext_spec (forth : l.next jp = some n) (back : l.prev jp = some m)
    (exists_ : n ≠ 0 → (l.job n).isSome)
    : ∃ l', l.unlinkNext jp = some l' ∧ l'.jobhead = l.jobhead
        ∧ l'.jobtail = (if n = 0 then m else l.jobtail) ∧ l'.job = l.job ∧ l'.next = l.next
        ∧ l'.prev = if n = 0 then l.prev else Function.update l.prev n (some m) := by
  simp only [unlinkNext, Option.bind_eq_bind, forth, back, Option.bind_some]
  by_cases zero : n = 0
  · exact ⟨_, if_neg (not_not.mpr zero), rfl, (if_pos zero).symm, rfl, rfl, (if_pos zero).symm⟩
  · obtain ⟨l', eq, head, tail, job, next, prev⟩ := setPrev_spec m (exists_ zero)
    exact ⟨l', (if_pos zero).trans eq, head, tail.trans (if_neg zero).symm, job, next,
      prev.trans (if_neg zero).symm⟩

/-- The cell before, or the head, gets the forward pointer. -/
theorem unlinkPrev_spec (forth : l.next jp = some n) (back : l.prev jp = some m)
    (exists_ : m ≠ 0 → (l.job m).isSome)
    : ∃ l', l.unlinkPrev jp = some l' ∧ l'.jobhead = (if m = 0 then n else l.jobhead)
        ∧ l'.jobtail = l.jobtail ∧ l'.job = l.job ∧ l'.prev = l.prev
        ∧ l'.next = if m = 0 then l.next else Function.update l.next m (some n) := by
  simp only [unlinkPrev, Option.bind_eq_bind, forth, back, Option.bind_some]
  by_cases zero : m = 0
  · exact ⟨_, if_neg (not_not.mpr zero), (if_pos zero).symm, rfl, rfl, rfl, (if_pos zero).symm⟩
  · obtain ⟨l', eq, head, tail, job, prev, next⟩ := setNext_spec n (exists_ zero)
    exact ⟨l', (if_pos zero).trans eq, head.trans (if_neg zero).symm, tail, job, prev,
      next.trans (if_neg zero).symm⟩

/-- `remove_job` unlinks a cell anywhere in the list. -/
theorem removeJob_spec (h : l.Stands (l₁ ++ jp :: l₂))
    : ∃ l', l.removeJob jp = some l' ∧ l'.Stands (l₁ ++ l₂) ∧ l'.job = l.job
        ∧ ∀ b, b ∉ l₁ → l'.next b = l.next b := by
  obtain ⟨⟨n, forth⟩, m, back⟩ := h.exists_ (y := jp) (by simp)
  obtain ⟨afterIn, beforeIn⟩ := h.neighbours forth back
  have outside : jp ∉ l₂ := (List.nodup_cons.mp (List.nodup_append.mp h.nodup).2.1).1
  obtain ⟨k₁, eq₁, head₁, tail₁, job₁, next₁, prev₁⟩ := unlinkNext_spec forth back
    fun nonzero => h.job_isSome (by simp [afterIn nonzero])
  have back₁ : k₁.prev jp = some m := by
    rw [prev₁]
    split
    · exact back
    · next nonzero =>
        have different : jp ≠ n := fun same => outside (same ▸ afterIn nonzero)
        simp [different, back]
  have forth₁ : k₁.next jp = some n := by rw [next₁, forth]
  obtain ⟨k₂, eq₂, head₂, tail₂, job₂, prev₂, next₂⟩ := unlinkPrev_spec forth₁ back₁
    fun nonzero => by
      rw [job₁]
      exact h.job_isSome (by simp [beforeIn nonzero])
  refine ⟨k₂, ?_, ?_, job₂.trans job₁, fun b hb => ?_⟩
  · simp only [removeJob, Option.bind_eq_bind, eq₁, Option.bind_some, eq₂]
  · have removed : DLinked k₂.next k₂.prev (if m = 0 then n else l.jobhead) (l₁ ++ l₂)
        (if n = 0 then m else l.jobtail) := by
      refine DLinked.remove h back forth ?_ ?_ ?_ ?_
      · intro y _ different
        rw [next₂, next₁]
        split
        · rfl
        · simp [different]
      · intro y _ different
        rw [prev₂, prev₁]
        split
        · rfl
        · simp [different]
      · intro nonzero
        simp [next₂, nonzero]
      · intro nonzero
        simp [prev₂, prev₁, nonzero]
    rw [← head₁, ← head₂, ← tail₁, ← tail₂] at removed
    exact removed
  · rw [next₂, next₁]
    split
    · rfl
    · next nonzero =>
        have different : b ≠ m := fun same => hb (same ▸ beforeIn nonzero)
        simp [different]

end JobList

end Minions.Printer
